import Trellis.Proofs.Session.Congruence
import Trellis.Proofs.Solver.Simulation

/-! What evaluation does to a session. By itself it enters equations, binds logic
variables and reports unsolvable equations; whatever else happens is done by the
calls and lookups it leaves to the machine. -/
namespace Trellis

/-- Everything the machine can be asked for moves along. -/
structure Machine.Moves (R : History → History → Prop) (m : Machine) : Prop where
  call : ∀ entity prop args dynVars, SessionM.Moves R (m.call entity prop args dynVars)
  search : ∀ q view visiting found, SessionM.Moves R (m.search q view visiting found)
  resolve : ∀ env index, SessionM.Moves R (m.resolve env index)

/-- Everything the machine can be asked for leads where `R` says. -/
structure Machine.Ends (R : Bool → History → History → Prop) (m : Machine) : Prop where
  call : ∀ entity prop args dynVars, SessionM.Ends R (m.call entity prop args dynVars)
  search : ∀ q view visiting found, SessionM.Ends R (m.search q view visiting found)
  resolve : ∀ env index, SessionM.Ends R (m.resolve env index)

/-- Moves that include everything evaluation does by itself. -/
class Evaluates (R : History → History → Prop) : Prop extends Track R where
  equation : ∀ s populated e,
    R ⟨s, populated⟩ ⟨{ s with pool := (s.pool.addEquation e).2 }, populated⟩
  solved : ∀ (S : Setting) {m : Machine} (e : Equation Entity) (dynVars : DynVars),
    m.Moves R → SessionM.Moves R (EvalM.solve S m e dynVars)
  reported : ∀ s populated code message location,
    R ⟨s, populated⟩ ⟨s.report code message location, populated⟩

/-- Where evaluation leads that leaves calls and lookups to such a machine. -/
class Concludes (R : Bool → History → History → Prop) : Prop extends Trail R where
  equation : ∀ s populated e,
    R true ⟨s, populated⟩ ⟨{ s with pool := (s.pool.addEquation e).2 }, populated⟩
  solved : ∀ (S : Setting) {m : Machine} (e : Equation Entity) (dynVars : DynVars),
    m.Ends R → SessionM.Ends R (EvalM.solve S m e dynVars)

theorem Machine.ends_of_moves {R : History → History → Prop} {m : Machine} (machine : m.Moves R) :
    m.Ends fun _ => R :=
  ⟨machine.call, machine.search, machine.resolve⟩

theorem Machine.moves_of_ends {R : History → History → Prop} {m : Machine}
    (machine : m.Ends fun _ => R) : m.Moves R :=
  ⟨machine.call, machine.search, machine.resolve⟩

instance {R : History → History → Prop} [Evaluates R] : Concludes fun _ => R where
  equation := Evaluates.equation
  solved S _ e dynVars machine := Evaluates.solved S e dynVars (Machine.moves_of_ends machine)

theorem Machine.moves_exhausted [Track R] : Machine.exhausted.Moves R where
  call _ _ _ _ := SessionM.moves_exhausted
  search _ _ _ _ := SessionM.moves_exhausted
  resolve _ _ := SessionM.moves_exhausted

variable {R : History → History → Prop} {m : Machine}

section Lookups
variable {R : Bool → History → History → Prop}

theorem Machine.Ends.lookup (machine : m.Ends R) (env : EnvValue) (symbol : Symbol)
    (require : Metadata) : SessionM.Ends R (m.lookup env symbol require) :=
  machine.search _ _ _ _

theorem Machine.Ends.lookup_first [Trail R] (machine : m.Ends R) (env : EnvValue)
    (symbol : Symbol) (require : Metadata) :
    SessionM.Ends R (m.lookupFirst env symbol require) :=
  SessionM.ends_bind (machine.search _ _ _ _) fun _ => SessionM.ends_pure _

end Lookups

theorem Machine.Moves.lookup (machine : m.Moves R) (env : EnvValue)
    (symbol : Symbol) (require : Metadata) : SessionM.Moves R (m.lookup env symbol require) :=
  machine.search _ _ _ _

theorem Machine.Moves.lookup_first [Track R] (machine : m.Moves R) (env : EnvValue)
    (symbol : Symbol) (require : Metadata) :
    SessionM.Moves R (m.lookupFirst env symbol require) :=
  (Machine.ends_of_moves machine).lookup_first env symbol require

namespace EvalM
open SessionM

section Ends
variable {R : Bool → History → History → Prop} [Trail R] (machine : m.Ends R)
include machine

/-- A question is a call whose answer has to be yes or no. -/
theorem answer_ends (x : Entity) (p : PropId) (args : List Value) (dynVars : DynVars) :
    SessionM.Ends R (do
      match ← m.call x p args dynVars with
      | .bool b => return b
      | v => EvalM.fail (.typeMismatch "bool" v.typeName)) := by
  refine ends_bind (machine.call _ _ _ _) fun v => ?_
  split
  · exact ends_pure _
  · exact ends_fail _

theorem oracle_ends (dynVars : DynVars) (q : Solver.Query Entity) (h : History) :
    ∃ populated, R (m.oracle dynVars q h.now).1.isOk h
      ⟨(m.oracle dynVars q h.now).2, populated⟩ := by
  cases q with
  | unary p x => exact answer_ends machine x p.prop [] dynVars h
  | binary p x y => exact answer_ends machine x p.prop [.entity y] dynVars h

/-- Where a history has led, every question leads on. -/
theorem oracle_leads_on (dynVars : DynVars) (h : History) (q : Solver.Query Entity) (s : Session) :
    (∃ populated, R true h ⟨s, populated⟩) → ∃ populated, R (m.oracle dynVars q s).1.isOk h
      ⟨(m.oracle dynVars q s).2, populated⟩ := by
  rintro ⟨populated, there⟩
  obtain ⟨later, further⟩ := oracle_ends machine dynVars q ⟨s, populated⟩
  exact ⟨later, Trail.trans there further⟩

/-- A solve leads where its questions do if binding a variable and reporting lead there. -/
theorem solve_ends
    (assigned : ∀ s populated v x,
      R true ⟨s, populated⟩ ⟨{ s with tree := s.tree.setValue v x }, populated⟩)
    (reported : ∀ s populated code message location,
      R true ⟨s, populated⟩ ⟨s.report code message location, populated⟩)
    (S : Setting) (e : Equation Entity) (dynVars : DynVars) :
    SessionM.Ends R (EvalM.solve S m e dynVars) := by
  have assign (values : Assignment Entity) (s : Session) (populated : List (NodeId × EnvId)) :
      R true ⟨s, populated⟩ ⟨s.assign values, populated⟩ := by
    induction values generalizing s with
    | nil => exact Trail.refl _ _
    | cons value rest ih => exact Trail.trans (assigned s populated value.1 value.2) (ih _)
  intro h
  obtain ⟨populated, there⟩ := e.solve_ends (W := fun ok s => ∃ populated, R ok h ⟨s, populated⟩)
    (oracle_leads_on machine dynVars h) S.config.solver (h.now.boundVars e)
    ⟨h.populated, Trail.refl _ h⟩
  unfold EvalM.solve
  split
  · next values s ran =>
    rw [ran] at there
    exact ⟨populated, Trail.trans there (assign values s populated)⟩
  · next why s ran =>
    rw [ran] at there
    exact ⟨populated, Trail.trans there (reported _ _ _ _ _)⟩
  · next halt s ran =>
    rw [ran] at there
    cases halt with
    | predicate cause => exact ⟨populated, there⟩
    -- all questions were answered, and the solve fails nevertheless
    | tooManyBranches limit => exact ⟨populated, Trail.trans there (Trail.refl _ _)⟩

theorem satisfiable_ends (S : Setting) (e : Equation Entity) (dynVars : DynVars) :
    SessionM.Ends R (EvalM.satisfiable S m e dynVars) := by
  intro h
  obtain ⟨populated, there⟩ := e.satisfiable_domains_ends
    (W := fun ok s => ∃ populated, R ok h ⟨s, populated⟩) (oracle_leads_on machine dynVars h)
    S.config.solver (h.now.boundVars e) ⟨h.populated, Trail.refl _ h⟩
  unfold EvalM.satisfiable
  split
  · next domains s ran =>
    rw [ran] at there
    exact ⟨populated, there⟩
  · next halt s ran =>
    rw [ran] at there
    cases halt with
    | predicate cause => exact ⟨populated, there⟩
    | tooManyBranches limit => exact ⟨populated, Trail.trans there (Trail.refl _ _)⟩

end Ends

section Moves
variable [Track R] (machine : m.Moves R)
include machine

theorem oracle_leads (dynVars : DynVars) (h : History) (q : Solver.Query Entity) (s : Session) :
    (∃ populated, R h ⟨s, populated⟩) → ∃ populated, R h ⟨(m.oracle dynVars q s).2, populated⟩ :=
  oracle_leads_on (Machine.ends_of_moves machine) dynVars h q s

/-- A solve moves along if binding a variable and reporting do. -/
theorem solve_moves
    (assigned : ∀ s populated v x,
      R ⟨s, populated⟩ ⟨{ s with tree := s.tree.setValue v x }, populated⟩)
    (reported : ∀ s populated code message location,
      R ⟨s, populated⟩ ⟨s.report code message location, populated⟩)
    (S : Setting) (e : Equation Entity) (dynVars : DynVars) :
    SessionM.Moves R (EvalM.solve S m e dynVars) :=
  solve_ends (Machine.ends_of_moves machine) assigned reported S e dynVars

theorem satisfiable_moves (S : Setting) (e : Equation Entity) (dynVars : DynVars) :
    SessionM.Moves R (EvalM.satisfiable S m e dynVars) :=
  satisfiable_ends (Machine.ends_of_moves machine) S e dynVars

end Moves

end EvalM

namespace FrameM

variable {R : Bool → History → History → Prop}

theorem ends_expect_env [Trail R] (v : Value) : Ends R (expectEnv v) := by
  cases v <;> first | exact ends_pure _ | exact ends_fail _

/-- What is solved is the equation as it has been evaluated, with the dynamic variables of
the place that solves it. -/
theorem eval_solve {S : Setting} {e : Expr} {id : EquationId} {q : Equation Entity}
    {f g : Frame} {s t u : Session} (built : eval S m e f s = ((.ok (.equation id), g), t))
    (known : t.pool.equation id = q) (solved : EvalM.solve S m q g.dynVars t = (result, u)) :
    eval S m (.solve e) f s = ((result.map .bool, g), u) := by
  rw [eval, run_bind, built]
  dsimp only
  rw [run_bind, run_session, SessionM.run_read]
  dsimp only
  rw [run_bind, run_read]
  dsimp only
  rw [run_bind, run_session, known, solved]
  cases result <;> rfl

/-- Where the machine leads and entering an equation does, what is put together from these
leads. -/
theorem ends_composition (S : Setting) [Trail R] (machine : m.Ends R)
    (entered : ∀ s populated e,
      R true ⟨s, populated⟩ ⟨{ s with pool := (s.pool.addEquation e).2 }, populated⟩)
    (m' : Machine) : Composition S m m' fun _ act _ => Ends R act where
  pure := ends_pure
  read := ends_read
  look looks := ends_session <| SessionM.ends_still fun s => by
    obtain ⟨r, same⟩ := looks s
    rw [same]
  set_local := ends_set_local
  equation e := fun _ h => ⟨h.populated, entered h.now h.populated e⟩
  bind := ends_bind
  with_dyn_var := ends_with_dyn_var
  call _ _ _ _ := ends_session (machine.call _ _ _ _)
  search _ _ _ _ := ends_session (machine.search _ _ _ _)

/-- Where the machine and the own changes of evaluation lead, all of it leads. -/
theorem ends_congruence (S : Setting) [Concludes R] (machine : m.Ends R) :
    Congruence S m m fun _ act _ => Ends R act where
  toComposition := ends_composition S machine Concludes.equation m
  solve e dynVars := ends_session (Concludes.solved S e dynVars machine)

/-- Evaluation leads where its own changes and the machine do. -/
theorem eval_ends (S : Setting) [Concludes R] (machine : m.Ends R) (e : Expr) :
    Ends R (eval S m e) :=
  (ends_congruence S machine).eval_related e

section Moves
variable {R : History → History → Prop}

theorem eval_moves (S : Setting) [Evaluates R] (machine : m.Moves R) (e : Expr) :
    Moves R (eval S m e) :=
  eval_ends (R := fun _ => R) S (Machine.ends_of_moves machine) e

theorem moves_expect_env [Track R] (v : Value) : Moves R (expectEnv v) :=
  ends_expect_env (R := fun _ => R) v

theorem moves_operand [Track R] {act : FrameM Value} {expect : Value → FrameM α}
    {next : α → FrameM β} (inside : Moves R act) (expects : ∀ v, Moves R (expect v))
    (rest : ∀ x, Moves R (next x)) : Moves R (act >>= fun v => expect v >>= next) :=
  moves_bind inside fun v => moves_bind (expects v) rest

end Moves
end FrameM
end Trellis
