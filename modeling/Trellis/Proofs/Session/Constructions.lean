import Trellis.Proofs.DynVars
import Trellis.Proofs.Session.Binding
import Trellis.Proofs.Session.Constraints
import Trellis.Proofs.Session.Typing
import Trellis.Proofs.Solver.Flattening
import Trellis.Proofs.Solver.Questions

/-! Equations that a host builds. What the builder accepts has the shape of a constraint and
needs no more than what the host says will be bound, so wherever at least that much is bound
each question that is put about it is a call of the right shape. What such a call gives is of
the type that its property declares, also where it was remembered, and that is yes or no. -/
namespace Trellis
open Solver

/-! ## Building -/

namespace EquationBuilder

/-- What a host asks of a builder. -/
inductive Constraint where
  | domain (var : VarId) (values : List Entity) (site : Site)
  | bind (x y : VarId) (relation : Option PropId) (site : Site)
  | predicate (var : VarId) (p : PropId) (site : Site)

namespace Constraint

/-- What it adds if it is accepted. -/
def atom : Constraint → Atom Entity
  | domain var values site => .domain var values (some site)
  | bind x y relation site => .bind x y (relation.map PropId.pred) (some site)
  | predicate var p site => .predicate var p.pred (some site)

/-- Whether a property is known, takes values of these types, answers yes or no, and declares
only variables that are available. -/
def answers (d : Definition) (available : List DynVarId) (p : PropId)
    (types : PropertyInfo → List ValueType) : Bool :=
  (d.property? p).any fun info =>
    info.paramTypes = types info && info.returns = .bool &&
      info.dynVars.all (available.contains ·)

/-- Whether it has the shape of a constraint. A relation takes the second value, of the kind
that has the property, and a filter takes none. -/
def fits (d : Definition) (available : List DynVarId) : Constraint → Bool
  | domain .. | bind _ _ none _ => true
  | bind _ _ (some p) _ => answers d available p fun info => [.entity info.owner]
  | predicate _ p _ => answers d available p fun _ => []

end Constraint

/-- The builder's answer. -/
def add (b : EquationBuilder) (d : Definition) :
    Constraint → Except DefinitionError EquationBuilder
  | .domain var values site => .ok (b.domain var values site)
  | .bind x y relation site => b.bind d x y relation site
  | .predicate var p site => b.predicate d var p site

/-- The builder after a call, accepted or not. -/
def after (b : EquationBuilder) (d : Definition) (c : Constraint) : EquationBuilder :=
  match b.add d c with
  | .ok next => next
  | .error _ => b

/-- The builder after some calls. -/
def run (d : Definition) (available : List DynVarId) (cs : List Constraint) : EquationBuilder :=
  cs.foldl (·.after d) (.new available)

section Builder
variable {d : Definition} {available : List DynVarId}

theorem not_missing_iff (required : List DynVarId) :
    d.missingDynVar required available = none ↔ required.all (available.contains ·) = true := by
  rw [Definition.missingDynVar, Option.map_eq_none_iff, List.find?_eq_none, List.all_eq_true]
  simp

theorem relation_fits_iff (p : PropId) : d.relationProblem p available = none ↔
    Constraint.answers d available p (fun info => [.entity info.owner]) = true := by
  unfold Definition.relationProblem Constraint.answers
  cases d.property? p with
  | none => simp
  | some info =>
    dsimp only [Option.any_some]
    split
    · next shape => simp [shape, not_missing_iff]
    · next other =>
      simp only [Bool.and_eq_true, decide_eq_true_eq, reduceCtorEq, other, false_and]

theorem predicate_fits_iff (p : PropId) : d.predicateProblem p available = none ↔
    Constraint.answers d available p (fun _ => []) = true := by
  have types (info : PropertyInfo) : info.paramTypes = [] ↔ info.params = [] := by
    rw [PropertyInfo.paramTypes, List.map_eq_nil_iff]
  unfold Definition.predicateProblem Constraint.answers
  cases d.property? p with
  | none => simp
  | some info =>
    dsimp only [Option.any_some]
    simp only [types]
    split
    · next shape => simp [shape, not_missing_iff]
    · next other =>
      simp only [Bool.and_eq_true, decide_eq_true_eq, reduceCtorEq, other, false_and]

/-- A call that has the shape of a constraint adds its atom, and any other one is refused. -/
theorem add_cases (b : EquationBuilder) (c : Constraint) :
    if c.fits d b.available then b.add d c = .ok (b.push (.atom c.atom))
    else ∃ refused, b.add d c = .error refused := by
  have checked {problem : Option ConstraintProblem}
      (shape : problem = none ↔ c.fits d b.available = true)
      (accepts : problem = none → b.add d c = .ok (b.push (.atom c.atom)))
      (refuses : ∀ why, problem = some why → ∃ refused, b.add d c = .error refused) :
      if c.fits d b.available then b.add d c = .ok (b.push (.atom c.atom))
      else ∃ refused, b.add d c = .error refused := by
    cases problem with
    | none => rw [if_pos (shape.1 rfl), accepts rfl]
    | some why => rw [if_neg fun fits => nomatch shape.2 fits]; exact refuses why rfl
  cases c with
  | domain var values site => exact rfl
  | predicate var p site =>
    refine checked (predicate_fits_iff p) (fun fine => ?_)
      fun why wrong => ⟨refusal site (.predicate why), ?_⟩
    · rw [add, predicate, fine]; rfl
    · rw [add, predicate, wrong]
  | bind x y relation site =>
    cases relation with
    | none => exact rfl
    | some p =>
      refine checked (relation_fits_iff p) (fun fine => ?_)
        fun why wrong => ⟨refusal site (.relation why), ?_⟩
      · rw [add, EquationBuilder.bind, Option.bind_some, fine]; rfl
      · rw [add, EquationBuilder.bind, Option.bind_some, wrong]

theorem add_is_ok (b : EquationBuilder) (c : Constraint) :
    (b.add d c).isOk = c.fits d b.available := by
  have added := add_cases (d := d) b c
  cases fits : c.fits d b.available with
  | true =>
    rw [fits, if_pos rfl] at added
    rw [added]
    rfl
  | false =>
    rw [fits, if_neg Bool.false_ne_true] at added
    obtain ⟨refused, added⟩ := added
    rw [added]
    rfl

theorem after_eq (b : EquationBuilder) (c : Constraint) :
    b.after d c = if c.fits d b.available then b.push (.atom c.atom) else b := by
  have added := add_cases (d := d) b c
  unfold after
  split at added
  · next fits => rw [added, if_pos fits]
  · next other =>
    obtain ⟨refused, added⟩ := added
    rw [added, if_neg other]

theorem run_eq (cs : List Constraint) : run d available cs =
    ⟨available, (cs.filter (·.fits d available)).map fun c => .atom c.atom⟩ := by
  have onto (b : EquationBuilder) : cs.foldl (·.after d) b =
      ⟨b.available, b.atoms ++ (cs.filter (·.fits d b.available)).map fun c => .atom c.atom⟩ := by
    induction cs generalizing b with
    | nil => simp
    | cons c cs ih =>
      rw [List.foldl_cons, ih, after_eq, List.filter_cons]
      split <;> simp [push]
  exact onto (.new available)

/-- The equation is made of the atoms of what was accepted. -/
theorem finish_run (cs : List Constraint) : (run d available cs).finish =
    .all (((cs.filter (·.fits d available)).map (·.atom)).map .atom) := by
  rw [run_eq, List.map_map]
  rfl

end Builder

end EquationBuilder

namespace Equation

theorem atoms_all_atoms (as : List (Atom V)) : (all (as.map .atom)).atoms = as := by
  rw [atoms_all, atoms, List.flatMap_map]
  simp only [atoms, List.flatMap_singleton']

theorem choices_all_atoms (as : List (Atom V)) : (all (as.map .atom)).choices = [as] := by
  have parts : (as.map Equation.atom).flatMap conjuncts = as.map .atom := by
    rw [List.flatMap_map]
    exact List.map_eq_flatMap.symm
  unfold all
  rw [parts]
  cases as with
  | nil => rfl
  | cons a as =>
    cases as with
    | nil => rfl
    | cons b as => exact choices_of_atoms (a :: b :: as)

end Equation

/-! ## Solving -/

/-- The property that a question calls. -/
def Solver.Query.prop : Query Entity → PropId
  | .unary p _ | .binary p _ _ => p.prop

/-- What it is called with. -/
def Solver.Query.args : Query Entity → List Value
  | .unary _ _ => []
  | .binary _ _ y => [.entity y]

/-- A question whose property is known, is given as many arguments as it takes, has the
variables bound that it declares and answers yes or no; and no call of it gives any other
value. -/
def Machine.PutsRightly (S : Setting) (m : Machine) (dynVars : DynVars) (q : Query Entity)
    (s : Session) : Prop :=
  ∃ info cut, S.language.property? q.prop = some info ∧ q.args.length = info.params.length ∧
    dynVars.restrict info.dynVars = .ok cut ∧ info.returns = .bool ∧
    ∀ v t, m.put dynVars q s = (.ok v, t) → ∃ b, v = .bool b

section Solving
open EquationBuilder
variable {S : Setting} {available : List DynVarId} {dynVars : DynVars} {s : Session}
  {q : Query Entity} {depth : Nat}

theorem conforms_bool {l : Language} {v : Value} (fits : s.conforms l .bool v = true) :
    ∃ b, v = .bool b := by
  cases v with
  | bool b => exact ⟨b, rfl⟩
  | _ => simp [Session.conforms] at fits

theorem put_eq (m : Machine) (dynVars : DynVars) (q : Query Entity) :
    ∃ entity, m.put dynVars q = m.call entity q.prop q.args dynVars := by
  cases q with
  | unary p x => exact ⟨x, rfl⟩
  | binary p x y => exact ⟨x, rfl⟩

theorem put_rightly (staged : Staged S s)
    (types : PropertyInfo → List ValueType) (many : ∀ info, (types info).length = q.args.length)
    (answers : Constraint.answers S.language.toDefinition available q.prop types = true)
    (bound : ∀ v ∈ available, (dynVars.get? v).isSome = true) :
    Machine.PutsRightly S (.upTo S depth) dynVars q s := by
  obtain ⟨info, known, shape⟩ := (Option.any_eq_true _ _).1 answers
  rw [Bool.and_eq_true, Bool.and_eq_true, decide_eq_true_eq, decide_eq_true_eq] at shape
  obtain ⟨⟨params, returns⟩, among⟩ := shape
  have all : ∀ v ∈ info.dynVars, (dynVars.get? v).isSome = true :=
    fun v mem => bound v (List.contains_iff_mem.1 (List.all_eq_true.1 among v mem))
  obtain ⟨cut, declared⟩ := DynVars.restrict_of_bound all
  refine ⟨info, cut, known, ?_, declared, returns, fun v t ran => ?_⟩
  · rw [← many info, ← params, PropertyInfo.paramTypes, List.length_map]
  · obtain ⟨entity, call⟩ := put_eq (.upTo S depth) dynVars q
    rw [call] at ran
    cases depth with
    | zero => cases ran
    | succ n =>
      obtain ⟨_, _, other, _, called, fits⟩ := call_typed staged ran
      cases known.symm.trans called.known
      rw [returns] at fits
      exact conforms_bool fits

/-- What is asked about an accepted constraint is asked rightly. -/
theorem asks_rightly {c : Constraint} (staged : Staged S s)
    (fits : c.fits S.language.toDefinition available = true) (asks : c.atom.Asks q)
    (bound : ∀ v ∈ available, (dynVars.get? v).isSome = true) :
    Machine.PutsRightly S (.upTo S depth) dynVars q s := by
  cases c with
  | domain => cases asks
  | predicate var p site =>
    cases q with
    | unary asked x =>
      obtain rfl : asked = p.pred := asks
      exact put_rightly staged _ (fun _ => rfl) fits bound
    | binary => cases asks
  | bind x y relation site =>
    cases relation with
    | none => cases asks
    | some p =>
      cases q with
      | unary => cases asks
      | binary asked x y =>
        obtain rfl : asked = p.pred := asks
        exact put_rightly staged _ (fun _ => rfl) fits bound

/-- So is whatever is asked about the equation of a builder. -/
theorem calls_rightly {cs : List Constraint} {calls : List (Query Entity × Session)}
    (put : ∀ p ∈ calls, (∃ a ∈ (run S.language.toDefinition available cs).finish.atoms,
      a.Asks p.1) ∧ Staged S p.2)
    (bound : ∀ v ∈ available, (dynVars.get? v).isSome = true) :
    ∀ p ∈ calls, Machine.PutsRightly S (.upTo S depth) dynVars p.1 p.2 := by
  intro p mem
  obtain ⟨⟨a, among, asks⟩, staged⟩ := put p mem
  rw [finish_run, Equation.atoms_all_atoms] at among
  obtain ⟨c, accepted, rfl⟩ := List.mem_map.1 among
  exact asks_rightly staged (List.of_mem_filter accepted) asks bound

theorem oracle_staged (depth : Nat) (dynVars : DynVars) (q : Query Entity)
    (staged : Staged S s) : Staged S ((Machine.upTo S depth).oracle dynVars q s).2 := by
  obtain ⟨entity, call⟩ := put_eq (.upTo S depth) dynVars q
  rw [Machine.oracle_state, call]
  exact staged_leads staged
    (along_moves_iff.1 ((Stage.machine_leads depth).call entity q.prop q.args dynVars) s)

/-- A question that is put rightly fails only if its call does. -/
theorem put_failed {m : Machine} (rightly : m.PutsRightly S dynVars q s)
    (failed : (m.oracle dynVars q s).1 = .error halt) :
    (m.put dynVars q s).1 = .error halt := by
  obtain ⟨info, cut, -, -, -, -, gives⟩ := rightly
  rw [Machine.oracle_eq, SessionM.run_bind] at failed
  rcases ran : m.put dynVars q s with ⟨other | v, t⟩ <;> rw [ran] at failed
  · cases failed
    rfl
  · obtain ⟨b, rfl⟩ := gives v t ran
    cases failed

/-- So one that explains why there is no answer explains the failure. -/
theorem failure_of_explained {m : Machine} {calls : List (Query Entity × Session)}
    (rightly : ∀ p ∈ calls, m.PutsRightly S dynVars p.1 p.2)
    (explained : Explains (m.oracle dynVars) limit calls halt) :
    halt.toInterrupt = .failure (.of (.tooManyBranches limit)) ∨
      ∃ p ∈ calls, (m.put dynVars p.1 p.2).1 = .error halt.toInterrupt := by
  rcases explained with rfl | ⟨p, put, cause, rfl, failed⟩
  · exact .inl rfl
  · exact .inr ⟨p, put, put_failed (rightly p put) failed⟩

end Solving

open EquationBuilder in
/-- **Equations that a host builds lack no dynamic variables.** Whatever the builder is asked
for, it refuses what has not the shape of a constraint or needs a variable that is not
available, and its equation consists of the atoms of all that it accepted, in order, so that an
assignment solves it exactly if it makes all of them true. Wherever a run of a session is and
however the equation is solved there, or asked for candidates, with all that is available
bound, each property that is called is known, is given as many arguments as it takes and all
variables that it declares, and gives no value but yes or no. So a solve that fails has
explored too many branches or one of these calls has itself failed. -/
theorem host_equations_ask_rightly (S : Setting) (available : List DynVarId)
    (cs : List Constraint) :
    let d := S.language.toDefinition
    let accepted := cs.filter (·.fits d available)
    let e := (run d available cs).finish
    (∀ before c after, cs = before ++ c :: after →
      ((run d available before).add d c).isOk = c.fits d available) ∧
    (run d available cs).atoms = accepted.map (fun c => .atom c.atom) ∧
    (∀ holds bound t, (∃ choice ∈ e.choices, Solves holds bound choice t) ↔
      Solves holds bound (accepted.map (·.atom)) t) ∧
    ∀ home running s, Point S home running s → ∀ depth dynVars,
      (∀ v ∈ available, (dynVars.get? v).isSome = true) →
      let m := Machine.upTo S depth
      let solving := e.solveCalls (m.oracle dynVars) S.config.solver (s.boundVars e) s
      let listing := e.domainsCalls (m.oracle dynVars) S.config.solver (s.boundVars e) s
      let tooMany := Interrupt.failure (.of (.tooManyBranches S.config.solver.maxBranches))
      (∀ p ∈ solving ++ listing, m.PutsRightly S dynVars p.1 p.2) ∧
      (∀ halt, (EvalM.solve S m e dynVars s).1 = .error halt →
        halt = tooMany ∨ ∃ p ∈ solving, (m.put dynVars p.1 p.2).1 = .error halt) ∧
      ∀ halt, (EvalM.satisfiable S m e dynVars s).1 = .error halt →
        halt = tooMany ∨ ∃ p ∈ listing, (m.put dynVars p.1 p.2).1 = .error halt := by
  intro d accepted e
  refine ⟨fun before c after _ => ?_, ?_, fun holds bound t => ?_, ?_⟩
  · rw [add_is_ok, run_eq]
  · rw [run_eq]
  · rw [show e = _ from finish_run cs, Equation.choices_all_atoms]
    simp [accepted, d]
  intro home running s point depth dynVars bound m solving listing tooMany
  have keeps : ∀ a ∈ e.atoms, ∀ q, a.Asks q → ∀ t, Staged S t →
      Staged S (m.oracle dynVars q t).2 := fun _ _ q _ t staged => oracle_staged depth dynVars q staged
  have staged := staged_of_point point
  have solves := Equation.solve_accounts S.config.solver e (s.boundVars e) staged keeps
  have lists := Equation.domains_accounts S.config.solver e (s.boundVars e) staged keeps
  have solving_rightly : ∀ p ∈ solving, m.PutsRightly S dynVars p.1 p.2 :=
    calls_rightly solves.put bound
  have listing_rightly : ∀ p ∈ listing, m.PutsRightly S dynVars p.1 p.2 :=
    calls_rightly lists.put bound
  refine ⟨fun p put => (List.mem_append.1 put).elim (solving_rightly p) (listing_rightly p),
    fun halt failed => ?_, fun halt failed => ?_⟩
  · unfold EvalM.solve at failed
    split at failed
    · cases failed
    · cases failed
    · next other t ran =>
      cases failed
      exact failure_of_explained solving_rightly (solves.halted other (by rw [ran]))
  · unfold EvalM.satisfiable at failed
    split at failed
    · cases failed
    · next other t ran =>
      cases failed
      exact failure_of_explained listing_rightly (lists.halted other (by rw [ran]))

/-- A host that says that the flag will be bound asks for a candidate, for a relation of a
property that takes no arguments and for a filter. -/
def EquationBuilder.Constraint.leaf : List EquationBuilder.Constraint :=
  [.domain ⟨0⟩ [.bare ⟨0⟩] .caller, .bind ⟨0⟩ ⟨0⟩ (some ⟨0⟩) .caller, .predicate ⟨0⟩ ⟨0⟩ .caller]

/-- Where the flag is set the filter lets the leaf pass. -/
theorem oracle_of_flag :
    (Machine.upTo .leafUnready 1).oracle (DynVars.none.set ⟨0⟩ (.bool true))
      (.unary ⟨0⟩ (.bare ⟨0⟩)) .overLeaf = (.ok true, .overLeaf) := by
  have called : Called .leafUnready .overLeaf
      ⟨⟨0⟩, .bare ⟨0⟩, [], DynVars.none.set ⟨0⟩ (.bool true)⟩ (DynVars.none.set ⟨0⟩ (.bool true))
      ⟨⟨0⟩, [], none, ⟨0⟩, .empty, .dummy, [⟨0⟩], none⟩ _ 0 :=
    ⟨rfl, rfl, rfl, fun p mem => (List.not_mem_nil mem).elim, rfl, rfl⟩
  have within : Session.overLeaf.Within Setting.leafUnready.config.maxCallDepth :=
    .inr (by decide)
  have ran : EvalM.bodyOf .leafUnready (.upTo .leafUnready 0) ⟨0⟩ 0
      ⟨⟨0⟩, .bare ⟨0⟩, [], DynVars.none.set ⟨0⟩ (.bool true)⟩ Session.overLeaf.deeper =
        (.ok (.bool true), Session.overLeaf.deeper) := rfl
  have answered : EvalM.callWith .leafUnready (.upTo .leafUnready 0) (.bare ⟨0⟩) ⟨0⟩ []
      (DynVars.none.set ⟨0⟩ (.bool true)) .overLeaf = (.ok (.bool true), .overLeaf) := by
    refine (called_eq called (.upTo .leafUnready 0)).trans (SessionM.map_error_of_ok ?_)
    exact EvalM.compute_of_body within ran rfl
  have put : (Machine.upTo .leafUnready 1).put (DynVars.none.set ⟨0⟩ (.bool true))
      (.unary ⟨0⟩ (.bare ⟨0⟩)) = EvalM.callWith .leafUnready (.upTo .leafUnready 0) (.bare ⟨0⟩) ⟨0⟩
        [] (DynVars.none.set ⟨0⟩ (.bool true)) := rfl
  rw [Machine.oracle_eq, SessionM.run_bind, put, answered]
  rfl

open EquationBuilder in
/-- The relation is refused, and the filter asks about the leaf. -/
theorem host_equations_ask_rightly_of_leaf :
    let S := Setting.leafUnready
    let flag := DynVars.none.set ⟨0⟩ (.bool true)
    let m := Machine.upTo S 1
    let e := (run S.language.toDefinition [⟨0⟩] Constraint.leaf).finish
    e = .leaf ∧
      e.solveCalls (m.oracle flag) S.config.solver (Session.overLeaf.boundVars e) .overLeaf =
        [(.unary ⟨0⟩ (.bare ⟨0⟩), .overLeaf)] ∧
      m.PutsRightly S flag (.unary ⟨0⟩ (.bare ⟨0⟩)) .overLeaf := by
  intro S flag m e
  have built : e = .leaf := by
    rw [show e = _ from finish_run _]
    rfl
  have recorded : recording (m.oracle flag) (.unary ⟨0⟩ (.bare ⟨0⟩)) (.overLeaf, []) =
      (.ok true, .overLeaf, [(.unary ⟨0⟩ (.bare ⟨0⟩), .overLeaf)]) := by
    unfold recording
    dsimp only
    rw [oracle_of_flag]
    rfl
  have unbound : Session.overLeaf.boundVars .leaf = [] := by
    simp [Session.boundVars, Equation.leaf, Equation.vars, Equation.atoms, Atom.vars,
      List.eraseDups_cons]
    rfl
  have asked : e.solveCalls (m.oracle flag) S.config.solver (Session.overLeaf.boundVars e)
      .overLeaf = [(.unary ⟨0⟩ (.bare ⟨0⟩), .overLeaf)] := by
    rw [built, unbound, Equation.solveCalls, Equation.leaf,
      Equation.solve_of_passing_filter recorded (v := ⟨0⟩)]
  have point : Point S .ready [] .overLeaf :=
    ((Point.start _ _).carried (.newUnit "") 0).carried (.addNode ⟨0⟩ ⟨0⟩ [] .empty .dummy) 0
  refine ⟨built, asked, ?_⟩
  obtain ⟨-, -, -, asks⟩ := host_equations_ask_rightly S [⟨0⟩] Constraint.leaf
  refine (asks .ready [] .overLeaf point 1 flag fun v mem => ?_).1 (.unary ⟨0⟩ (.bare ⟨0⟩), .overLeaf)
    (List.mem_append_left _ (asked ▸ List.mem_singleton_self _))
  obtain rfl := List.mem_singleton.1 mem
  exact congrArg Option.isSome (DynVars.get?_set DynVars.none ⟨0⟩ ⟨0⟩ (.bool true))

end Trellis
