import Trellis.Proofs.Session.Binding
import Trellis.Proofs.Session.Readings
import Trellis.Proofs.Session.Resolutions
import Trellis.Proofs.Session.Termination

/-! What asking does to a session. A lookup, a call or a solve is answered by evaluating, and
evaluation finds things out: it resolves references, remembers results, reports and binds
logic variables. None of this changes what the program is made of, provided that no body is
external code and no reference loads a unit. Variables are bound by solves only. That is said
here by taking this away from them: a reading of expressions in which solves do not write
where something would come of it never comes to it. -/
namespace Trellis
open Session

/-! ## Environments but for what has been resolved -/

/-- The reference as it was made. -/
def Reference.unsettled (r : Reference) : Reference := { r with state := .unresolved }

/-- The environment with all its references as they were made. -/
def Scope.unsettled (s : Scope) : Scope :=
  { s with references := s.references.map Reference.unsettled }

/-- The environments with all their references as they were made. -/
def EnvStore.unsettled (s : EnvStore) : EnvStore := ⟨s.scopes.map Scope.unsettled⟩

namespace EnvStore
variable {s t : EnvStore}

theorem unsettled_set_state (s : EnvStore) (env : EnvId) (index : Nat) (state : RefState) :
    (s.setState env index state).unsettled = s.unsettled := by
  have reference (r : Reference) : Reference.unsettled { r with state } = r.unsettled := rfl
  have scope (x : Scope) : Scope.unsettled { x with
      references := x.references.modify index ({ · with state }) } = x.unsettled :=
    congrArg (Scope.mk x.parent x.owner x.bindings)
      (map_modify_of_blind reference x.references index)
  exact congrArg EnvStore.mk (map_modify_of_blind scope s.scopes env.raw)

theorem reference?_unsettled (s : EnvStore) (env : EnvId) (index : Nat) :
    s.unsettled.reference? env index = (s.reference? env index).map Reference.unsettled := by
  rw [reference?_eq, reference?_eq]
  unfold scope? unsettled
  rw [Array.getElem?_map]
  cases s.scopes[env.raw]? with
  | none => rfl
  | some scope => exact Array.getElem?_map

theorem direct_of_unsettled (same : t.unsettled = s.unsettled) (direct : s.IsDirect) :
    t.IsDirect := by
  intro env index r held
  have there : t.unsettled.reference? env index = some r.unsettled := by
    rw [reference?_unsettled, held]
    rfl
  rw [same, reference?_unsettled] at there
  obtain ⟨old, before, eq⟩ := Option.map_eq_some_iff.1 there
  have thunk : old.thunk = r.thunk := (Reference.mk.inj eq).1
  exact thunk ▸ direct env index old before

end EnvStore

theorem DiagnosticBag.kept_prefix_report (b : DiagnosticBag) (d : Diagnostic) :
    b.kept.toList <+: (b.report d).kept.toList := by
  unfold report
  split
  · exact List.prefix_refl _
  · split
    · exact List.prefix_refl _
    · exact ⟨[d], (Array.toList_push).symm⟩

/-! ## What asking leaves alone -/

/-- Between two sessions questions were asked. The program is what it was, environments
included; references that waited may have been resolved, findings and results have been
added. -/
structure Session.Consulted (s t : Session) : Prop where
  nodes : t.tree.nodes = s.tree.nodes
  units : t.tree.units = s.tree.units
  slots : t.tree.varCount = s.tree.varCount
  scopes : t.envs.unsettled = s.envs.unsettled
  references : ∀ env index, t.envs.state? env index = s.envs.state? env index ∨
    s.envs.state? env index = some .unresolved ∧
      ∃ value, t.envs.state? env index = some (.resolved value)
  findings : s.bag.kept.toList <+: t.bag.kept.toList
  results : ∀ (key : MemoKey) (value : Value), s.memo.done[key]? = some value →
    t.memo.done[key]? = some value
  unitEnvs : t.unitEnvs = s.unitEnvs
  plans : t.plans = s.plans
  loader : t.loader = s.loader
  depth : t.depth = s.depth
  counter : t.counter = s.counter

namespace Session
variable {r s t : Session}

theorem consulted_refl (s : Session) : s.Consulted s :=
  ⟨rfl, rfl, rfl, rfl, fun _ _ => .inl rfl, List.prefix_refl _, fun _ _ => id, rfl, rfl, rfl, rfl,
    rfl⟩

theorem consulted_trans (first : r.Consulted s) (rest : s.Consulted t) : r.Consulted t where
  nodes := rest.nodes.trans first.nodes
  units := rest.units.trans first.units
  slots := rest.slots.trans first.slots
  scopes := rest.scopes.trans first.scopes
  references env index := by
    rcases rest.references env index with same | ⟨waited, resolved⟩
    · rw [same]
      exact first.references env index
    · rcases first.references env index with same | ⟨-, value, already⟩
      · exact .inr ⟨same ▸ waited, resolved⟩
      · rw [already] at waited
        cases waited
  findings := first.findings.trans rest.findings
  results key value known := rest.results key value (first.results key value known)
  unitEnvs := rest.unitEnvs.trans first.unitEnvs
  plans := rest.plans.trans first.plans
  loader := rest.loader.trans first.loader
  depth := rest.depth.trans first.depth
  counter := rest.counter.trans first.counter

theorem consulted_report (s : Session) (code : ErrorCode) (message : String)
    (location : Location) : s.Consulted (s.report code message location) :=
  { consulted_refl s with findings := s.bag.kept_prefix_report _ }

theorem consulted_memo (s : Session) (memo : Memo) (same : memo.done = s.memo.done) :
    s.Consulted { s with memo } :=
  { consulted_refl s with results := fun key value known => by rwa [← same] at known }

/-- To write the values of variables is to leave all the rest alone. -/
theorem consulted_assign (s : Session) (values : Assignment Entity) :
    s.Consulted (s.assign values) := by
  have frame : (s.assign values).tree.nodes = s.tree.nodes ∧
      (s.assign values).tree.units = s.tree.units ∧
      (s.assign values).tree.varCount = s.tree.varCount := by
    induction values generalizing s with
    | nil => exact ⟨rfl, rfl, rfl⟩
    | cons value rest ih =>
      obtain ⟨nodes, units, slots⟩ :=
        ih { s with tree := s.tree.setValue value.1 value.2 }
      exact ⟨nodes, units, slots.trans (Tree.var_count_set_value _ _ _)⟩
  exact { consulted_refl s with
    nodes := frame.1, units := frame.2.1, slots := frame.2.2 }

end Session

/-- Asking where references are direct leaves the program alone, and does not come to a tree
that is forbidden. -/
def Consults (forbidden : Tree → Bool) (s t : Session) : Prop :=
  s.envs.IsDirect → s.Consulted t ∧ (forbidden s.tree = false → forbidden t.tree = false)

section Consults
variable {forbidden : Tree → Bool} {r s t : Session}

theorem consults_of_tree (same : t.tree = s.tree) (frame : s.Consulted t) :
    Consults forbidden s t :=
  fun _ => ⟨frame, fun allowed => same ▸ allowed⟩

theorem consults_trans (first : Consults forbidden r s) (rest : Consults forbidden s t) :
    Consults forbidden r t := by
  intro direct
  obtain ⟨frame, allowed⟩ := first direct
  obtain ⟨frame', allowed'⟩ := rest (EnvStore.direct_of_unsettled frame.scopes direct)
  exact ⟨consulted_trans frame frame', fun start => allowed' (allowed start)⟩

instance : Track (Along (Consults forbidden)) where
  refl h := ⟨consults_of_tree rfl (consulted_refl h.now), List.suffix_refl _⟩
  trans first rest := ⟨consults_trans first.1 rest.1, first.2.trans rest.2⟩

end Consults

/-! ## Between two changes -/

section Brackets
variable {forbidden : Tree → Bool}

theorem deeper_consults {act : EvalM Value} (limit : Nat)
    (inside : ∀ s, Consults forbidden s (act s).2) (s : Session) :
    Consults forbidden s (EvalM.deeper limit act s).2 := by
  by_cases within : s.Within limit
  · rw [EvalM.deeper_eq within]
    intro direct
    obtain ⟨frame, allowed⟩ := inside s.deeper direct
    exact ⟨{ frame with depth := congrArg (· - 1) frame.depth }, allowed⟩
  · unfold EvalM.deeper
    rw [if_pos (by unfold Session.Within at within; omega)]
    exact consults_of_tree rfl (consulted_refl s)

/-- A result that is remembered was not known before. -/
theorem memoized_consults {act : EvalM Value} (name : String) (key : MemoKey)
    (inside : ∀ s, Consults forbidden s (act s).2) (s : Session) :
    Consults forbidden s (EvalM.memoized name key act s).2 := by
  unfold EvalM.memoized
  split
  · exact consults_of_tree rfl (consulted_memo s s.memo.hit rfl)
  · next unknown =>
    split
    · exact consults_of_tree rfl (consulted_refl s)
    · intro direct
      obtain ⟨frame, allowed⟩ := inside { s with memo := s.memo.start key } direct
      unfold SessionM.bracket
      rcases ran : act { s with memo := s.memo.start key } with ⟨halt | value, t⟩ <;>
        rw [ran] at frame allowed
      · exact ⟨{ frame with results := frame.results }, allowed⟩
      · refine ⟨{ frame with results := fun other known held => ?_ }, allowed⟩
        have old : key ≠ other := by
          rintro rfl
          rw [unknown] at held
          cases held
        simpa [Memo.finish, Std.HashMap.getElem?_insert, old] using frame.results other known held

section Settling
variable {s t : Session} {env : EnvId} {index : Nat} {reference : Reference}
  (held : s.envs.reference? env index = some reference)
  (unresolved : reference.state = .unresolved)
include held unresolved

/-- A reference that waited has been marked meanwhile. Where it is resolved then, or waits
as before, the mark is not seen. -/
theorem consulted_settle (frame : (s.mark env index).Consulted t) {state : RefState}
    (ended : state = .unresolved ∨ ∃ value, state = .resolved value) :
    s.Consulted (t.settle env index state) := by
  have waited : s.envs.state? env index = some .unresolved := by
    rw [EnvStore.state?, held, Option.map_some, unresolved]
  have marked (e : EnvId) (i : Nat) := EnvStore.state?_setState held .resolving e i
  have still : t.envs.state? env index = some .resolving := by
    have before : (s.mark env index).envs.state? env index = some .resolving := by
      rw [Session.mark, marked, if_pos rfl]
    rcases frame.references env index with same | ⟨open_, -⟩
    · rw [same, before]
    · rw [before] at open_
      cases open_
  obtain ⟨_, there, -⟩ := Option.map_eq_some_iff.1 still
  refine { frame with scopes := ?_, references := fun e i => ?_ }
  · rw [Session.settle, EnvStore.unsettled_set_state, frame.scopes, Session.mark,
      EnvStore.unsettled_set_state]
  · have after : (t.settle env index state).envs.state? e i = _ :=
      EnvStore.state?_setState there state e i
    by_cases here : (e, i) = (env, index)
    · obtain ⟨rfl, rfl⟩ := Prod.mk.inj here
      rw [after, if_pos here]
      rcases ended with rfl | ⟨value, rfl⟩
      · exact .inl waited.symm
      · exact .inr ⟨waited, value, rfl⟩
    · rw [after, if_neg here]
      have others := frame.references e i
      rwa [Session.mark, marked, if_neg here] at others

theorem resolving_consults {act : EvalM EnvValue}
    (inside : ∀ s, Consults forbidden s (act s).2) :
    Consults forbidden s (EvalM.resolving env index act s).2 := by
  intro direct
  obtain ⟨frame, allowed⟩ :=
    inside (s.mark env index) (EnvStore.direct_set_state direct env index _)
  rw [EvalM.resolving_eq]
  rcases ran : act (s.mark env index) with ⟨halt | value, t⟩ <;> rw [ran] at frame allowed
  · exact ⟨consulted_settle held unresolved frame (.inl rfl), allowed⟩
  · exact ⟨consulted_settle held unresolved frame (.inr ⟨value, rfl⟩), allowed⟩

end Settling

end Brackets

/-! ## Solves that refrain from writing -/

namespace EvalM

/-- Solve, but write nothing where that would lead to a forbidden tree. What is answered
there is left open. -/
def solveRefraining (S : Setting) (forbidden : Tree → Bool)
    (instead : Except (Interrupt PropertyError) Bool) (m : Machine) (e : Equation Entity)
    (dynVars : DynVars) : EvalM Bool := fun s =>
  match asked S m e dynVars s with
  | (.ok (.solved values), t) =>
    if forbidden (t.assign values).tree then (instead, t) else (.ok true, t.assign values)
  | (.ok (.failed why), t) => (.ok false, t.reportInconsistency why)
  | (.error halt, t) => (.error halt.toInterrupt, t)

theorem solve_refraining_from_nothing (S : Setting)
    (instead : Except (Interrupt PropertyError) Bool) (m : Machine) :
    solveRefraining S (fun _ => false) instead m = EvalM.solve S m := by
  funext e dynVars s
  rw [solve_eq]
  unfold solveRefraining
  rcases asked S m e dynVars s with ⟨halt | values | why, t⟩ <;> rfl

end EvalM

/-- Evaluation in which solves refrain from writing. -/
def Handling.refraining (S : Setting) (forbidden : Tree → Bool)
    (instead : Except (Interrupt PropertyError) Bool) (m : Machine) : Handling :=
  { Handling.plain S m with
    solve := fun e => do
      let dynVars ← FrameM.read (·.dynVars)
      FrameM.session (EvalM.solveRefraining S forbidden instead m e dynVars) }

/-- Where nothing is forbidden, the machine is the usual one. -/
theorem reading_refraining_from_nothing (S : Setting)
    (instead : Except (Interrupt PropertyError) Bool) (depth : Nat) :
    Machine.reading S (.refraining S (fun _ => false) instead) depth = .upTo S depth := by
  have plain : Handling.refraining S (fun _ => false) instead = Handling.plain S := by
    funext m
    unfold Handling.refraining
    simp only [EvalM.solve_refraining_from_nothing]
    rfl
  rw [plain, reading_plain]

/-! ## What the activities do -/

section Activities
open EvalM SessionM
variable {S : Setting} {forbidden : Tree → Bool}
  {instead : Except (Interrupt PropertyError) Bool} {m : Machine}
  (machine : m.Moves (Along (Consults forbidden)))
include machine

theorem solve_refraining_consults (e : Equation Entity) (dynVars : DynVars) (s : Session) :
    Consults forbidden s (solveRefraining S forbidden instead m e dynVars s).2 := by
  obtain ⟨_, there, -⟩ := asked_moves machine S e dynVars ⟨s, []⟩
  unfold solveRefraining
  rcases ran : asked S m e dynVars s with ⟨halt | values | why, t⟩ <;> rw [ran] at there
  · exact there
  · dsimp only
    split
    · exact there
    · next allowed =>
      exact consults_trans there fun _ =>
        ⟨consulted_assign t values, fun _ => Bool.eq_false_iff.2 allowed⟩
  · exact consults_trans there (consults_of_tree rfl (consulted_report _ _ _ _))

theorem interpret_consults (around : List (Nat × Value)) (e : Expr) :
    FrameM.Moves (Along (Consults forbidden))
      (interpret (.refraining S forbidden instead m) S m around e) := by
  have entered (s : Session) (populated : List (NodeId × EnvId)) (e : Equation Entity) :
      Along (Consults forbidden) ⟨s, populated⟩
        ⟨{ s with pool := (s.pool.addEquation e).2 }, populated⟩ :=
    ⟨consults_of_tree rfl { consulted_refl s with }, List.suffix_refl _⟩
  have rel := FrameM.ends_composition S (Machine.ends_of_moves machine) entered m
  exact interpret_related (related_of_solve rel fun e =>
    FrameM.ends_bind (FrameM.ends_read _) fun dynVars => FrameM.ends_session <|
      along_moves_iff.2 (solve_refraining_consults machine e dynVars)) around e

theorem body_read_consults (internal : S.language.IsInternal) (kind : KindId) (index : Nat)
    (key : MemoKey) : Moves (Along (Consults forbidden))
      (bodyRead S m (.refraining S forbidden instead m) kind index key) := by
  unfold bodyRead
  cases found : S.language.implementation? index with
  | none => exact moves_fail _
  | some i =>
    dsimp only
    cases body : i.body with
    | expr e => exact FrameM.moves_run_in _ (interpret_consults machine [] e)
    | external run => exact (internal index i run found body).elim
    | _ => unfold runBody; rw [body]; exact moves_fail _

omit machine in
theorem answer_by_consults (info : PropertyInfo) (key : MemoKey) {body : EvalM Value}
    (inside : Moves (Along (Consults forbidden)) body) :
    Moves (Along (Consults forbidden)) (answerBy S info key body) := by
  have computed : Moves (Along (Consults forbidden)) (computeBy S info body) := by
    refine moves_bind (along_moves_iff.2 (deeper_consults _ (along_moves_iff.1 inside)))
      fun value => moves_bind (moves_still fun s => ?_) fun _ => moves_pure _
    rw [expect_type_eq]
    split <;> rfl
  unfold answerBy
  split
  · exact along_moves_iff.2 (memoized_consults _ _ (along_moves_iff.1 computed))
  · exact computed

omit machine in
theorem call_by_consults {body : KindId → Nat → MemoKey → EvalM Value}
    (bodies : ∀ kind index key, Moves (Along (Consults forbidden)) (body kind index key))
    (entity : Entity) (prop : PropId) (args : List Value) (dynVars : DynVars) :
    Moves (Along (Consults forbidden)) (callBy S body entity prop args dynVars) := by
  intro h
  rcases call_by_cases S body entity prop args dynVars h.now with ⟨e, ran⟩ | found
  · exact ⟨h.populated, by rw [ran]; exact Track.refl h⟩
  · obtain ⟨declared, node, info, index, -, ran⟩ := found
    rw [ran, map_error_state]
    exact answer_by_consults info _ (bodies _ _ _) h

theorem force_consults {thunk : EnvThunk} (direct : thunk.IsDirect) :
    Moves (Along (Consults forbidden)) (force S m thunk) := by
  cases thunk with
  | custom script => exact direct.elim
  | source source =>
    cases source with
    | unit name => exact direct.elim
    | env value => exact moves_pure _
    | property entity prop =>
      refine moves_bind (machine.call _ _ _ _) fun v => moves_map_error _ ?_
      cases v <;> first | exact moves_pure _ | exact moves_fail _

theorem resolve_with_consults (env : EnvId) (index : Nat) :
    Moves (Along (Consults forbidden)) (resolveWith S m env index) := by
  refine resolve_with_moves_of (fun s env index populated => ?_)
    (fun {s env index reference} held unresolved populated => ?_) env index
  · exact ⟨consults_of_tree rfl (consulted_report _ _ _ _), List.suffix_refl _⟩
  · refine ⟨populated, fun direct => ?_, List.suffix_refl _⟩
    have forced := force_consults (S := S) machine (direct env index reference held)
    exact resolving_consults held unresolved (along_moves_iff.1 forced) direct

end Activities

/-- However deeply activities are nested, they leave the program alone. -/
theorem reading_consults {S : Setting} (internal : S.language.IsInternal)
    (forbidden : Tree → Bool) (instead : Except (Interrupt PropertyError) Bool) (depth : Nat) :
    (Machine.reading S (.refraining S forbidden instead) depth).Moves
      (Along (Consults forbidden)) := by
  induction depth with
  | zero => exact Machine.moves_exhausted
  | succ depth ih =>
    exact ⟨call_by_consults (body_read_consults ih internal), EvalM.search_with_moves ih,
      resolve_with_consults ih⟩

/-! ## Inquiries -/

/-- What can be asked of a session. -/
inductive Inquiry where
  | call (entity : Entity) (prop : PropId) (args : List Value) (dynVars : DynVars)
  | lookup (env : EnvValue) (symbol : Symbol) (require : Metadata)
  | lookupFirst (env : EnvValue) (symbol : Symbol) (require : Metadata)
  | resolve (env : EnvId) (index : Nat)
  | solve (e : Equation Entity) (dynVars : DynVars)
  | satisfiable (e : Equation Entity) (dynVars : DynVars)

/-- The session after that, whether there was an answer or not. How a solve is carried out is
left open. -/
def Inquiry.run (S : Setting) (m : Machine) (solver : Equation Entity → DynVars → EvalM Bool)
    (s : Session) : Inquiry → Session
  | call entity prop args dynVars => (m.call entity prop args dynVars s).2
  | lookup env symbol require => (m.lookup env symbol require s).2
  | lookupFirst env symbol require => (m.lookupFirst env symbol require s).2
  | resolve env index => (m.resolve env index s).2
  | solve e dynVars => (solver e dynVars s).2
  | satisfiable e dynVars => (EvalM.satisfiable S m e dynVars s).2

theorem inquiry_consults {S : Setting} {forbidden : Tree → Bool} {m : Machine}
    (machine : m.Moves (Along (Consults forbidden)))
    {solver : Equation Entity → DynVars → EvalM Bool}
    (solved : ∀ e dynVars s, Consults forbidden s (solver e dynVars s).2) (q : Inquiry)
    (s : Session) : Consults forbidden s (q.run S m solver s) := by
  cases q with
  | call entity prop args dynVars => exact along_moves_iff.1 (machine.call _ _ _ _) s
  | lookup env symbol require => exact along_moves_iff.1 (machine.lookup _ _ _) s
  | lookupFirst env symbol require => exact along_moves_iff.1 (machine.lookup_first _ _ _) s
  | resolve env index => exact along_moves_iff.1 (machine.resolve _ _) s
  | solve e dynVars => exact solved e dynVars s
  | satisfiable e dynVars =>
    exact along_moves_iff.1 (EvalM.satisfiable_moves machine S e dynVars) s

/-- **Asking leaves the program alone.** Where all bodies are expressions and all references
are to environments that are given or the values of properties, a session in which something
was asked has the same program, whether there was an answer or not. References can have been
resolved that were not, and findings and remembered results can have been added. As to logic
variables, what solves that return true write is all that happens to them: if these do not
write where that would lead to a forbidden tree, and whatever they then answer, no forbidden
tree is come to. Where nothing is forbidden, that is evaluation as it is. -/
theorem asking_leaves_program {S : Setting} (internal : S.language.IsInternal) {s : Session}
    (direct : s.envs.IsDirect) (q : Inquiry) (depth : Nat) :
    s.Consulted (q.run S (.upTo S depth) (EvalM.solve S (.upTo S depth)) s) ∧
    ∀ (forbidden : Tree → Bool) (instead : Except (Interrupt PropertyError) Bool),
      let m := Machine.reading S (.refraining S forbidden instead) depth
      let solver := EvalM.solveRefraining S forbidden instead m
      (forbidden s.tree = false → forbidden (q.run S m solver s).tree = false) ∧
      (forbidden = (fun _ => false) → m = .upTo S depth ∧ solver = EvalM.solve S m) := by
  have consults (forbidden : Tree → Bool) (instead : Except (Interrupt PropertyError) Bool) :
      let m := Machine.reading S (.refraining S forbidden instead) depth
      Consults forbidden s (q.run S m (EvalM.solveRefraining S forbidden instead m) s) :=
    have machine := reading_consults internal forbidden instead depth
    inquiry_consults machine (solve_refraining_consults machine) q s
  refine ⟨?_, fun forbidden instead => ⟨(consults forbidden instead direct).2, ?_⟩⟩
  · have frame := (consults (fun _ => false) (.ok true) direct).1
    rwa [reading_refraining_from_nothing, EvalM.solve_refraining_from_nothing] at frame
  · rintro rfl
    exact ⟨reading_refraining_from_nothing S instead depth,
      EvalM.solve_refraining_from_nothing S instead _⟩

/-- A reference is resolved when that is asked for. A leaf gets a value when a solve asks a
property that solves in turn, and not where the solves refrain from giving it that one. -/
theorem asking_leaves_program_of_solved :
    (let S : Setting := ⟨.probing ⟨1⟩ ⟨1⟩ ⟨0⟩ #[], .standard⟩
      let m := Machine.upTo S 1
      let s := [Operation.request (.createEnv none none),
        .refer ⟨1⟩ (.source (.env (.plain ⟨1⟩))) .none].foldl
        (Operation.run S m) (.new (.new none) .standard .ready)
      let t := (Inquiry.resolve ⟨1⟩ 0).run S m (EvalM.solve S m) s
      S.language.IsInternal ∧ s.envs.IsDirect ∧ s.Consulted t ∧
        s.envs.state? ⟨1⟩ 0 = some .unresolved ∧
        t.envs.state? ⟨1⟩ 0 = some (.resolved (.plain ⟨1⟩))) ∧
    let S := Setting.settling
    let m := Machine.upTo S 2
    let s := Session.twoLeaves S
    let q := Inquiry.solve .askingLeaf .none
    let t := q.run S m (EvalM.solve S m) s
    let forbidden (tree : Tree) : Bool := decide (tree.value ⟨0⟩ = some (.bare ⟨0⟩))
    let m' := Machine.reading S (.refraining S forbidden (.ok true)) 2
    S.language.IsInternal ∧ s.envs.IsDirect ∧ s.Consulted t ∧ forbidden s.tree = false ∧
      forbidden t.tree = true ∧
      forbidden (q.run S m' (EvalM.solveRefraining S forbidden (.ok true) m') s).tree = false := by
  constructor
  · intro S m s t
    have internal : S.language.IsInternal := internal_of_plain plain_probing
    have direct : s.envs.IsDirect := by
      rintro ⟨_ | _ | env⟩ (_ | index) r held <;> cases held
      trivial
    have held : s.envs.reference? ⟨1⟩ 0 =
        some ⟨.source (.env (.plain ⟨1⟩)), .none, .unresolved⟩ := rfl
    have resolved : t.envs.state? ⟨1⟩ 0 = some (.resolved (.plain ⟨1⟩)) := by
      have ended := resolve_with_given (S := S) (m := .upTo S 0) held rfl rfl
      show (EvalM.resolveWith S (.upTo S 0) ⟨1⟩ 0 s).2.envs.state? ⟨1⟩ 0 = _
      rw [ended]
      rfl
    obtain ⟨frame, -⟩ := asking_leaves_program internal direct (.resolve ⟨1⟩ 0) 1
    exact ⟨internal, direct, frame, rfl, resolved⟩
  · intro S m s q t forbidden m'
    have internal : S.language.IsInternal := by
      intro index i run held
      rcases index with _ | index
      · cases held; nofun
      · simp [S, Setting.leafAsking, Definition.implementation?] at held
    have direct : s.envs.IsDirect := by
      rintro ⟨_ | env⟩ (_ | index) r held <;> cases held
    have unset : forbidden s.tree = false := rfl
    have written : t = Session.settled.shallower.assign [(⟨0⟩, .bare ⟨0⟩)] := by
      show (EvalM.solve S m .askingLeaf .none s).2 = _
      rw [EvalM.solve_eq, asked_settles]
    obtain ⟨frame, refrained⟩ := asking_leaves_program internal direct q 2
    exact ⟨internal, direct, frame, unset, by rw [written]; rfl,
      (refrained forbidden (.ok true)).1 unset⟩

end Trellis
