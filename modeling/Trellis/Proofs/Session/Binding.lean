import Mathlib
import Trellis.Proofs.Language.Declarations
import Trellis.Proofs.Session.Marks
import Trellis.Proofs.Solver.Asked
import Trellis.Proofs.Solver.Solutions

/-! Values of logic variables. Nothing but a solve binds variables, and a solve starts
from the values there are; so whatever a variable holds when an operation is begun it
holds when the operation has ended. A solve reads the values before it puts its
questions, though, and what the questions bind meanwhile it does not see. -/
namespace Trellis
open Solver FrameM

/-! ## Writing values -/

@[simp] theorem Tree.var_count_set_value (t : Tree) (v : VarId) (x : Entity) :
    (t.setValue v x).varCount = t.varCount := by
  simp [varCount, setValue]

theorem Tree.value_set_value (t : Tree) (v : VarId) (x : Entity) (w : VarId) :
    (t.setValue v x).value w =
      if v = w ∧ w.raw < t.varCount then some x else t.value w := by
  unfold value setValue varCount
  rw [Array.getElem?_modify]
  by_cases same : v = w
  · subst same
    by_cases slot : v.raw < t.values.size
    · simp [slot]
    · simp [slot]
  · have different : v.raw ≠ w.raw := fun eq => same (by cases v; cases w; simp_all)
    simp [same, different]

/-- Where there is a slot for the variable, the value that is assigned is the one it has. -/
theorem Tree.value_assign {values : Assignment Entity} (nodup : (values.map (·.1)).Nodup)
    (t : Tree) (v : VarId) :
    (values.foldl (fun t (v, x) => t.setValue v x) t).value v =
      if v.raw < t.varCount then (values.valuation v).or (t.value v) else t.value v := by
  induction values generalizing t with
  | nil => simp [Assignment.valuation]
  | cons value rest ih =>
    obtain ⟨w, x⟩ := value
    rw [List.map_cons, List.nodup_cons] at nodup
    rw [List.foldl_cons, ih nodup.2, var_count_set_value, value_set_value]
    by_cases slot : v.raw < t.varCount
    · by_cases same : w = v
      · subst same
        have free : List.lookup w rest = none := by
          rw [List.lookup_eq_none_iff]
          intro p mem
          exact bne_iff_ne.2 fun eq => nodup.1 (List.mem_map.2 ⟨p, mem, eq.symm⟩)
        simp [slot, free, Assignment.valuation]
      · have other : (v == w) = false := beq_eq_false_iff_ne.2 fun eq => same eq.symm
        simp [slot, same, Assignment.valuation, List.lookup_cons, other]
    · simp [slot]

/-- A solve starts from the values that the variables of its equation have. -/
theorem bound_value_of_value {s : Session} {e : Equation Entity} (mem : v ∈ e.vars)
    (value : s.tree.value v = some x) : boundValue (s.boundVars e) v = some x := by
  have listed : (v, x) ∈ s.boundVars e := List.mem_filterMap.2 ⟨v, mem, by rw [value]; rfl⟩
  obtain ⟨y, bound⟩ := bound_value_of_mem listed
  obtain ⟨w, -, held⟩ := List.mem_filterMap.1 (mem_of_bound_value bound)
  obtain ⟨z, found, same⟩ := Option.map_eq_some_iff.1 held
  cases same
  rw [bound, ← found, value]

/-! ## Sessions with the same values -/

theorem Tree.add_node_values {s t : Tree} (made : s.addNode new = .ok (n, t)) :
    t.values = s.values ++ Array.replicate new.varCount none := by
  unfold addNode at made
  split at made
  · cases made
  · split at made
    · cases made
    · cases made
      rfl

theorem Tree.set_envs_values {s t : Tree} (given : s.setEnvs n envs = .ok t) :
    t.values = s.values := by
  simp only [setEnvs, Tree.node, bind, Except.bind, pure, Except.pure, throw, throwThe,
    MonadExceptOf.throw] at given
  split at given
  · cases given
  · split at given <;> cases given
    rfl

/-- No variable has another value, or one more or less. -/
def Session.SameValues (s t : Session) : Prop := ∀ v, t.tree.value v = s.tree.value v

/-- Every variable that has a value keeps it. -/
def Session.Retains (s t : Session) : Prop := ∀ v x, s.tree.value v = some x → t.tree.value v = some x

theorem same_values_of_slots {s t : Session} (slots : t.tree.values = s.tree.values) :
    s.SameValues t := by
  intro v
  unfold Tree.value
  rw [slots]

/-- New variables have no values yet. -/
theorem same_values_add_node {s : Session} (made : s.tree.addNode new = .ok (n, tree)) :
    s.SameValues { s with tree } := by
  intro v
  unfold Tree.value
  dsimp only
  rw [Tree.add_node_values made, Array.getElem?_append, Array.getElem?_replicate]
  by_cases old : v.raw < s.tree.values.size
  · rw [if_pos old]
  · rw [if_neg old, Array.getElem?_eq_none (Nat.le_of_not_lt old)]
    split <;> rfl

theorem same_values_set_root {s t : Session} (given : s.setRoot u root = .ok t) :
    s.SameValues t := by
  obtain ⟨tree, rooted, rfl⟩ := Session.set_root_ok given
  obtain ⟨-, -, -, -, -, rfl⟩ := Tree.set_root_ok rooted
  exact same_values_of_slots rfl

theorem same_values_open_top (s : Session) (root : NodeId) (unit : UnitId) :
    s.SameValues (s.openTop root unit).2 := by
  obtain ⟨unitEnvs, eq⟩ := open_top_eq s root unit
  rw [eq]
  exact same_values_of_slots rfl

theorem retains_of_same {s t : Session} (same : s.SameValues t) : s.Retains t :=
  fun v _ value => (same v).trans value

theorem logic_value_ok_iff {s : Session} {v : VarId} {x : Entity} :
    s.logicValue v = .ok x ↔ s.tree.value v = some x := by
  unfold Session.logicValue
  cases s.tree.value v <;> simp

/-! ## Solves -/

/-- What is found with the answers of a fixed function solves a choice by these answers. -/
theorem Solver.solution_of_corrected [DecidableEq V] [Hashable V] {oracle : Oracle σ ε V}
    {holds : Query V → Bool} {config : SolverConfig} {e : Equation V} {bound : List (VarId × V)}
    {values : Assignment V}
    (found : (e.solve (corrected holds oracle) config bound world).1 = .ok (.solved values)) :
    ∃ choice ∈ e.choices, values.map (·.1) = e.varsOf choice ∧
      Solves holds bound choice values.valuation := by
  have computed := Equation.solve_computes (reliable_of_fixed (answer_of_corrected holds oracle))
    config (.inr trivial) e bound world
  rw [found] at computed
  exact solution_of_first_answer computed.symm

/-- Whatever the oracle does, what a solve finds assigns each variable of some choice once
and keeps to the values bound beforehand. -/
theorem Solver.solved_agrees [DecidableEq V] [Hashable V] {oracle : Oracle σ ε V}
    {config : SolverConfig} {e : Equation V} {bound : List (VarId × V)} {values : Assignment V}
    (solved : (e.solve oracle config bound world).1 = .ok (.solved values)) :
    (values.map (·.1)).Nodup ∧ ∀ v x, values.valuation v = some x →
      v ∈ e.vars ∧ ∀ y, boundValue bound v = some y → x = y := by
  obtain ⟨holds, same⟩ := e.solve_as_fixed oracle config bound world
  rw [← same] at solved
  obtain ⟨choice, chosen, names, solves⟩ := solution_of_corrected solved
  refine ⟨names ▸ e.nodup_vars_of choice, fun v x value => ⟨?_, fun y => solves.agrees v x y value⟩⟩
  obtain ⟨before, after, parts, -⟩ := List.lookup_eq_some_iff.1 value
  have named : v ∈ e.varsOf choice := by
    rw [← names, parts]
    simp
  exact (List.mem_filter.1 named).1

namespace EvalM

/-- The session in which all questions of a solve are answered, with what was found. -/
def asked (S : Setting) (m : Machine) (e : Equation Entity) (dynVars : DynVars) (s : Session) :
    Except (Halt (Interrupt PropertyError)) (Outcome Entity) × Session :=
  e.solve (m.oracle dynVars) S.config.solver (s.boundVars e) s

theorem solve_eq (S : Setting) (m : Machine) (e : Equation Entity) (dynVars : DynVars)
    (s : Session) : EvalM.solve S m e dynVars s = match asked S m e dynVars s with
      | (.ok (.solved values), t) => (.ok true, t.assign values)
      | (.ok (.failed why), t) => (.ok false, t.reportInconsistency why)
      | (.error halt, t) => (.error halt.toInterrupt, t) := rfl

/-- The questions of a solve move along if calls do. -/
theorem asked_moves {R : History → History → Prop} [Track R] {m : Machine} (machine : m.Moves R)
    (S : Setting) (e : Equation Entity) (dynVars : DynVars) (h : History) :
    ∃ populated, R h ⟨(asked S m e dynVars h.now).2, populated⟩ :=
  e.solve_keeps (fun q world => oracle_leads machine dynVars h q world) S.config.solver
    (h.now.boundVars e) ⟨h.populated, Track.refl h⟩

/-- What was found is written wherever there is a slot. -/
theorem value_assigned (found : asked S m e dynVars s = (.ok (.solved values), t)) (v : VarId) :
    (t.assign values).tree.value v =
      if v.raw < t.tree.varCount then (values.valuation v).or (t.tree.value v)
      else t.tree.value v := by
  have solved : (asked S m e dynVars s).1 = .ok (.solved values) := by rw [found]
  exact Tree.value_assign (solved_agrees solved).1 t.tree v

/-- A variable that the solve read with its value is not written another one. -/
theorem kept_of_read (found : asked S m e dynVars s = (.ok (.solved values), t))
    (held : t.tree.value v = some x) (read : v ∈ e.vars → s.tree.value v = some x) :
    (t.assign values).tree.value v = some x := by
  have solved : (asked S m e dynVars s).1 = .ok (.solved values) := by rw [found]
  rw [value_assigned found, held]
  split
  · cases assigned : values.valuation v with
    | none => rfl
    | some y =>
      obtain ⟨mem, keeps⟩ := (solved_agrees solved).2 v y assigned
      rw [keeps x (bound_value_of_value mem (read mem))]
      rfl
  · rfl

/-- A solve keeps the values that it started from if its questions do. -/
theorem solve_retains (S : Setting) (m : Machine) (e : Equation Entity) (dynVars : DynVars)
    (s : Session) (kept : s.Retains (asked S m e dynVars s).2) :
    s.Retains (EvalM.solve S m e dynVars s).2 := by
  intro v x bound
  have held := kept v x bound
  rw [solve_eq]
  rcases ran : asked S m e dynVars s with ⟨halt | outcome, t⟩ <;> rw [ran] at held
  · exact held
  · cases outcome with
    | failed why => exact held
    | solved values => exact kept_of_read ran held fun _ => bound

end EvalM

/-! ## Operations -/

theorem along_of_same {s t : Session} {before after : List (NodeId × EnvId)}
    (same : s.SameValues t) (grown : before <:+ after) :
    Along Session.Retains ⟨s, before⟩ ⟨t, after⟩ :=
  ⟨retains_of_same same, grown⟩

theorem along_of_slots {s t : Session} (slots : t.tree.values = s.tree.values)
    (populated : List (NodeId × EnvId)) : Along Session.Retains ⟨s, populated⟩ ⟨t, populated⟩ :=
  along_of_same (same_values_of_slots slots) (List.suffix_refl _)

theorem along_of_aside {s t : Session} (populated : List (NodeId × EnvId)) (step : Aside s t) :
    Along Session.Retains ⟨s, populated⟩ ⟨t, populated⟩ :=
  along_of_slots (congrArg Tree.values (aside_frame step).1) populated

instance : Track (Along Session.Retains) where
  refl _ := along_of_slots rfl _
  trans first rest :=
    ⟨fun v x value => rest.1 v x (first.1 v x value), first.2.trans rest.2⟩

/-- The questions of a solve keep the values, if calls do. -/
theorem EvalM.asked_retains {m : Machine} (machine : m.Moves (Along Session.Retains)) (S : Setting)
    (e : Equation Entity) (dynVars : DynVars) (s : Session) :
    s.Retains (asked S m e dynVars s).2 :=
  (asked_moves machine S e dynVars ⟨s, []⟩).choose_spec.1

instance : Makes (Along Session.Retains) where
  interned _ _ _ := along_of_slots rfl _
  node _ _ _ _ _ made := along_of_same (same_values_add_node made) (List.suffix_refl _)

instance : Populates (Along Session.Retains) where
  recorded moved := moved.2
  equation _ _ _ := along_of_slots rfl _
  solved S m e dynVars machine := along_moves_iff.2 fun s =>
    EvalM.solve_retains S m e dynVars s (EvalM.asked_retains machine S e dynVars s)
  reported _ _ _ _ _ := along_of_slots rfl _
  created _ _ _ _ := along_of_slots rfl _
  bound _ _ _ _ _ _ := along_of_slots rfl _
  referred _ _ _ _ _ := along_of_slots rfl _
  opened s _ root node _ _ _ :=
    along_of_same (same_values_open_top s root node.unit) (List.suffix_refl _)

instance : Remembers S (Along Session.Retains) where
  unit _ _ _ _ _ := along_of_slots rfl _
  carried s _ u _ plan _ := carry_out_makes s u plan
  rooted _ _ _ _ _ given := along_of_same (same_values_set_root given) (List.suffix_refl _)
  counted _ _ _ := along_of_slots rfl _
  deeper limit inside := EvalM.deeper_moves (fun p step _ => along_of_aside p step) limit inside
  loading inside h _ := EvalM.loading_moves (fun p step _ => along_of_aside p step) inside h
  resolving inside h env index _ _ _ :=
    EvalM.resolving_moves env index (fun _ p _ => along_of_slots rfl p) inside h
  memoized name key inside := EvalM.memoized_moves (fun p step _ => along_of_aside p step) name key inside

instance : Hosts S (Along Session.Retains) where
  begun _ _ _ := along_of_slots rfl _
  registered _ _ _ _ := along_of_slots rfl _

instance (S : Setting) (m : Machine) : Fills S m (Along Session.Retains) where
  filled _ _ _ _ _ _ _ _ _ _ given :=
    along_of_same (same_values_of_slots (Tree.set_envs_values given)) (List.suffix_cons _ _)

/-- Whatever a host or external code asks for, every variable keeps its value. -/
theorem operation_retains (S : Setting) (depth : Nat) (o : Operation) (s : Session) :
    s.Retains (o.run S (.upTo S depth) s) := by
  have taken : Along Session.Retains ⟨s, []⟩ ⟨{ s with bag := s.bag.take.2 }, []⟩ :=
    along_of_slots rfl []
  obtain ⟨_, retains, _⟩ :=
    operation_moves (S := S) (machine_moves depth) o ⟨s, []⟩ fun _ => taken
  exact retains

/-! ## Moments of a run -/

/-- A solve that has been begun and has not ended. -/
structure Underway where
  equation : Equation Entity
  dynVars : DynVars
  /-- The session whose values the solve started from. -/
  begun : Session

/-- A moment of a run: the session, and the solves that are underway, the innermost
first. -/
structure Moment where
  underway : List Underway
  now : Session

/-- What can happen at a moment. What a solve does on the way is put together from
such steps as well: its questions are calls. -/
inductive Moment.Step (S : Setting) : Moment → Moment → Prop
  | carried (o : Operation) (depth : Nat) : Step S ⟨us, s⟩ ⟨us, o.run S (.upTo S depth) s⟩
  /-- Anything happens that leaves the values of variables alone. -/
  | changed (same : s.SameValues t) : Step S ⟨us, s⟩ ⟨us, t⟩
  | begun (e : Equation Entity) (dynVars : DynVars) : Step S ⟨us, s⟩ ⟨⟨e, dynVars, s⟩ :: us, s⟩
  /-- All questions are answered, and what was found is written. -/
  | solved (found : EvalM.asked S (.upTo S depth) u.equation u.dynVars u.begun =
      (.ok (.solved values), t)) : Step S ⟨u :: us, t⟩ ⟨us, t.assign values⟩
  | unsolved : Step S ⟨u :: us, t⟩ ⟨us, t⟩

/-- The moments that follow a moment. -/
abbrev Moment.Later (S : Setting) : Moment → Moment → Prop := Relation.ReflTransGen (Moment.Step S)

/-- A variable has a value, and no solve is underway that started without it. -/
structure Moment.Settled (v : VarId) (x : Entity) (m : Moment) : Prop where
  held : m.now.logicValue v = .ok x
  read : ∀ u ∈ m.underway, v ∈ u.equation.vars → u.begun.logicValue v = .ok x

theorem settled_step (step : Moment.Step S m n) (settled : m.Settled v x) : n.Settled v x := by
  obtain ⟨held, read⟩ := settled
  rw [logic_value_ok_iff] at held
  cases step with
  | carried o depth =>
    exact ⟨logic_value_ok_iff.2 (operation_retains S depth o _ v x held), read⟩
  | changed same => exact ⟨logic_value_ok_iff.2 (retains_of_same same v x held), read⟩
  | begun e dynVars =>
    refine ⟨logic_value_ok_iff.2 held, fun u mem mentioned => ?_⟩
    rcases List.mem_cons.1 mem with rfl | earlier
    · exact logic_value_ok_iff.2 held
    · exact read u earlier mentioned
  | unsolved =>
    exact ⟨logic_value_ok_iff.2 held, fun u mem => read u (List.mem_cons_of_mem _ mem)⟩
  | solved found =>
    refine ⟨logic_value_ok_iff.2 ?_, fun u mem => read u (List.mem_cons_of_mem _ mem)⟩
    exact EvalM.kept_of_read found held fun mem =>
      logic_value_ok_iff.1 (read _ List.mem_cons_self mem)

theorem settled_later (later : Moment.Later S m n) (settled : m.Settled v x) : n.Settled v x := by
  induction later with
  | refl => exact settled
  | tail _ step ih => exact settled_step step ih

/-- The call that a question comes to. -/
def Machine.put (m : Machine) (dynVars : DynVars) : Query Entity → EvalM Value
  | .unary p x => m.call x p.prop [] dynVars
  | .binary p x y => m.call x p.prop [.entity y] dynVars

/-- The answer that the value of a call gives. -/
def EvalM.verdict : Value → EvalM Bool
  | .bool b => pure b
  | v => EvalM.fail (.typeMismatch "bool" v.typeName)

theorem Machine.oracle_eq (m : Machine) (dynVars : DynVars) (q : Query Entity) :
    m.oracle dynVars q = m.put dynVars q >>= EvalM.verdict := by
  cases q <;> rfl

theorem Machine.oracle_state (m : Machine) (dynVars : DynVars) (q : Query Entity) (s : Session) :
    (m.oracle dynVars q s).2 = (m.put dynVars q s).2 := by
  rw [oracle_eq, SessionM.run_bind]
  rcases m.put dynVars q s with ⟨halt | v, t⟩
  · rfl
  · cases v <;> rfl

/-- All questions of a solve are put while it is underway. -/
theorem asked_reached (S : Setting) (depth : Nat) (e : Equation Entity) (dynVars : DynVars)
    (us : List Underway) (s : Session) :
    Moment.Later S ⟨us, s⟩
      ⟨⟨e, dynVars, s⟩ :: us, (EvalM.asked S (.upTo S depth) e dynVars s).2⟩ := by
  refine e.solve_keeps (W := fun t => Moment.Later S ⟨us, s⟩ ⟨⟨e, dynVars, s⟩ :: us, t⟩)
    (fun q t reached => reached.tail ?_) S.config.solver (s.boundVars e) (.single (.begun e dynVars))
  rw [Machine.oracle_state]
  cases q with
  | unary p x => exact .carried (.request (.call x p.prop [] dynVars)) depth
  | binary p x y => exact .carried (.request (.call x p.prop [.entity y] dynVars)) depth

/-- Then the solve ends. -/
theorem solve_reached (S : Setting) (depth : Nat) (e : Equation Entity) (dynVars : DynVars)
    (us : List Underway) (s : Session) :
    Moment.Later S ⟨⟨e, dynVars, s⟩ :: us, (EvalM.asked S (.upTo S depth) e dynVars s).2⟩
      ⟨us, (EvalM.solve S (.upTo S depth) e dynVars s).2⟩ := by
  rw [EvalM.solve_eq]
  rcases ran : EvalM.asked S (.upTo S depth) e dynVars s with ⟨halt | outcome, t⟩
  · exact .single .unsolved
  · cases outcome with
    | solved values => exact .single (.solved ran)
    | failed why =>
      have ended : Moment.Step S ⟨⟨e, dynVars, s⟩ :: us, t⟩ ⟨us, t⟩ := .unsolved
      exact (Relation.ReflTransGen.single ended).tail (.changed (same_values_of_slots rfl))

/-- A value that is there when all questions have been answered stays, or the solve
started without it, found another one and writes that. -/
theorem solve_keeps_or_overwrites {S : Setting} {depth : Nat} {e : Equation Entity}
    {dynVars : DynVars} {s : Session}
    (held : (EvalM.asked S (.upTo S depth) e dynVars s).2.logicValue v = .ok x) :
    (EvalM.solve S (.upTo S depth) e dynVars s).2.logicValue v = .ok x ∨
    ∃ values y, (EvalM.asked S (.upTo S depth) e dynVars s).1 = .ok (.solved values) ∧
      values.valuation v = some y ∧ y ≠ x ∧ v ∈ e.vars ∧ s.tree.value v = none ∧
      (EvalM.solve S (.upTo S depth) e dynVars s).2.logicValue v = .ok y := by
  have retained := EvalM.asked_retains (machine_moves (S := S) depth) S e dynVars s
  rw [EvalM.solve_eq]
  rcases ran : EvalM.asked S (.upTo S depth) e dynVars s with ⟨halt | outcome, t⟩ <;>
    rw [ran] at held retained
  · exact .inl held
  cases outcome with
  | failed why => exact .inl held
  | solved values =>
    rw [logic_value_ok_iff] at held
    have slot : v.raw < t.tree.varCount := by
      by_contra beyond
      rw [Tree.value, Array.getElem?_eq_none (Nat.le_of_not_lt beyond)] at held
      cases held
    have written := EvalM.value_assigned ran v
    rw [if_pos slot, held] at written
    dsimp only
    cases assigned : values.valuation v with
    | none =>
      rw [assigned] at written
      exact .inl (logic_value_ok_iff.2 written)
    | some y =>
      rw [assigned] at written
      by_cases same : y = x
      · exact .inl (logic_value_ok_iff.2 (same ▸ written))
      have solved : (EvalM.asked S (.upTo S depth) e dynVars s).1 = .ok (.solved values) := by
        rw [ran]
      obtain ⟨mem, keeps⟩ := (solved_agrees solved).2 v y assigned
      refine .inr ⟨values, y, rfl, assigned, same, mem, ?_, logic_value_ok_iff.2 written⟩
      cases bound : s.tree.value v with
      | none => rfl
      | some z =>
        have still : t.tree.value v = some z := retained v z bound
        rw [held] at still
        cases still
        exact absurd (keeps x (bound_value_of_value mem bound)) same

/-- Once a variable has a value, and no solve is underway that started without it, the
variable has that value ever after. While a solve is underway its questions can bind
variables as well; such a value is lost only if the solve has read the variable, without
the value, and finds another one. -/
theorem logic_value_kept (S : Setting) :
    (∀ (m n : Moment) (v : VarId) (x : Entity), m.Settled v x → Moment.Later S m n →
      n.now.logicValue v = .ok x) ∧
    ∀ depth e dynVars us s,
      Moment.Later S ⟨us, s⟩
        ⟨⟨e, dynVars, s⟩ :: us, (EvalM.asked S (.upTo S depth) e dynVars s).2⟩ ∧
      ∀ v x, (EvalM.asked S (.upTo S depth) e dynVars s).2.logicValue v = .ok x →
        (EvalM.solve S (.upTo S depth) e dynVars s).2.logicValue v = .ok x ∨
        ∃ values y, (EvalM.asked S (.upTo S depth) e dynVars s).1 = .ok (.solved values) ∧
          values.valuation v = some y ∧ y ≠ x ∧ v ∈ e.vars ∧ s.tree.value v = none ∧
          (EvalM.solve S (.upTo S depth) e dynVars s).2.logicValue v = .ok y := by
  refine ⟨fun m n v x settled later => (settled_later later settled).held,
    fun depth e dynVars us s => ⟨asked_reached S depth e dynVars us s, fun v x held => ?_⟩⟩
  exact solve_keeps_or_overwrites held

/-! ## A solve within a solve -/

/-- A leaf has a variable, and a property that can be asked about it; the body of the
property is left open. -/
def Builder.leafAsking (body : Expr) : Builder := .declare [
  .kind ⟨"Leaf", none, [], ["var"], false, false, true, .caller⟩,
  .property ⟨⟨0⟩, "asked", [], .bool, [], false, true, .expr body, .caller⟩]

def Setting.leafAsking (body : Expr) : Setting where
  language :=
    { kinds := #[⟨⟨0⟩, "Leaf", none, false, [], false, true, ["var"], [⟨0⟩], .caller⟩]
      properties := #[⟨⟨0⟩, "asked", ⟨0⟩, [], .bool, [], false, true, [0], .caller⟩]
      implementations := #[⟨⟨0⟩, ⟨0⟩, .expr body, .caller⟩]
      dynVars := #[]
      envSpecs := #[]
      metadata := none
      table := #[#[some (.runs 0)]]
      warnings := [] }
  config := .standard

/-- A session over two leaves. -/
def Session.twoLeaves (S : Setting) : Session :=
  [Operation.newUnit "", .addNode ⟨0⟩ ⟨0⟩ [] .empty .dummy, .addNode ⟨0⟩ ⟨0⟩ [] .empty .dummy].foldl
    (Operation.run S .exhausted) (.new (.new none) .standard .ready)

/-- The equation that asks the property about the first leaf. -/
def Equation.askingLeaf : Equation Entity :=
  .and [.atom (.domain ⟨0⟩ [.bare ⟨0⟩] none), .atom (.predicate ⟨0⟩ ⟨0⟩ none)]

section Leaf
variable {body : Expr} {depth : Nat} {b : Bool} {t : Session}
  (ran : EvalM.bodyOf (.leafAsking body) (.upTo (.leafAsking body) depth) ⟨0⟩ 0
    ⟨⟨0⟩, .bare ⟨0⟩, [], .none⟩ (Session.twoLeaves (.leafAsking body)).deeper = (.ok (.bool b), t))
include ran

/-- What the body gives is the answer to the question. -/
theorem oracle_of_leaf :
    (Machine.upTo (.leafAsking body) (depth + 1)).oracle .none (.unary ⟨0⟩ (.bare ⟨0⟩))
      (.twoLeaves (.leafAsking body)) = (.ok b, t.shallower) := by
  let S := Setting.leafAsking body
  have called : Called S (.twoLeaves S) ⟨⟨0⟩, .bare ⟨0⟩, [], .none⟩ .none
      ⟨⟨0⟩, [], none, ⟨0⟩, .empty, .dummy, [⟨0⟩], none⟩ _ 0 :=
    ⟨rfl, rfl, rfl, fun p mem => (List.not_mem_nil mem).elim, rfl, rfl⟩
  have within : (Session.twoLeaves S).Within S.config.maxCallDepth :=
    .inr (Nat.zero_lt_succ _)
  have answered : EvalM.callWith S (.upTo S depth) (.bare ⟨0⟩) ⟨0⟩ [] .none (.twoLeaves S) =
      (.ok (.bool b), t.shallower) := by
    refine (called_eq called (.upTo S depth)).trans (SessionM.map_error_of_ok ?_)
    exact EvalM.compute_of_body within ran rfl
  have put : (Machine.upTo S (depth + 1)).put .none (.unary ⟨0⟩ (.bare ⟨0⟩)) =
      EvalM.callWith S (.upTo S depth) (.bare ⟨0⟩) ⟨0⟩ [] .none := rfl
  rw [Machine.oracle_eq, SessionM.run_bind, put, answered]
  rfl

end Leaf

theorem bound_vars_asking_leaf (body : Expr) :
    (Session.twoLeaves (.leafAsking body)).boundVars .askingLeaf = [] := by
  simp [Session.boundVars, Equation.askingLeaf, Equation.vars, Equation.atoms, Atom.vars,
    List.eraseDups_cons]
  rfl

/-- Binds the variable of the leaf to the second leaf, and tells whether that is then its
value. -/
def Expr.settles : Expr :=
  .letIn 0 (.solve (.domain (.logicVar .self 0) (.array [.lit (.entity (.bare ⟨1⟩))]) .caller))
    (.binary .eq (.logicValue (.logicVar .self 0)) (.lit (.entity (.bare ⟨1⟩))))

/-- The property solves an equation when it is asked. -/
abbrev Setting.settling : Setting := .leafAsking .settles

/-- The equation that the property solves. -/
def Equation.settling : Equation Entity := .atom (.domain ⟨0⟩ [.bare ⟨1⟩] (some .caller))

/-- The session after the property has entered its equation. -/
def Session.settling : Session :=
  let s := Session.twoLeaves .settling
  { s.deeper with pool := (s.pool.addEquation .settling).2 }

/-- The session after the property has solved it. -/
def Session.settled : Session := Session.settling.assign [(⟨0⟩, .bare ⟨1⟩)]

theorem solve_settling (m : Machine) :
    EvalM.solve .settling m .settling .none .settling = (.ok true, .settled) := by
  have unbound : Session.settling.boundVars .settling = [] := by
    simp [Session.boundVars, Equation.settling, Equation.vars, Equation.atoms, Atom.vars,
      List.eraseDups_cons]
    rfl
  unfold EvalM.solve
  rw [unbound, Equation.settling, Equation.solve_of_candidate]
  rfl

theorem body_of_settles (m : Machine) :
    EvalM.bodyOf .settling m ⟨0⟩ 0 ⟨⟨0⟩, .bare ⟨0⟩, [], .none⟩ (Session.twoLeaves .settling).deeper =
      (.ok (.bool true), .settled) := by
  have entered : EvalM.bodyOf .settling m ⟨0⟩ 0 ⟨⟨0⟩, .bare ⟨0⟩, [], .none⟩ =
      runIn (.new (.bare ⟨0⟩) [] .none 1) (eval .settling m .settles) := rfl
  have built : eval .settling m
      (.domain (.logicVar .self 0) (.array [.lit (.entity (.bare ⟨1⟩))]) .caller)
      (.new (.bare ⟨0⟩) [] .none 1) (Session.twoLeaves .settling).deeper =
      ((.ok (.equation ⟨0⟩), .new (.bare ⟨0⟩) [] .none 1), .settling) := rfl
  have outer : eval .settling m
      (.solve (.domain (.logicVar .self 0) (.array [.lit (.entity (.bare ⟨1⟩))]) .caller))
      (.new (.bare ⟨0⟩) [] .none 1) (Session.twoLeaves .settling).deeper =
      ((.ok (.bool true), .new (.bare ⟨0⟩) [] .none 1), .settled) :=
    eval_solve built rfl (solve_settling m)
  rw [entered]
  unfold runIn
  rw [Expr.settles, eval, run_bind, outer]
  rfl

theorem asked_settles (depth : Nat) :
    EvalM.asked .settling (.upTo .settling (depth + 1)) .askingLeaf .none (.twoLeaves .settling) =
      (.ok (.solved [(⟨0⟩, .bare ⟨0⟩)]), Session.settled.shallower) := by
  have answered := oracle_of_leaf (body_of_settles (.upTo .settling depth))
  unfold EvalM.asked
  rw [bound_vars_asking_leaf, Equation.askingLeaf]
  exact Equation.solve_of_passing_filter answered (v := ⟨0⟩) none none _

/-- What the property has bound stays bound in a solve that is begun afterwards, and not
in the one that asks the property. -/
theorem logic_value_kept_of_settled :
    let m := Machine.upTo .settling 2
    let s := Session.twoLeaves .settling
    ((⟨[], .settled⟩ : Moment).Settled ⟨0⟩ (.bare ⟨1⟩) ∧
      (EvalM.solve .settling m .askingLeaf .none .settled).2.logicValue ⟨0⟩ = .ok (.bare ⟨1⟩)) ∧
    (EvalM.asked .settling m .askingLeaf .none s).2.logicValue ⟨0⟩ = .ok (.bare ⟨1⟩) ∧
      ∃ y, y ≠ .bare ⟨1⟩ ∧
        (EvalM.solve .settling m .askingLeaf .none s).2.logicValue ⟨0⟩ = .ok y := by
  intro m s
  have settled : (⟨[], .settled⟩ : Moment).Settled ⟨0⟩ (.bare ⟨1⟩) :=
    ⟨rfl, fun u mem => nomatch mem⟩
  have held : (EvalM.asked .settling m .askingLeaf .none s).2.logicValue ⟨0⟩ =
      .ok (.bare ⟨1⟩) := by
    rw [asked_settles]
    rfl
  refine ⟨⟨settled, (logic_value_kept .settling).1 _ ⟨[], _⟩ ⟨0⟩ _ settled
    (.single (.carried (.solve .askingLeaf .none) 2))⟩, held, ?_⟩
  rcases ((logic_value_kept .settling).2 2 .askingLeaf .none [] s).2 ⟨0⟩ (.bare ⟨1⟩) held
    with still | ⟨-, y, -, -, other, -, -, written⟩
  · rw [EvalM.solve_eq, asked_settles] at still
    cases still
  · exact ⟨y, other, written⟩

/-- While an equation is solved a property that it asks solves another one. The property
reads the second leaf as the value that it has bound; the solve that asked goes on to
bind the first leaf, and that is what is read from then on. -/
theorem nested_solve_overwrites :
    (Builder.leafAsking .settles).build = .ok Setting.settling.language ∧
    ∀ depth,
      let m := Machine.upTo .settling (depth + 1)
      let s := Session.twoLeaves .settling
      let asked := EvalM.asked .settling m .askingLeaf .none s
      let ended := EvalM.solve .settling m .askingLeaf .none s
      Moment.Later .settling ⟨[], .new (.new none) .standard .ready⟩
        ⟨[⟨.askingLeaf, .none, s⟩], asked.2⟩ ∧
      asked.2.logicValue ⟨0⟩ = .ok (.bare ⟨1⟩) ∧
      Moment.Later .settling ⟨[⟨.askingLeaf, .none, s⟩], asked.2⟩ ⟨[], ended.2⟩ ∧
      ended.2.logicValue ⟨0⟩ = .ok (.bare ⟨0⟩) := by
  refine ⟨?_, fun depth => ⟨?_, ?_, solve_reached .settling (depth + 1) .askingLeaf .none [] _, ?_⟩⟩
  · unfold Builder.leafAsking Setting.settling Setting.leafAsking Expr.settles
    cbv
  · have made : Moment.Later .settling ⟨[], .new (.new none) .standard .ready⟩
        ⟨[], .twoLeaves .settling⟩ :=
      .tail (.tail (.single (.carried (.newUnit "") 0))
        (.carried (.addNode ⟨0⟩ ⟨0⟩ [] .empty .dummy) 0))
        (.carried (.addNode ⟨0⟩ ⟨0⟩ [] .empty .dummy) 0)
    exact made.trans (asked_reached .settling (depth + 1) .askingLeaf .none [] _)
  · rw [asked_settles]
    rfl
  · rw [EvalM.solve_eq, asked_settles]
    rfl

end Trellis
