import Trellis.Proofs.Session.Binding

/-! What a solve does to the session. Between its questions a solve leaves the session
alone, and it writes nothing before all of them are answered: so as long as the
questions bind no variables themselves, either the values of a whole solution are
written or none at all. -/
namespace Trellis
open Solver

/-! ## Changes that bind nothing -/

/-- A change that is not the binding of a variable. -/
def Quiet (S : Setting) (h k : History) : Prop :=
  Change S h k ∧ ∀ v x, k ≠ ⟨{ h.now with tree := h.now.tree.setValue v x }, h.populated⟩

/-- No other change gives a variable a value, or another one. -/
theorem quiet_same_values (quiet : Quiet S h k) : h.now.SameValues k.now := by
  obtain ⟨change, other⟩ := quiet
  cases change with
  | aside step => exact same_values_of_slots (congrArg Tree.values (aside_frame step).1)
  | envs step => exact same_values_of_slots rfl
  | assigned v x => exact (other v x rfl).elim
  | unit name => exact same_values_of_slots rfl
  | node made => exact same_values_add_node made
  | rooted given => exact same_values_set_root given
  | opened held fresh outermost => exact same_values_open_top _ _ _
  | populated held computed given => exact same_values_of_slots (Tree.set_envs_values given)

/-! ## Variables of nodes -/

/-- Every variable of a node has a slot. -/
def Tree.Slotted (t : Tree) : Prop :=
  ∀ n node, t.node? n = some node → ∀ v ∈ node.vars, v.raw < t.varCount

/-- Older nodes keep their variables, so only the new nodes have to be looked at. -/
theorem Tree.slotted_later {s t : Tree} (later : s.Later t) (grown : s.varCount ≤ t.varCount)
    (new : ∀ n node, s.nodes.size ≤ n.raw → t.node? n = some node →
      ∀ v ∈ node.vars, v.raw < t.varCount) (slotted : s.Slotted) : t.Slotted := by
  intro n node held v mem
  rcases Nat.lt_or_ge n.raw s.nodes.size with old | young
  · have there : s.node? n = some s.nodes[n.raw] := Array.getElem?_eq_getElem old
    obtain ⟨same, still, kept⟩ := later.nodes n.raw _ there
    obtain rfl : node = same := Option.some.inj (held.symm.trans still)
    exact Nat.lt_of_lt_of_le (slotted n _ there v (kept.vars ▸ mem)) grown
  · exact new n node young held v mem

theorem Tree.slotted_of_size {s t : Tree} (later : s.Later t) (values : t.varCount = s.varCount)
    (nodes : t.nodes.size = s.nodes.size) (slotted : s.Slotted) : t.Slotted := by
  refine slotted_later later (Nat.le_of_eq values.symm) (fun n node young held => ?_) slotted
  have there := (Array.getElem?_eq_some_iff.1 held).1
  omega

theorem Tree.add_node_slotted {s t : Tree} (made : s.addNode new = .ok (n, t))
    (slotted : s.Slotted) : t.Slotted := by
  have values : t.varCount = s.varCount + new.varCount := by
    rw [varCount, add_node_values made]
    simp [varCount]
  refine slotted_later (add_node_later made) (by omega) (fun m node young held v mem => ?_) slotted
  unfold addNode at made
  split at made
  · cases made
  · split at made
    · cases made
    · cases made
      simp only [node?, Array.getElem?_push, size_adopt] at held
      split at held
      · cases held
        obtain ⟨i, inside, rfl⟩ := List.mem_map.1 mem
        have slot := List.mem_range.1 inside
        show s.values.size + i < _
        rw [values]
        exact Nat.add_lt_add_left slot _
      · have there := (Array.getElem?_eq_some_iff.1 held).1
        rw [size_adopt] at there
        omega

theorem change_slotted (step : Change S h k) (slotted : h.now.tree.Slotted) :
    k.now.tree.Slotted := by
  have later := (change_later step).tree
  cases step with
  | aside step => exact (aside_frame step).1 ▸ slotted
  | envs step => exact slotted
  | assigned v x => exact Tree.slotted_of_size later (Tree.var_count_set_value _ v x) rfl slotted
  | unit name => exact slotted
  | node made => exact Tree.add_node_slotted made slotted
  | rooted given =>
    obtain ⟨tree, rooted, rfl⟩ := Session.set_root_ok given
    obtain ⟨-, -, -, -, -, rfl⟩ := Tree.set_root_ok rooted
    exact slotted
  | opened held fresh outermost =>
    obtain ⟨_, opened⟩ := open_top_eq _ _ _
    exact opened ▸ slotted
  | populated held computed given =>
    obtain ⟨-, -, -, -, nodes⟩ := Tree.set_envs_ok given
    refine Tree.slotted_of_size later ?_ (by simp [nodes]) slotted
    rw [Tree.varCount, Tree.set_envs_values given]
    rfl

theorem reachable_slotted (reached : Reachable S h) : h.now.tree.Slotted := by
  obtain ⟨pool, bag, loader, path⟩ := reached
  refine path_keeps (P := fun h => h.now.tree.Slotted) (fun _ _ => change_slotted) path ?_
  exact fun n node held => by cases held

/-- A session as it is after changes that bind no variable. -/
structure Session.Unbinding (s t : Session) : Prop where
  values : s.SameValues t
  later : s.Later t
  slotted : s.tree.Slotted → t.tree.Slotted

theorem unbinding_refl (s : Session) : s.Unbinding s :=
  ⟨fun _ => rfl, Session.later_refl s, id⟩

theorem unbinding_trans {r s t : Session} (first : r.Unbinding s) (rest : s.Unbinding t) :
    r.Unbinding t where
  values v := (rest.values v).trans (first.values v)
  later := Session.later_trans first.later rest.later
  slotted held := rest.slotted (first.slotted held)

theorem unbinding_of_quiet (path : Relation.ReflTransGen (Quiet S) h k) :
    h.now.Unbinding k.now := by
  induction path with
  | refl => exact unbinding_refl _
  | tail _ last ih =>
    exact unbinding_trans ih ⟨quiet_same_values last, change_later last.1, change_slotted last.1⟩

/-! ## Solves whose questions bind nothing -/

theorem Atom.holds_of_extends [DecidableEq V] {a : Atom V} {holds : Query V → Bool}
    {t u : Valuation V} (more : ∀ v x, t v = some x → u v = some x) (held : a.Holds holds t) :
    a.Holds holds u := by
  cases a with
  | domain v values origin =>
    obtain ⟨x, value, mem⟩ := held
    exact ⟨x, more v x value, mem⟩
  | predicate v p origin =>
    obtain ⟨x, value, answer⟩ := held
    exact ⟨x, more v x value, answer⟩
  | bind a b relation origin =>
    obtain ⟨x, y, left, right, answer⟩ := held
    exact ⟨x, y, more a x left, more b y right, answer⟩

namespace EvalM

/-- The questions that a solve puts, each with the session in which it is put. -/
def questions (S : Setting) (m : Machine) (e : Equation Entity) (dynVars : DynVars) (s : Session) :
    List (Query Entity × Session) :=
  e.solveCalls (m.oracle dynVars) S.config.solver (s.boundVars e) s

/-- No question of the solve binds a variable while it is answered. That is so if none of
the properties that are called solves an equation: variables are bound by solves only. -/
def AsksQuietly (S : Setting) (m : Machine) (e : Equation Entity) (dynVars : DynVars)
    (s : Session) : Prop :=
  ∀ p ∈ questions S m e dynVars s, ∃ before after,
    Relation.ReflTransGen (Quiet S) ⟨p.2, before⟩ ⟨(m.oracle dynVars p.1 p.2).2, after⟩

/-- Whenever a question of the solve is answered, the answer is what is so. -/
def AnsweredBy (holds : Query Entity → Bool) (S : Setting) (m : Machine) (e : Equation Entity)
    (dynVars : DynVars) (s : Session) : Prop :=
  ∀ p ∈ questions S m e dynVars s, ∀ b, (m.oracle dynVars p.1 p.2).1 = .ok b → b = holds p.1

section Solve
variable {S : Setting} {m : Machine} {e : Equation Entity} {dynVars : DynVars} {s : Session}
  {holds : Query Entity → Bool}

theorem asked_unbinding (quiet : AsksQuietly S m e dynVars s) :
    s.Unbinding (asked S m e dynVars s).2 := by
  refine (Equation.solve_by_calls (unbinding_refl s) (fun p put sofar => ?_) fun _ _ => rfl).2
  obtain ⟨before, after, path⟩ := quiet p put
  exact unbinding_trans sofar (unbinding_of_quiet path)

/-- What is found solves a choice, the answers being what is so. -/
theorem solution_of_asked (answered : AnsweredBy holds S m e dynVars s)
    (found : (asked S m e dynVars s).1 = .ok (.solved values)) :
    ∃ choice ∈ e.choices, Solves holds (s.boundVars e) choice values.valuation := by
  have alike : ∀ p ∈ questions S m e dynVars s,
      corrected holds (m.oracle dynVars) p.1 p.2 = m.oracle dynVars p.1 p.2 := by
    intro p put
    unfold corrected
    rcases ran : m.oracle dynVars p.1 p.2 with ⟨halt | b, t⟩
    · rfl
    · rw [answered p put b (by rw [ran])]
      rfl
  obtain ⟨same, -⟩ := Equation.solve_by_calls (W := fun _ => True) trivial
    (fun _ _ _ => trivial) alike
  rw [asked, ← same] at found
  obtain ⟨choice, chosen, -, solves⟩ := solution_of_corrected found
  exact ⟨choice, chosen, solves⟩

/-- Only a variable that the equation mentions and that had no value receives one. -/
theorem unbound_of_assigned (found : asked S m e dynVars s = (.ok (.solved values), t))
    (same : s.SameValues t) (changed : (t.assign values).tree.value v ≠ s.tree.value v) :
    v ∈ e.vars ∧ s.tree.value v = none := by
  rw [value_assigned found, same v] at changed
  split at changed
  · cases assigned : values.valuation v with
    | none => exact (changed (by rw [assigned]; rfl)).elim
    | some x =>
      have solved : (asked S m e dynVars s).1 = .ok (.solved values) := by rw [found]
      obtain ⟨mem, keeps⟩ := (solved_agrees solved).2 v x assigned
      refine ⟨mem, ?_⟩
      cases bound : s.tree.value v with
      | none => rfl
      | some y =>
        obtain rfl := keeps y (bound_value_of_value mem bound)
        rw [assigned, bound] at changed
        exact (changed rfl).elim
  · exact (changed rfl).elim

theorem report_inconsistency_eq (s : Session) (why : Inconsistency) :
    ∃ code message location, (code = .K4001 ∨ code = .K4002) ∧
      s.reportInconsistency why = s.report code message location := by
  cases why with
  | unconstrained v origin => exact ⟨.K4002, _, _, .inr rfl, rfl⟩
  | emptyDomain v origin => exact ⟨.K4001, _, _, .inl rfl, rfl⟩
  | contradiction => exact ⟨.K4001, _, _, .inl rfl, rfl⟩

end Solve

end EvalM

section AllOrNothing
open EvalM
variable {S : Setting} {m : Machine} {e : Equation Entity} {dynVars : DynVars} {s : Session}
  {populated : List (NodeId × EnvId)}

/-- A solve whose questions bind no variables is all or nothing. If it gives no solution,
or no answer, every variable is as it was, and all that the solve itself has done is to
report once that there is no solution. If it gives a solution, variables without values
have received theirs, no other value has changed, and if the answers are those of a fixed
function, the variables of some choice hold values that satisfy it. -/
theorem solve_all_or_nothing (reached : Reachable S ⟨s, populated⟩)
    (owned : ∀ v ∈ e.vars, ∃ n node, s.tree.node? n = some node ∧ v ∈ node.vars)
    (quiet : AsksQuietly S m e dynVars s) :
    match EvalM.solve S m e dynVars s with
    | (.ok true, t) =>
      (∀ v, t.tree.value v ≠ s.tree.value v → v ∈ e.vars ∧ s.tree.value v = none) ∧
      ∀ holds, AnsweredBy holds S m e dynVars s →
        ∃ choice ∈ e.choices, ∀ a ∈ choice, a.Holds holds t.tree.value
    | (.ok false, t) => s.SameValues t ∧
      ∃ code message location, (code = .K4001 ∨ code = .K4002) ∧
        t = (asked S m e dynVars s).2.report code message location
    | (.error _, t) => s.SameValues t ∧ t = (asked S m e dynVars s).2 := by
  have kept := asked_unbinding quiet
  rw [solve_eq]
  rcases ran : asked S m e dynVars s with ⟨halt | outcome, t⟩ <;> rw [ran] at kept
  · exact ⟨kept.values, rfl⟩
  cases outcome with
  | failed why =>
    obtain ⟨code, message, location, known, reported⟩ := report_inconsistency_eq t why
    dsimp only
    rw [reported]
    exact ⟨kept.values, code, message, location, known, rfl⟩
  | solved values =>
    have found : (asked S m e dynVars s).1 = .ok (.solved values) := by rw [ran]
    refine ⟨fun v => unbound_of_assigned ran kept.values, fun holds answered => ?_⟩
    obtain ⟨choice, chosen, solves⟩ := solution_of_asked answered found
    refine ⟨choice, chosen, fun a mem => Atom.holds_of_extends ?_ (solves.satisfied a mem)⟩
    intro v x assigned
    obtain ⟨n, node, held, mine⟩ := owned v ((solved_agrees found).2 v x assigned).1
    obtain ⟨later, still, same⟩ := Session.node_later kept.later held
    have slot := kept.slotted (reachable_slotted reached) n later still v (same.vars ▸ mine)
    rw [value_assigned ran, if_pos slot, assigned]
    rfl

end AllOrNothing

/-- The property tells whether it is asked about the first leaf. -/
abbrev Setting.findingFirst : Setting := .leafAsking (.binary .eq .self (.lit (.entity (.bare ⟨0⟩))))

/-- It is, and being asked changes nothing. -/
theorem oracle_of_first :
    (Machine.upTo .findingFirst 1).oracle .none (.unary ⟨0⟩ (.bare ⟨0⟩)) (.twoLeaves .findingFirst) =
      (.ok true, .twoLeaves .findingFirst) := by
  have ran : EvalM.bodyOf .findingFirst (.upTo .findingFirst 0) ⟨0⟩ 0 ⟨⟨0⟩, .bare ⟨0⟩, [], .none⟩
      (Session.twoLeaves .findingFirst).deeper =
      (.ok (.bool true), (Session.twoLeaves .findingFirst).deeper) := rfl
  exact oracle_of_leaf ran

theorem asked_first :
    EvalM.asked .findingFirst (.upTo .findingFirst 1) .askingLeaf .none (.twoLeaves .findingFirst) =
      (.ok (.solved [(⟨0⟩, .bare ⟨0⟩)]), .twoLeaves .findingFirst) := by
  unfold EvalM.asked
  rw [bound_vars_asking_leaf, Equation.askingLeaf]
  exact Equation.solve_of_passing_filter oracle_of_first (v := ⟨0⟩) none none _

theorem questions_first :
    EvalM.questions .findingFirst (.upTo .findingFirst 1) .askingLeaf .none
      (.twoLeaves .findingFirst) = [(.unary ⟨0⟩ (.bare ⟨0⟩), .twoLeaves .findingFirst)] := by
  have answered : recording ((Machine.upTo .findingFirst 1).oracle .none)
      (.unary ⟨0⟩ (.bare ⟨0⟩)) (.twoLeaves .findingFirst, []) = (.ok true,
        .twoLeaves .findingFirst, [(.unary ⟨0⟩ (.bare ⟨0⟩), .twoLeaves .findingFirst)]) := by
    unfold recording
    dsimp only
    rw [oracle_of_first]
    rfl
  unfold EvalM.questions Equation.solveCalls
  rw [bound_vars_asking_leaf, Equation.askingLeaf,
    Equation.solve_of_passing_filter answered (v := ⟨0⟩) none none]

/-- The first leaf becomes the value of the variable. -/
theorem solve_all_or_nothing_of_leaf :
    let holds : Query Entity → Bool := fun q => q == .unary ⟨0⟩ (.bare ⟨0⟩)
    ∃ t, EvalM.solve .findingFirst (.upTo .findingFirst 1) .askingLeaf .none
        (.twoLeaves .findingFirst) = (.ok true, t) ∧
      ∃ choice ∈ Equation.askingLeaf.choices, ∀ a ∈ choice, a.Holds holds t.tree.value := by
  intro holds
  let s := Session.twoLeaves .findingFirst
  obtain ⟨populated, reached⟩ : ∃ populated, Reachable .findingFirst ⟨s, populated⟩ :=
    reachable_of_run (h := ⟨.new (.new none) .standard .ready, []⟩) ⟨_, _, _, .refl⟩
      [.newUnit "", .addNode ⟨0⟩ ⟨0⟩ [] .empty .dummy, .addNode ⟨0⟩ ⟨0⟩ [] .empty .dummy] 0
  have owned : ∀ v ∈ Equation.askingLeaf.vars, ∃ n node, s.tree.node? n = some node ∧
      v ∈ node.vars := by
    intro v mem
    obtain rfl : v = ⟨0⟩ := by
      simpa [Equation.askingLeaf, Equation.vars, Equation.atoms, Atom.vars,
        List.eraseDups_cons] using mem
    exact ⟨⟨0⟩, _, rfl, List.mem_cons_self⟩
  have quiet : EvalM.AsksQuietly .findingFirst (.upTo .findingFirst 1) .askingLeaf .none s := by
    intro p put
    rw [questions_first] at put
    obtain rfl := List.mem_singleton.1 put
    refine ⟨[], [], ?_⟩
    rw [oracle_of_first]
  have answered :
      EvalM.AnsweredBy holds .findingFirst (.upTo .findingFirst 1) .askingLeaf .none s := by
    intro p put b answer
    rw [questions_first] at put
    obtain rfl := List.mem_singleton.1 put
    rw [oracle_of_first] at answer
    cases answer
    rfl
  have found := solve_all_or_nothing reached owned quiet
  rw [EvalM.solve_eq, asked_first] at found ⊢
  exact ⟨_, rfl, found.2 holds answered⟩

end Trellis
