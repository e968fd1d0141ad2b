import Mathlib.Algebra.BigOperators.Group.Finset.Basic
import Mathlib.Data.List.Flatten
import Mathlib.Logic.Relation
import Trellis.Proofs.Session.Binding
import Trellis.Proofs.Session.Onward

/-! Trees as they come about: a host adds units and nodes, roots units, records environments
and gives values to variables, and what is refused leaves the tree as it was. Whatever it
does, the parents of the nodes are the lists of children read the other way round, and the
tree is a forest. What a new node can still do is to list one child twice. The children are
looked at before any of them is adopted, and then that child is met twice wherever the tree
is walked. -/
namespace Trellis

namespace Tree

/-! ## Reading a tree -/

/-- The children of a node. A handle that names no node has none. -/
def childList (t : Tree) (p : NodeId) : List NodeId := ((t.node? p).map (·.children)).getD []

def parentOf (t : Tree) (c : NodeId) : Option NodeId := (t.node? c).bind (·.parent)

def unitOf (t : Tree) (n : NodeId) : Option UnitId := (t.node? n).map (·.unit)

def varList (t : Tree) (n : NodeId) : List VarId := ((t.node? n).map (·.vars)).getD []

/-- The lists of children of all nodes, one after the other. -/
def childLists (t : Tree) : List NodeId := (List.range t.size).flatMap fun i => t.childList ⟨i⟩

/-- The variables of all nodes, one node after the other. -/
def varLists (t : Tree) : List VarId := (List.range t.size).flatMap fun i => t.varList ⟨i⟩

/-- The node `p` has the node `c` among its children. -/
def Holds (t : Tree) (p c : NodeId) : Prop := c ∈ t.childList p

/-- The node `m` is the node `n`, or below it. -/
def Below (t : Tree) (n m : NodeId) : Prop := Relation.ReflTransGen t.Holds n m

theorem holds_older {t : Tree} (held : t.Holds p c) : c.raw < p.raw := by
  unfold Holds childList at held
  cases found : t.node? p with
  | none => simp [found] at held
  | some node =>
    rw [found] at held
    exact t.descending p.raw node found c held

theorem holds_known {t : Tree} (held : t.Holds p c) : p.raw < t.size := by
  unfold Holds childList at held
  cases found : t.node? p with
  | none => simp [found] at held
  | some node => exact (Array.getElem?_eq_some_iff.1 found).1

theorem below_older {t : Tree} (below : t.Below n m) : m.raw ≤ n.raw := by
  induction below with
  | refl => exact Nat.le_refl _
  | tail _ held sofar => exact Nat.le_trans (Nat.le_of_lt (holds_older held)) sofar

/-! ## The walk -/

theorem preorder_eq (t : Tree) (n : NodeId) :
    t.preorder n = n :: (t.childList n).flatMap t.preorder := by
  rw [preorder, childList, ← childrenOf_eq, List.flatMap_map]

theorem mem_preorder {t : Tree} (n m : NodeId) : m ∈ t.preorder n ↔ t.Below n m := by
  rw [preorder_eq, List.mem_cons, List.mem_flatMap, Below, Relation.ReflTransGen.cases_head_iff,
    eq_comm]
  refine or_congr_right (exists_congr fun c => and_congr_right fun held => ?_)
  have := holds_older held
  exact mem_preorder c m
termination_by n.raw

/-- Where every node has one parent, two nodes of one list have nothing below them in common. -/
theorem below_disjoint {t : Tree} (single : ∀ p q c, t.Holds p c → t.Holds q c → p = q)
    (held : t.Holds n c) (other : t.Holds n d) (different : c ≠ d) (below : t.Below c m) :
    ¬ t.Below d m := by
  -- The parents of a node are in one line, so one of the two children is below the other.
  have apart {c d : NodeId} (held : t.Holds n c) (other : t.Holds n d) (different : c ≠ d) :
      ¬ t.Below c d := by
    intro inside
    rcases Relation.ReflTransGen.cases_tail inside with same | ⟨p, above, parent⟩
    · exact different same.symm
    · obtain rfl := single p n d parent other
      have := below_older above
      have := holds_older held
      omega
  intro also
  have line : Relator.RightUnique (Function.swap t.Holds) := fun c p q hp hq => single p q c hp hq
  rcases Relation.ReflTransGen.total_of_right_unique line
    (Relation.reflTransGen_swap.2 below) (Relation.reflTransGen_swap.2 also) with inside | inside
  · exact apart other held (Ne.symm different) (Relation.reflTransGen_swap.1 inside)
  · exact apart held other different (Relation.reflTransGen_swap.1 inside)

/-- A walk meets a node twice only because a list that it goes along names a child twice. -/
theorem nodup_preorder_iff {t : Tree} (single : ∀ p q c, t.Holds p c → t.Holds q c → p = q)
    (n : NodeId) : (t.preorder n).Nodup ↔ ∀ m, t.Below n m → (t.childList m).Nodup := by
  have under (c : NodeId) (held : t.Holds n c) :
      (t.preorder c).Nodup ↔ ∀ m, t.Below c m → (t.childList m).Nodup := by
    have := holds_older held
    exact nodup_preorder_iff single c
  have self (c : NodeId) : c ∈ t.preorder c := (mem_preorder c c).2 .refl
  have away : n ∉ (t.childList n).flatMap t.preorder := fun mem => by
    obtain ⟨c, held, back⟩ := List.mem_flatMap.1 mem
    have := below_older ((mem_preorder c n).1 back)
    have := holds_older held
    omega
  rw [preorder_eq, List.nodup_cons, List.nodup_flatMap]
  constructor
  · rintro ⟨-, each, disjoint⟩ m below
    rcases Relation.ReflTransGen.cases_head below with same | ⟨c, held, rest⟩
    · subst same
      refine disjoint.imp fun {c d} apart same => apart (self c) ?_
      rw [same]
      exact self d
    · exact (under c held).1 (each c held) m rest
  · intro lists
    refine ⟨away, fun c held => (under c held).2 fun m below => lists m (.head held below), ?_⟩
    refine (lists n .refl).imp_of_mem fun {c d} held other different m inC inD => ?_
    exact below_disjoint single held other different ((mem_preorder c m).1 inC)
      ((mem_preorder d m).1 inD)
termination_by n.raw

/-- A child is listed as often as its one parent lists it. -/
theorem count_child_lists {t : Tree} (single : ∀ p q c, t.Holds p c → t.Holds q c → p = q)
    (held : t.Holds p c) : t.childLists.count c = (t.childList p).count c := by
  rw [childLists, List.count_flatMap]
  show ∑ i ∈ Finset.range t.size, (t.childList ⟨i⟩).count c = _
  refine Finset.sum_eq_single p.raw (fun i _ other => ?_) fun outside => ?_
  · refine List.count_eq_zero.2 fun also => other ?_
    rw [single p ⟨i⟩ c held also]
  · exact (outside (Finset.mem_range.2 (holds_known held))).elim

/-! ## Operations -/

end Tree

/-- What a host can do to a tree. -/
inductive TreeOperation where
  | addUnit (name : Symbol)
  | addNode (new : NewNode)
  | setRoot (unit : UnitId) (root : NodeId)
  | setEnvs (node : NodeId) (envs : NodeEnvs)
  | setValue (var : VarId) (value : Entity)

/-- The tree after an operation. An operation that is refused leaves it as it was. -/
def TreeOperation.run (t : Tree) : TreeOperation → Tree
  | addUnit name => (t.addUnit name).2
  | addNode new =>
    match t.addNode new with
    | .ok (_, after) => after
    | .error _ => t
  | setRoot unit root => (t.setRoot unit root).toOption.getD t
  | setEnvs node envs => (t.setEnvs node envs).toOption.getD t
  | setValue var value => t.setValue var value

/-- The node that an operation adds, unless it is refused. -/
def TreeOperation.added (t : Tree) : TreeOperation → Option NewNode
  | addNode new => (t.addNode new).toOption.map fun _ => new
  | _ => none

namespace Tree

/-- The tree that a sequence of operations makes out of `t`. -/
def after (t : Tree) (ops : List TreeOperation) : Tree := ops.foldl TreeOperation.run t

/-- The nodes that a sequence of operations adds to `t`, the refused ones left out. -/
def added (t : Tree) : List TreeOperation → List NewNode
  | [] => []
  | op :: rest => (op.added t).toList ++ (op.run t).added rest

theorem children_known {s t : Tree} (made : s.addNode new = .ok (n, t)) : 
    ∀ c ∈ new.children, ∃ a, s.node? c = some a ∧ a.parent = none ∧ a.unit = new.unit := by
  unfold addNode at made
  split at made
  · cases made
  · split at made
    · cases made
    · next accepted =>
      exact checkChildren_eq_ok accepted

theorem child_list_add_node {s t : Tree} (made : s.addNode new = .ok (n, t)) (m : NodeId) :
    t.childList m = if m = n then new.children else s.childList m := by
  unfold childList
  rw [node_of_add_node made]
  by_cases same : m = n
  · simp [same]
  · cases s.node? m with
    | none => simp [same]
    | some a => by_cases mem : m ∈ new.children <;> simp [same, mem]

theorem unit_of_add_node {s t : Tree} (made : s.addNode new = .ok (n, t)) (m : NodeId) :
    t.unitOf m = if m = n then some new.unit else s.unitOf m := by
  unfold unitOf
  rw [node_of_add_node made]
  by_cases same : m = n
  · simp [same]
  · cases s.node? m with
    | none => simp [same]
    | some a => by_cases mem : m ∈ new.children <;> simp [same, mem]

theorem var_list_add_node {s t : Tree} (made : s.addNode new = .ok (n, t)) (m : NodeId) :
    t.varList m = if m = n then (List.range new.varCount).map fun i => ⟨s.varCount + i⟩
      else s.varList m := by
  unfold varList
  rw [node_of_add_node made]
  by_cases same : m = n
  · simp [same]
  · cases s.node? m with
    | none => simp [same]
    | some a => by_cases mem : m ∈ new.children <;> simp [same, mem]

theorem parent_of_add_node {s t : Tree} (made : s.addNode new = .ok (n, t)) (m : NodeId) :
    t.parentOf m = if m ∈ new.children then some n else s.parentOf m := by
  have fresh : s.node? n = none := by
    rw [node?, (size_add_node made).1]
    exact Array.getElem?_eq_none (Nat.le_refl _)
  unfold parentOf
  rw [node_of_add_node made]
  by_cases same : m = n
  · have free : n ∉ new.children := fun mem => by
      obtain ⟨a, held, -⟩ := children_known made n mem
      rw [fresh] at held
      cases held
    simp [same, free, fresh]
  · by_cases mem : m ∈ new.children
    · obtain ⟨a, held, -⟩ := children_known made m mem
      simp [same, mem, held]
    · simp [same, mem]

/-! ## One operation -/

/-- Trees that read the same: their nodes have the same parents, children, units and
variables, and they have equally many of both. -/
structure Alike (s t : Tree) : Prop where
  size : t.size = s.size
  varCount : t.varCount = s.varCount
  children : ∀ n, t.childList n = s.childList n
  parent : ∀ n, t.parentOf n = s.parentOf n
  unit : ∀ n, t.unitOf n = s.unitOf n
  vars : ∀ n, t.varList n = s.varList n

theorem alike_of_nodes {s t : Tree} (nodes : t.nodes = s.nodes) (values : t.varCount = s.varCount) :
    s.Alike t := by
  have same (n : NodeId) : t.node? n = s.node? n := by rw [node?, node?, nodes]
  constructor
  · rw [size, size, nodes]
  · exact values
  all_goals
    intro n
    simp only [childList, parentOf, unitOf, varList, same]

theorem alike_set_envs {s t : Tree} (given : s.setEnvs n envs = .ok t) : s.Alike t := by
  obtain ⟨-, -, -, -, nodes⟩ := set_envs_ok given
  have same (m : NodeId) : t.node? m =
      (s.node? m).map fun a => if n = m then { a with envs := some envs } else a := by
    unfold node?
    rw [nodes, Array.getElem?_modify]
    by_cases here : n = m
    · simp [here]
    · have away : n.raw ≠ m.raw := fun eq => here (by cases n; cases m; exact congrArg _ eq)
      simp [here, away]
  constructor
  · rw [size, size, nodes, Array.size_modify]
  · rw [Tree.varCount, Tree.varCount, set_envs_values given]
  all_goals
    intro m
    simp only [childList, parentOf, unitOf, varList, same]
    cases s.node? m with
    | none => rfl
    | some a => by_cases here : n = m <;> simp [here]

end Tree

/-- An operation adds a node, or it leaves the tree to be read as it was. -/
theorem run_cases (op : TreeOperation) (s : Tree) :
    (∃ new n, s.addNode new = .ok (n, op.run s) ∧ op.added s = some new) ∨
      (s.Alike (op.run s) ∧ op.added s = none) := by
  cases op with
  | addUnit name => exact .inr ⟨Tree.alike_of_nodes rfl rfl, rfl⟩
  | addNode new =>
    cases made : s.addNode new with
    | ok result =>
      refine .inl ⟨new, result.1, ?_, ?_⟩
      · simp [TreeOperation.run, made]
      · simp [TreeOperation.added, made, Except.toOption]
    | error e =>
      refine .inr ⟨?_, ?_⟩
      · simp only [TreeOperation.run, made]
        exact Tree.alike_of_nodes rfl rfl
      · simp [TreeOperation.added, made, Except.toOption]
  | setRoot unit root =>
    refine .inr ⟨?_, rfl⟩
    cases given : s.setRoot unit root with
    | ok t =>
      obtain ⟨-, -, -, -, -, rfl⟩ := Tree.set_root_ok given
      simp only [TreeOperation.run, given]
      exact Tree.alike_of_nodes rfl rfl
    | error e =>
      simp only [TreeOperation.run, given]
      exact Tree.alike_of_nodes rfl rfl
  | setEnvs node envs =>
    refine .inr ⟨?_, rfl⟩
    cases given : s.setEnvs node envs with
    | ok t =>
      simp only [TreeOperation.run, given]
      exact Tree.alike_set_envs given
    | error e =>
      simp only [TreeOperation.run, given]
      exact Tree.alike_of_nodes rfl rfl
  | setValue var value => 
    exact .inr ⟨Tree.alike_of_nodes rfl (Tree.var_count_set_value s var value), rfl⟩

/-! ## The forest -/

namespace Tree

/-- What every operation keeps. The parents of the nodes are the lists of children read the
other way round, a child belongs to the unit of its parent, and the variables were dealt out
to the nodes in order. -/
structure Linked (t : Tree) : Prop where
  parent_iff : ∀ p c, t.parentOf c = some p ↔ t.Holds p c
  unit : ∀ p c, t.Holds p c → t.unitOf c = t.unitOf p
  vars : t.varLists = (List.range t.varCount).map Handle.mk

theorem linked_alike {s t : Tree} (alike : s.Alike t) (linked : s.Linked) : t.Linked where
  parent_iff p c := by
    rw [alike.parent, linked.parent_iff, Holds, Holds, alike.children]
  unit p c held := by
    rw [Holds, alike.children] at held
    rw [alike.unit, alike.unit, linked.unit p c held]
  vars := by
    simp only [varLists, alike.size, alike.vars, alike.varCount]
    exact linked.vars

theorem linked_add_node {s t : Tree} (made : s.addNode new = .ok (n, t)) (linked : s.Linked) :
    t.Linked where
  parent_iff p c := by
    rw [Holds, parent_of_add_node made, child_list_add_node made]
    by_cases last : p = n
    · rw [if_pos last, last]
      refine ⟨fun own => ?_, fun mem => by rw [if_pos mem]⟩
      by_contra away
      rw [if_neg away, linked.parent_iff] at own
      have := holds_known own
      have := (size_add_node made).1
      omega
    · rw [if_neg last, ← Holds, ← linked.parent_iff]
      by_cases mem : c ∈ new.children
      · -- A child that was accepted had no parent.
        obtain ⟨a, known, free, -⟩ := children_known made c mem
        simp [mem, parentOf, known, free, Ne.symm last]
      · rw [if_neg mem]
  unit p c held := by
    rw [Holds, child_list_add_node made] at held
    rw [unit_of_add_node made, unit_of_add_node made]
    by_cases last : p = n
    · rw [if_pos last] at held
      obtain ⟨a, known, -, own⟩ := children_known made c held
      have older := (Array.getElem?_eq_some_iff.1 known).1
      have other : c ≠ n := fun same => by
        rw [same, (size_add_node made).1] at older
        exact Nat.lt_irrefl _ older
      rw [if_neg other, if_pos last, unitOf, known, Option.map_some, own]
    · rw [if_neg last] at held
      have other : c ≠ n := fun same => by
        have := holds_older held
        have := holds_known held
        have := (size_add_node made).1
        rw [same] at *
        omega
      rw [if_neg other, if_neg last, linked.unit p c held]
  vars := by
    obtain ⟨here, grown⟩ := size_add_node made
    have last : (⟨s.size⟩ : NodeId) = n := by cases n; exact congrArg _ here.symm
    have older : (List.range s.size).flatMap (fun i => t.varList ⟨i⟩) = s.varLists := by
      refine List.flatMap_congr fun i mem => ?_
      have old : i < s.size := List.mem_range.1 mem
      rw [var_list_add_node made, if_neg]
      rintro rfl
      exact Nat.lt_irrefl i (Nat.lt_of_lt_of_eq old here.symm)
    have values : t.varCount = s.varCount + new.varCount := by
      rw [varCount, add_node_values made]
      simp [varCount]
    rw [varLists, grown, List.range_succ, List.flatMap_append, older, linked.vars, values,
      List.range_add, List.map_append]
    simp [last, var_list_add_node made]

theorem linked_empty : empty.Linked where
  parent_iff p c := by simp [parentOf, Holds, childList, node?, empty]
  unit p c held := by simp [Holds, childList, node?, empty] at held
  vars := rfl

theorem linked_after {t : Tree} (ops : List TreeOperation) (linked : t.Linked) :
    (t.after ops).Linked := by
  induction ops generalizing t with
  | nil => exact linked
  | cons op rest ih =>
    refine ih ?_
    rcases run_cases op t with ⟨new, n, made, -⟩ | ⟨alike, -⟩
    · exact linked_add_node made linked
    · exact linked_alike alike linked

/-- A child that two lists name is named by one and the same list. -/
theorem Linked.single {t : Tree} (linked : t.Linked) (p q c : NodeId) (held : t.Holds p c)
    (other : t.Holds q c) : p = q :=
  Option.some.inj (((linked.parent_iff p c).2 held).symm.trans ((linked.parent_iff q c).2 other))

theorem var_list_known {t : Tree} (mem : v ∈ t.varList n) : n.raw < t.size := by
  unfold varList at mem
  cases found : t.node? n with
  | none => simp [found] at mem
  | some node => exact (Array.getElem?_eq_some_iff.1 found).1

/-- The slots are the variables that some node lists. -/
theorem slot_iff {t : Tree} (linked : t.Linked) : v.raw < t.varCount ↔ ∃ n, v ∈ t.varList n := by
  have dealt : v.raw < t.varCount ↔ v ∈ t.varLists := by
    rw [linked.vars, List.mem_map]
    refine ⟨fun slot => ⟨v.raw, List.mem_range.2 slot, rfl⟩, ?_⟩
    rintro ⟨i, slot, rfl⟩
    exact List.mem_range.1 slot
  rw [dealt, varLists, List.mem_flatMap]
  refine ⟨fun ⟨i, _, mem⟩ => ⟨⟨i⟩, mem⟩, fun ⟨n, mem⟩ => ⟨n.raw, ?_, mem⟩⟩
  exact List.mem_range.2 (var_list_known mem)

theorem var_lists_apart {t : Tree} (linked : t.Linked) :
    (∀ n, (t.varList n).Nodup) ∧ ∀ n m v, v ∈ t.varList n → v ∈ t.varList m → n = m := by
  have nodup : t.varLists.Nodup := by
    rw [linked.vars]
    exact List.nodup_range.map fun i j same => congrArg Handle.raw same
  obtain ⟨each, apart⟩ := List.nodup_flatMap.1 nodup
  refine ⟨fun n => ?_, fun n m v mine other => ?_⟩
  · by_cases known : n.raw < t.size
    · exact each n.raw (List.mem_range.2 known)
    · have none_ : t.varList n = [] := List.eq_nil_iff_forall_not_mem.2 fun v mem =>
        known (var_list_known mem)
      rw [none_]
      exact List.nodup_nil
  · by_contra different
    have far : n.raw ≠ m.raw := fun same => different (by cases n; cases m; exact congrArg _ same)
    have symmetric : Std.Symm (Function.onFun List.Disjoint fun i => t.varList ⟨i⟩) :=
      ⟨fun i j disjoint => List.Disjoint.symm disjoint⟩
    exact apart.forall (List.mem_range.2 (var_list_known mine))
      (List.mem_range.2 (var_list_known other)) far mine other

/-! ## What can repeat -/

theorem fresh_child_list {s t : Tree} (made : s.addNode new = .ok (n, t)) : s.childList n = [] := by
  refine List.eq_nil_iff_forall_not_mem.2 fun c held => ?_
  have := holds_known held
  have := (size_add_node made).1
  omega

/-- The lists of children that operations make are those that the nodes were added with. -/
theorem child_lists_after {t : Tree} (ops : List TreeOperation) :
    (∀ p, ((t.after ops).childList p).Nodup) ↔
      (∀ p, (t.childList p).Nodup) ∧ ∀ new ∈ t.added ops, new.children.Nodup := by
  induction ops generalizing t with
  | nil => simp [after, added]
  | cons op rest ih =>
    have step : (∀ p, ((op.run t).childList p).Nodup) ↔ (∀ p, (t.childList p).Nodup) ∧
        ∀ new ∈ (op.added t).toList, new.children.Nodup := by
      rcases run_cases op t with ⟨new, n, made, listed⟩ | ⟨alike, listed⟩
      · have fresh := fresh_child_list made
        simp only [child_list_add_node made, listed, Option.toList_some, List.mem_singleton,
          forall_eq]
        refine ⟨fun each => ⟨fun p => ?_, ?_⟩, fun ⟨old, own⟩ p => ?_⟩
        · by_cases last : p = n
          · rw [last, fresh]
            exact List.nodup_nil
          · have := each p
            rwa [if_neg last] at this
        · have := each n
          rwa [if_pos rfl] at this
        · split
          · exact own
          · exact old p
      · simp only [alike.children, listed, Option.toList_none, List.not_mem_nil, false_imp_iff,
          implies_true, and_true]
    show (∀ p, (((op.run t).after rest).childList p).Nodup) ↔ _
    rw [ih, step, added]
    simp only [List.mem_append, or_imp, forall_and, and_assoc]

theorem nodup_child_lists_iff {t : Tree} (linked : t.Linked) :
    t.childLists.Nodup ↔ ∀ p, (t.childList p).Nodup := by
  simp only [List.nodup_iff_count_le_one]
  refine ⟨fun once p c => ?_, fun once c => ?_⟩
  · by_cases held : t.Holds p c
    · rw [← count_child_lists linked.single held]
      exact once c
    · rw [List.count_eq_zero.2 held]
      exact Nat.zero_le 1
  · by_cases mem : c ∈ t.childLists
    · obtain ⟨i, -, held⟩ := List.mem_flatMap.1 mem
      rw [count_child_lists linked.single held]
      exact once _ c
    · rw [List.count_eq_zero.2 mem]
      exact Nat.zero_le 1

/-- A tree whose nodes hang together as a forest does. -/
structure Forest (t : Tree) : Prop where
  /-- A node has a parent exactly when that parent lists it. -/
  parent_iff : ∀ p c, t.parentOf c = some p ↔ c ∈ t.childList p
  older : ∀ p, ∀ c ∈ t.childList p, c.raw < p.raw
  unit : ∀ p, ∀ c ∈ t.childList p, ∃ u, t.unitOf p = some u ∧ t.unitOf c = some u
  /-- Over all lists of children a node occurs as often as in the list of its parent. -/
  occurs : ∀ c, t.childLists.count c =
    ((t.parentOf c).map fun p => (t.childList p).count c).getD 0
  /-- The slots are dealt out to the nodes, and no slot is dealt out twice. -/
  owner : ∀ v, v.raw < t.varCount → ∃! n, v ∈ t.varList n
  owned : ∀ n, (t.varList n).Nodup ∧ ∀ v ∈ t.varList n, v.raw < t.varCount
  /-- The walk from a node meets it and what is below it. -/
  walk : ∀ n m, m ∈ t.preorder n ↔ t.Below n m
  /-- It meets something twice only where a list that it goes along repeats a child. -/
  once : ∀ n, (t.preorder n).Nodup ↔ ∀ m, t.Below n m → (t.childList m).Nodup

theorem forest_of_linked {t : Tree} (linked : t.Linked) : t.Forest where
  parent_iff := linked.parent_iff
  older p c held := holds_older held
  unit p c held := by
    have known := holds_known held
    have there : t.node? p = some t.nodes[p.raw] := Array.getElem?_eq_getElem known
    have own : t.unitOf p = some t.nodes[p.raw].unit := by rw [unitOf, there]; rfl
    exact ⟨_, own, (linked.unit p c held).trans own⟩
  occurs c := by
    cases parent : t.parentOf c with
    | some p => exact count_child_lists linked.single ((linked.parent_iff p c).1 parent)
    | none =>
      refine List.count_eq_zero.2 fun mem => ?_
      obtain ⟨i, -, held⟩ := List.mem_flatMap.1 mem
      rw [(linked.parent_iff ⟨i⟩ c).2 held] at parent
      cases parent
  owner v slot := by
    obtain ⟨n, mine⟩ := (slot_iff linked).1 slot
    exact ⟨n, mine, fun m other => (var_lists_apart linked).2 m n v other mine⟩
  owned n := ⟨(var_lists_apart linked).1 n, fun v mine => (slot_iff linked).2 ⟨n, mine⟩⟩
  walk := mem_preorder
  once := nodup_preorder_iff linked.single

end Tree

/-- Whatever operations are performed, the tree is a forest; and no node is listed twice, and
no walk meets a node twice, exactly when no node was added with one child twice. -/
theorem operations_grow_forest (ops : List TreeOperation) :
    (Tree.empty.after ops).Forest ∧
      ((Tree.empty.after ops).childLists.Nodup ∧ (∀ n, ((Tree.empty.after ops).preorder n).Nodup) ↔
        ∀ new ∈ Tree.empty.added ops, new.children.Nodup) := by
  have linked := Tree.linked_after ops Tree.linked_empty
  have forest := Tree.forest_of_linked linked
  refine ⟨forest, ?_⟩
  have lists : (∀ p, ((Tree.empty.after ops).childList p).Nodup) ↔
      ∀ new ∈ Tree.empty.added ops, new.children.Nodup := by
    rw [Tree.child_lists_after]
    exact and_iff_right fun p => List.nodup_nil
  rw [Tree.nodup_child_lists_iff linked, ← lists]
  exact and_iff_left_of_imp fun each n => (forest.once n).2 fun m _ => each m

/-- A node over some children, with one logic variable. -/
def NewNode.over (children : List NodeId) : NewNode :=
  { kind := ⟨0⟩, unit := ⟨0⟩, children, text := Symbol.empty, span := Span.dummy, varCount := 1 }

/-- Two leaves below one node, and a second parent for the first leaf, which is refused. -/
def TreeOperation.pair : List TreeOperation :=
  [addUnit Symbol.empty, addNode (.over []), addNode (.over []), addNode (.over [⟨0⟩, ⟨1⟩]),
    addNode (.over [⟨0⟩])]

theorem operations_grow_forest_of_pair :
    (Tree.empty.after TreeOperation.pair).size = 3 ∧ (Tree.empty.after TreeOperation.pair).Forest ∧
      (Tree.empty.after TreeOperation.pair).childLists.Nodup ∧
      ∀ n, ((Tree.empty.after TreeOperation.pair).preorder n).Nodup := by
  have grown := operations_grow_forest TreeOperation.pair
  refine ⟨rfl, grown.1, grown.2.2 ?_⟩
  have added : Tree.empty.added TreeOperation.pair =
      [.over [], .over [], .over [⟨0⟩, ⟨1⟩]] := rfl
  rw [added]
  decide

/-- A leaf, and a node that names it twice. -/
def TreeOperation.twice : List TreeOperation :=
  [addUnit Symbol.empty, addNode (.over []), addNode (.over [⟨0⟩, ⟨0⟩])]

/-- The node that names its child twice is accepted, and the walk from it meets the child
twice. -/
theorem repeated_child_is_met_twice :
    (Tree.empty.after TreeOperation.twice).parentOf ⟨0⟩ = some ⟨1⟩ ∧
      ¬ (Tree.empty.after TreeOperation.twice).childLists.Nodup ∧
      (Tree.empty.after TreeOperation.twice).preorder ⟨1⟩ = [⟨1⟩, ⟨0⟩, ⟨0⟩] := by
  have top : (Tree.empty.after TreeOperation.twice).childList ⟨1⟩ = [⟨0⟩, ⟨0⟩] := rfl
  have leaf : (Tree.empty.after TreeOperation.twice).childList ⟨0⟩ = [] := rfl
  refine ⟨rfl, by decide, ?_⟩
  simp [Tree.preorder_eq, top, leaf]

end Trellis
