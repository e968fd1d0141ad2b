import Trellis.Proofs.Session.Marks

/-! What a session keeps for good. Nodes and environments stay where they are, and what
was found out about them once stays so: an environment keeps its parent, its older
bindings and its references, and a reference that was resolved keeps its value. A node
without a parent stays without one if the plans of units take in no nodes but those
that they make. -/
namespace Trellis

/-- A reference as it may look later. -/
structure Reference.Later (a b : Reference) : Prop where
  thunk : b.thunk = a.thunk
  crossing : b.crossing = a.crossing
  state : ∀ value, a.state = .resolved value → b.state = .resolved value

theorem Reference.later_refl (a : Reference) : a.Later a := ⟨rfl, rfl, fun _ h => h⟩

theorem Reference.later_trans (a b c : Reference) (first : a.Later b) (rest : b.Later c) :
    a.Later c where
  thunk := rest.thunk.trans first.thunk
  crossing := rest.crossing.trans first.crossing
  state value h := rest.state value (first.state value h)

/-- An environment as it may look later. -/
structure Scope.Later (a b : Scope) : Prop where
  parent : b.parent = a.parent
  owner : b.owner = a.owner
  bindings : ∀ symbol, a.newestFirst symbol <:+ b.newestFirst symbol
  references : Grown Reference.Later a.references b.references

theorem Scope.later_refl (a : Scope) : a.Later a :=
  ⟨rfl, rfl, fun _ => List.suffix_refl _, grown_refl Reference.later_refl _⟩

theorem Scope.later_trans (a b c : Scope) (first : a.Later b) (rest : b.Later c) : a.Later c where
  parent := rest.parent.trans first.parent
  owner := rest.owner.trans first.owner
  bindings symbol := (first.bindings symbol).trans (rest.bindings symbol)
  references := grown_trans Reference.later_trans first.references rest.references

/-- The environments as they may look later. -/
def EnvStore.Later (s t : EnvStore) : Prop := Grown Scope.Later s.scopes t.scopes

namespace EnvStore

theorem later_refl (s : EnvStore) : s.Later s := grown_refl Scope.later_refl _

theorem later_trans {r s t : EnvStore} (first : r.Later s) (rest : s.Later t) : r.Later t :=
  grown_trans Scope.later_trans first rest

theorem create_later (s : EnvStore) (parent : Option EnvId) (owner : Option NodeId) :
    s.Later (s.create parent owner).2 :=
  grown_push Scope.later_refl _ _

theorem add_binding_later (s : EnvStore) (env : EnvId) (symbol : Symbol) (entity : Entity)
    (metadata : Metadata) : s.Later (s.addBinding env symbol entity metadata).2 := by
  unfold addBinding
  split
  · exact later_refl s
  · split
    · exact later_refl s
    · refine grown_modify Scope.later_refl fun a _ => ⟨rfl, rfl, fun other => ?_, ?_⟩
      · rw [Scope.newestFirst_bind]
        split
        · next same => exact same ▸ List.suffix_cons _ _
        · exact List.suffix_refl _
      · exact grown_refl Reference.later_refl _

theorem add_reference_later (s : EnvStore) (env : EnvId) (thunk : EnvThunk) (crossing : Crossing) :
    s.Later (s.addReference env thunk crossing).2 := by
  unfold addReference
  split
  · exact later_refl s
  · exact grown_modify Scope.later_refl fun a _ =>
      ⟨rfl, rfl, fun _ => List.suffix_refl _, grown_push Reference.later_refl _ _⟩

/-- A reference that has not been resolved can change its state. -/
theorem set_state_later {s : EnvStore} (held : s.reference? env index = some reference)
    (open_ : ∀ value, reference.state ≠ .resolved value) (state : RefState) :
    s.Later (s.setState env index state) := by
  refine grown_modify Scope.later_refl fun scope here =>
    ⟨rfl, rfl, fun _ => List.suffix_refl _, grown_modify Reference.later_refl fun a there =>
      ⟨rfl, rfl, fun value resolved => ?_⟩⟩
  rw [reference?_eq, scope?, here, Option.bind_some, there] at held
  cases held
  exact (open_ value resolved).elim

section Later
variable {s t : EnvStore} (later : s.Later t)
include later

theorem scope_later (held : s.scope? e = some a) : ∃ b, t.scope? e = some b ∧ a.Later b :=
  later e.raw a held

theorem reference_later (held : s.reference? e i = some a) :
    ∃ b, t.reference? e i = some b ∧ a.Later b := by
  rw [reference?_eq] at held
  obtain ⟨scope, found, held⟩ := Option.bind_eq_some_iff.1 held
  obtain ⟨scope', still, kept⟩ := scope_later later found
  obtain ⟨b, there, same⟩ := kept.references i a held
  exact ⟨b, by rw [reference?_eq, still]; exact there, same⟩

theorem newest_first_later (e : EnvId) (symbol : Symbol) :
    s.newestFirst e symbol <:+ t.newestFirst e symbol := by
  unfold newestFirst
  cases held : s.scope? e with
  | none => exact List.nil_suffix
  | some a =>
    obtain ⟨b, still, kept⟩ := scope_later later held
    rw [still]
    exact kept.bindings symbol

theorem references_later (e : EnvId) : (s.references e).size ≤ (t.references e).size := by
  unfold references
  cases held : s.scope? e with
  | none => exact Nat.zero_le _
  | some a =>
    obtain ⟨b, still, kept⟩ := scope_later later held
    rw [still]
    exact grown_size kept.references

theorem parent_later (known : s.parent e = some p) : t.parent e = some p := by
  unfold parent at known ⊢
  obtain ⟨a, held, parent⟩ := Option.bind_eq_some_iff.1 known
  obtain ⟨b, still, kept⟩ := scope_later later held
  rw [still, Option.bind_some, kept.parent, parent]

end Later

end EnvStore

/-! ## Diagnostics -/

namespace DiagnosticBag

theorem kept_report (b : DiagnosticBag) (d : Diagnostic) (mem : e ∈ b.kept) :
    e ∈ (b.report d).kept := by
  unfold report
  split
  · exact mem
  · split
    · exact mem
    · exact Array.mem_push_of_mem d mem

theorem dropped_report (b : DiagnosticBag) (d : Diagnostic) :
    b.dropped ≤ (b.report d).dropped := by
  unfold report
  split
  · exact Nat.le_succ _
  · split <;> exact Nat.le_refl _

/-- What is reported is kept, unless something is dropped. -/
theorem kept_or_dropped (b : DiagnosticBag) (d : Diagnostic) :
    d ∈ (b.report d).kept ∨ b.dropped < (b.report d).dropped := by
  unfold report
  split
  · exact .inr (Nat.lt_succ_self _)
  · split
    · next repeated =>
      rw [Bool.and_eq_true] at repeated
      exact .inl ((b.mem_seen d).1 (Std.HashSet.contains_iff_mem.1 repeated.2))
    · exact .inl Array.mem_push_self

end DiagnosticBag

/-! ## Sessions -/

/-- A plan whose nodes take in only nodes that the plan made before them. -/
def UnitPlan.SelfContained (plan : UnitPlan) : Prop :=
  ∀ (i : Nat) (kind : KindId) (children : List PlanRef),
    plan.nodes[i]? = some (.inner kind children) → ∀ ref ∈ children, ∃ j < i, ref = .planned j

/-- Whether all plans of a session are such. -/
def Session.Tidy (s : Session) : Prop :=
  ∀ name plan, s.plan name = some plan → plan.SelfContained

/-- A session at a later point of a run. -/
structure Session.Onward (s t : Session) : Prop where
  tree : s.tree.Later t.tree
  plans : t.plans = s.plans
  parents : s.Tidy → ∀ n a b, s.tree.node? n = some a → t.tree.node? n = some b →
    b.parent = a.parent
  envs : s.envs.Later t.envs
  kept : ∀ d ∈ s.bag.kept, d ∈ t.bag.kept
  dropped : s.bag.dropped ≤ t.bag.dropped

namespace Session

theorem tidy_of_plans {s t : Session} (same : t.plans = s.plans) (tidy : s.Tidy) : t.Tidy := by
  intro name plan known
  unfold Session.plan at known
  rw [same] at known
  exact tidy name plan known

theorem onward_of_frame {s t : Session} (nodes : t.tree.nodes = s.tree.nodes)
    (units : Grown AnalysisUnit.Later s.tree.units t.tree.units) (plans : t.plans = s.plans)
    (envs : s.envs.Later t.envs) (bag : t.bag = s.bag) : s.Onward t where
  tree := ⟨nodes ▸ grown_refl Node.later_refl _, units⟩
  plans := plans
  parents _ n a b held held' := by
    unfold Tree.node? at held held'
    rw [nodes, held] at held'
    rw [Option.some.inj held']
  envs := envs
  kept d mem := bag ▸ mem
  dropped := bag ▸ Nat.le_refl _

/-- What changes neither nodes nor units nor environments. -/
theorem onward_of_same {s t : Session} (nodes : t.tree.nodes = s.tree.nodes)
    (units : t.tree.units = s.tree.units) (plans : t.plans = s.plans) (envs : t.envs = s.envs)
    (bag : t.bag = s.bag) : s.Onward t :=
  onward_of_frame nodes (units ▸ grown_refl AnalysisUnit.later_refl _) plans
    (envs ▸ EnvStore.later_refl _) bag

theorem onward_refl (s : Session) : s.Onward s := onward_of_same rfl rfl rfl rfl rfl

theorem onward_memo (s : Session) (memo : Memo) : s.Onward { s with memo } :=
  onward_of_same rfl rfl rfl rfl rfl

theorem onward_deeper (s : Session) : s.Onward s.deeper := onward_of_same rfl rfl rfl rfl rfl

theorem onward_shallower (s : Session) : s.Onward s.shallower := onward_of_same rfl rfl rfl rfl rfl

theorem onward_trans {r s t : Session} (first : r.Onward s) (rest : s.Onward t) : r.Onward t where
  tree := Tree.later_trans first.tree rest.tree
  plans := rest.plans.trans first.plans
  parents tidy n a c held held' := by
    obtain ⟨b, there, -⟩ := first.tree.nodes n.raw a held
    exact (rest.parents (tidy_of_plans first.plans tidy) n b c there held').trans
      (first.parents tidy n a b held there)
  envs := EnvStore.later_trans first.envs rest.envs
  kept d mem := rest.kept d (first.kept d mem)
  dropped := Nat.le_trans first.dropped rest.dropped

theorem onward_envs {s : Session} {envs : EnvStore} (later : s.envs.Later envs) :
    s.Onward { s with envs } :=
  onward_of_frame rfl (grown_refl AnalysisUnit.later_refl _) rfl later rfl

theorem onward_report (s : Session) (code : ErrorCode) (message : String) (location : Location) :
    s.Onward (s.report code message location) where
  tree := Tree.later_refl _
  plans := rfl
  parents _ n a b held held' := by rw [Option.some.inj (held.symm.trans held')]
  envs := EnvStore.later_refl _
  kept d mem := DiagnosticBag.kept_report _ _ mem
  dropped := DiagnosticBag.dropped_report _ _

theorem onward_set_envs {s : Session} {found : NodeEnvs} {tree : Tree}
    (given : s.tree.setEnvs n found = .ok tree) : s.Onward { s with tree } where
  tree := Tree.set_envs_later given
  plans := rfl
  parents _ m a b held held' := by
    obtain ⟨-, -, -, -, nodes⟩ := Tree.set_envs_ok given
    unfold Tree.node? at held held'
    rw [nodes, Array.getElem?_modify, held] at held'
    split at held' <;> cases held' <;> rfl
  envs := EnvStore.later_refl _
  kept _ mem := mem
  dropped := Nat.le_refl _

theorem onward_set_root {s t : Session} {root : NodeId} (given : s.setRoot u root = .ok t) :
    s.Onward t := by
  obtain ⟨tree, set_, rfl⟩ := set_root_ok given
  have later := Tree.set_root_later set_
  obtain ⟨-, -, -, -, -, rfl⟩ := Tree.set_root_ok set_
  exact onward_of_frame rfl later.units rfl (EnvStore.later_refl _) rfl

theorem onward_new_unit (s : Session) (name : String) : s.Onward (s.newUnit name).2 :=
  onward_of_frame rfl (grown_push AnalysisUnit.later_refl _ _) rfl (EnvStore.later_refl _) rfl

theorem onward_open_top (s : Session) (root : NodeId) (unit : UnitId) :
    s.Onward (s.openTop root unit).2 := by
  obtain ⟨unitEnvs, eq⟩ := open_top_eq s root unit
  rw [eq]
  exact onward_of_frame rfl (grown_refl AnalysisUnit.later_refl _) rfl
    (EnvStore.create_later _ _ _) rfl

end Session

/-! ## Carrying out plans -/

theorem Tree.size_add_node {s t : Tree} (made : s.addNode new = .ok (n, t)) :
    n.raw = s.size ∧ t.size = s.size + 1 := by
  unfold addNode at made
  split at made
  · cases made
  · split at made
    · cases made
    · cases made
      exact ⟨rfl, by simp [size, size_adopt]⟩

/-- What an adoption leaves at each place. -/
theorem Tree.node_adopt {nodes : Array Node} (m : NodeId) : (adopt nodes parent children)[m.raw]? =
    nodes[m.raw]?.map fun a => if m ∈ children then { a with parent := some parent } else a := by
  induction children generalizing nodes with
  | nil => simp [adopt]
  | cons c rest ih =>
    refine ih.trans ?_
    rw [Array.getElem?_modify]
    by_cases same : c.raw = m.raw
    · obtain rfl : c = m := by cases c; cases m; exact congrArg _ same
      rw [if_pos rfl, Option.map_map]
      refine Option.map_congr fun a _ => ?_
      by_cases again : c ∈ rest <;> simp [again]
    · have other : m ≠ c := fun eq => same (congrArg _ eq.symm)
      simp [same, other]

/-- The tree after a node was added, read at one node. -/
theorem Tree.node_of_add_node {s t : Tree} (made : s.addNode new = .ok (n, t)) (m : NodeId) :
    t.node? m = if m = n then some {
        kind := new.kind, children := new.children, parent := none, unit := new.unit,
        text := new.text, span := new.span,
        vars := (List.range new.varCount).map fun i => ⟨s.varCount + i⟩, envs := none }
      else (s.node? m).map fun a =>
        if m ∈ new.children then { a with parent := some n } else a := by
  unfold addNode at made
  split at made
  · cases made
  · split at made
    · cases made
    · cases made
      unfold node?
      rw [Array.getElem?_push, size_adopt]
      by_cases last : m.raw = s.nodes.size
      · have here : m = ⟨s.nodes.size⟩ := by cases m; exact congrArg _ last
        rw [if_pos last, if_pos here]
        rfl
      · have other : m ≠ ⟨s.nodes.size⟩ := fun eq => last (by rw [eq])
        rw [if_neg last, if_neg other, node_adopt]

/-- Of the nodes that are there only the children of a new node are changed. -/
theorem Tree.node_add_node {s t : Tree} (made : s.addNode new = .ok (n, t)) {m : NodeId}
    (old : m.raw < s.size) (other : m ∉ new.children) : t.node? m = s.node? m := by
  have older : m ≠ n := fun same => by
    rw [same, (size_add_node made).1] at old
    exact Nat.lt_irrefl _ old
  simp [node_of_add_node made, older, other]

namespace Session

/-- Sessions of which the second has more nodes, and more texts. -/
structure Extends (s t : Session) : Prop where
  tree : s.tree.Later t.tree
  plans : t.plans = s.plans
  envs : t.envs = s.envs
  bag : t.bag = s.bag
  memo : t.memo = s.memo

instance : Makes (Along Extends) where
  refl _ := ⟨⟨Tree.later_refl _, rfl, rfl, rfl, rfl⟩, List.suffix_refl _⟩
  trans := fun ⟨a, before⟩ ⟨b, after⟩ =>
    ⟨⟨Tree.later_trans a.tree b.tree, b.plans.trans a.plans, b.envs.trans a.envs, b.bag.trans a.bag,
      b.memo.trans a.memo⟩, before.trans after⟩
  interned _ _ _ := ⟨⟨Tree.later_refl _, rfl, rfl, rfl, rfl⟩, List.suffix_refl _⟩
  node _ _ _ _ _ made := ⟨⟨Tree.add_node_later made, rfl, rfl, rfl, rfl⟩, List.suffix_refl _⟩

theorem extends_carry_out (S : Setting) (s : Session) (u : UnitId) (plan : UnitPlan) :
    s.Extends (s.carryOut S u plan).2 := by
  have made : Along Extends ⟨s, []⟩ ⟨(s.carryOut S u plan).2, []⟩ := carry_out_makes s u plan
  exact made.1

theorem new_token_ok {s t : Session} {text : String}
    (made : s.newToken S u kind text = (.ok n, t)) :
    ∃ new, new.children = [] ∧ s.tree.addNode new = .ok (n, t.tree) := by
  unfold newToken at made
  dsimp only at made
  split at made
  · next added =>
    cases made
    obtain ⟨info, tree, -, -, -, given, rfl⟩ := add_node_ok added
    exact ⟨_, rfl, given⟩
  · cases made

theorem new_token_error {s t : Session} {text : String}
    (refused : s.newToken S u kind text = (.error e, t)) : t.tree = s.tree := by
  unfold newToken at refused
  dsimp only at refused
  split at refused
  · cases refused
  · cases refused; rfl

/-- The nodes below `base` are left alone by nodes that take in only nodes from `base`
on. -/
theorem make_nodes_old {base : Nat} {n : NodeId} (old : n.raw < base) (u : UnitId)
    (nodes : List PlannedNode) (s : Session) (made : List NodeId) (above : base ≤ s.tree.size)
    (own : ∀ m ∈ made, base ≤ m.raw)
    (inside : ∀ (i : Nat) (kind : KindId) (children : List PlanRef),
      nodes[i]? = some (.inner kind children) →
      ∀ ref ∈ children, ∃ j < made.length + i, ref = .planned j) :
    (s.makeNodes S u made nodes).2.tree.node? n = s.tree.node? n := by
  induction nodes generalizing s made with
  | nil => rfl
  | cons node rest ih =>
    -- one node more, taking in only nodes from `base` on
    have step (m : NodeId) (t : Session) (new : NewNode)
        (added : s.tree.addNode new = .ok (m, t.tree)) (ours : ∀ c ∈ new.children, base ≤ c.raw) :
        (t.makeNodes S u (made ++ [m]) rest).2.tree.node? n = s.tree.node? n := by
      obtain ⟨next, grown⟩ := Tree.size_add_node added
      have same : t.tree.node? n = s.tree.node? n :=
        Tree.node_add_node added (by omega) fun mem => Nat.not_lt.2 (ours n mem) old
      refine (ih t (made ++ [m]) (by omega) ?_ fun i kind children there ref mem => ?_).trans same
      · intro c mem
        rcases List.mem_append.1 mem with mem | mem
        · exact own c mem
        · rw [List.mem_singleton.1 mem, next]
          exact above
      · obtain ⟨j, lt, same⟩ := inside (i + 1) kind children there ref mem
        exact ⟨j, by rw [List.length_append, List.length_singleton]; omega, same⟩
    cases node with
    | inner kind children =>
      rw [makeNodes]
      split
      · next m t made_ =>
        obtain ⟨info, tree, -, -, -, added, rfl⟩ := add_node_ok made_
        refine step m _ _ added fun c mem => ?_
        obtain ⟨ref, listed, rfl⟩ := List.mem_map.1 mem
        obtain ⟨j, lt, rfl⟩ := inside 0 kind children rfl ref listed
        refine own _ ?_
        have held : made[j]? = some made[j] := List.getElem?_eq_getElem lt
        rw [PlanRef.node, List.getD, held]
        exact List.getElem_mem lt
      · rfl
    | token kind text =>
      rw [makeNodes]
      split
      · next m t made_ =>
        obtain ⟨new, none_, added⟩ := new_token_ok made_
        exact step m t new added fun c mem => by rw [none_] at mem; cases mem
      · next refused =>
        unfold Tree.node?
        rw [new_token_error refused]

theorem onward_carry_out {s : Session} {plan : UnitPlan} (known : s.plan name = some plan)
    (u : UnitId) :
    s.Onward (s.carryOut S u plan).2 := by
  have made := extends_carry_out S s u plan
  refine ⟨made.tree, made.plans, fun tidy n a b held held' => ?_, made.envs ▸ EnvStore.later_refl _,
    fun d mem => made.bag ▸ mem, made.bag ▸ Nat.le_refl _⟩
  have old : n.raw < s.tree.size := (Array.getElem?_eq_some_iff.1 held).1
  have same := make_nodes_old (S := S) old u plan.nodes s [] (Nat.le_refl _)
    (fun m mem => (List.not_mem_nil mem).elim) fun i kind children there ref mem => by
      simpa using tidy name plan known i kind children there ref mem
  rw [show (s.carryOut S u plan).2 = (s.makeNodes S u [] plan.nodes).2 from rfl, same,
    held] at held'
  rw [Option.some.inj held']

end Session

end Trellis
