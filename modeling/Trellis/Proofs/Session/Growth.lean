import Trellis.Proofs.Session.Changes

/-! A session only grows: its nodes and units stay where they are, what they
received once they keep, and the environment of a unit is never replaced. The
environment of a unit stands for its own root, and it is there as soon as a
population of that root was begun with nothing populated around it. -/
namespace Trellis

/-- Every entry of an array is still at its place, changed as `R` allows. -/
def Grown (R : α → α → Prop) (before after : Array α) : Prop :=
  ∀ (i : Nat) (a : α), before[i]? = some a → ∃ b, after[i]? = some b ∧ R a b

section Grown
variable {R : α → α → Prop}

theorem grown_refl (same : ∀ a, R a a) (xs : Array α) : Grown R xs xs :=
  fun _ a held => ⟨a, held, same a⟩

theorem grown_trans (follow : ∀ a b c, R a b → R b c → R a c) {xs ys zs : Array α}
    (first : Grown R xs ys) (rest : Grown R ys zs) : Grown R xs zs := by
  intro i a held
  obtain ⟨b, still, ab⟩ := first i a held
  obtain ⟨c, later, bc⟩ := rest i b still
  exact ⟨c, later, follow a b c ab bc⟩

theorem grown_push (same : ∀ a, R a a) (xs : Array α) (x : α) : Grown R xs (xs.push x) := by
  intro i a held
  have old : i < xs.size := (Array.getElem?_eq_some_iff.1 held).1
  refine ⟨a, ?_, same a⟩
  rw [Array.getElem?_push, if_neg (by omega), held]

theorem grown_modify (same : ∀ a, R a a) {xs : Array α} {f : α → α}
    (change : ∀ a, xs[i]? = some a → R a (f a)) : Grown R xs (xs.modify i f) := by
  intro j a held
  rw [Array.getElem?_modify, held]
  by_cases here : i = j
  · subst here
    exact ⟨f a, by simp, change a held⟩
  · exact ⟨a, by simp [here], same a⟩

theorem grown_size {xs ys : Array α} (grown : Grown R xs ys) : xs.size ≤ ys.size := by
  refine Nat.le_of_not_lt fun there => ?_
  obtain ⟨b, found, -⟩ := grown ys.size xs[ys.size] (Array.getElem?_eq_getElem there)
  simp at found

end Grown

/-! ## Nodes and units -/

/-- A node as it may look later. It can have received a parent and its
environments. -/
structure Node.Later (a b : Node) : Prop where
  kind : b.kind = a.kind
  children : b.children = a.children
  unit : b.unit = a.unit
  text : b.text = a.text
  span : b.span = a.span
  vars : b.vars = a.vars
  parent : ∀ p, a.parent = some p → b.parent = some p
  envs : ∀ e, a.envs = some e → b.envs = some e

/-- A unit as it may look later. It can have received its root. -/
structure AnalysisUnit.Later (a b : AnalysisUnit) : Prop where
  name : b.name = a.name
  root : ∀ r, a.root = some r → b.root = some r

namespace Node

theorem later_refl (a : Node) : a.Later a :=
  ⟨rfl, rfl, rfl, rfl, rfl, rfl, fun _ h => h, fun _ h => h⟩

theorem later_trans (a b c : Node) (first : a.Later b) (rest : b.Later c) : a.Later c where
  kind := rest.kind.trans first.kind
  children := rest.children.trans first.children
  unit := rest.unit.trans first.unit
  text := rest.text.trans first.text
  span := rest.span.trans first.span
  vars := rest.vars.trans first.vars
  parent p h := rest.parent p (first.parent p h)
  envs e h := rest.envs e (first.envs e h)

theorem populated_later {a b : Node} (later : a.Later b) (populated : a.isPopulated) :
    b.isPopulated := by
  obtain ⟨e, given⟩ := Option.isSome_iff_exists.1 populated
  exact Option.isSome_iff_exists.2 ⟨e, later.envs e given⟩

end Node

namespace AnalysisUnit

theorem later_refl (a : AnalysisUnit) : a.Later a := ⟨rfl, fun _ h => h⟩

theorem later_trans (a b c : AnalysisUnit) (first : a.Later b) (rest : b.Later c) : a.Later c :=
  ⟨rest.name.trans first.name, fun r h => rest.root r (first.root r h)⟩

end AnalysisUnit

/-! ## Trees -/

/-- A tree as it may look later. -/
structure Tree.Later (s t : Tree) : Prop where
  nodes : Grown Node.Later s.nodes t.nodes
  units : Grown AnalysisUnit.Later s.units t.units

namespace Tree

theorem later_refl (t : Tree) : t.Later t :=
  ⟨grown_refl Node.later_refl _, grown_refl AnalysisUnit.later_refl _⟩

theorem later_trans {r s t : Tree} (first : r.Later s) (rest : s.Later t) : r.Later t :=
  ⟨grown_trans Node.later_trans first.nodes rest.nodes,
    grown_trans AnalysisUnit.later_trans first.units rest.units⟩

/-- Only nodes that are free, or that are held by `parent` already, change hands. -/
theorem adopt_grown {nodes : Array Node} (free : ∀ c ∈ children, ∀ a, nodes[c.raw]? = some a →
    a.parent = none ∨ a.parent = some parent) :
    Grown Node.Later nodes (adopt nodes parent children) := by
  induction children generalizing nodes with
  | nil => exact grown_refl Node.later_refl _
  | cons c rest ih =>
    have held : Grown Node.Later nodes (nodes.modify c.raw ({ · with parent := some parent })) := by
      refine grown_modify Node.later_refl fun a here => ?_
      refine ⟨rfl, rfl, rfl, rfl, rfl, rfl, fun p given => ?_, fun _ h => h⟩
      rcases free c List.mem_cons_self a here with none_ | same
      · simp [none_] at given
      · rw [← given, same]
    refine grown_trans Node.later_trans held (ih fun d mem b there => ?_)
    rw [Array.getElem?_modify] at there
    split at there
    · obtain ⟨a, -, rfl⟩ := Option.map_eq_some_iff.1 there
      exact .inr rfl
    · exact free d (List.mem_cons_of_mem c mem) b there

theorem add_node_later {s t : Tree} (made : s.addNode new = .ok (n, t)) : s.Later t := by
  unfold addNode at made
  split at made
  · cases made
  · split at made
    · cases made
    · next accepted =>
      cases made
      refine ⟨grown_trans Node.later_trans (adopt_grown fun c mem a held => .inl ?_)
        (grown_push Node.later_refl _ _), grown_refl AnalysisUnit.later_refl _⟩
      obtain ⟨b, there, free, -⟩ := checkChildren_eq_ok accepted c mem
      unfold node? at there
      rw [held] at there
      cases there
      exact free

theorem set_root_ok {s t : Tree} (given : s.setRoot u root = .ok t) :
    ∃ node info, s.node? root = some node ∧ s.units[u.raw]? = some info ∧ info.root = none ∧
      t = { s with units := s.units.modify u.raw ({ · with root := some root }) } := by
  simp only [setRoot, node, unit, bind, Except.bind, pure, Except.pure, throw, throwThe,
    MonadExceptOf.throw] at given
  cases held : s.node? root with
  | none => simp [held] at given
  | some node =>
    cases found : s.units[u.raw]? with
    | none => simp [held, found] at given
    | some info =>
      cases free : info.root with
      | some r => simp [held, found, free] at given
      | none =>
        simp only [held, found, free, Option.isSome_none, Bool.false_eq_true, if_false] at given
        exact ⟨node, info, rfl, rfl, free, (Except.ok.inj given).symm⟩

theorem set_root_later {s t : Tree} (given : s.setRoot u root = .ok t) : s.Later t := by
  obtain ⟨-, info, -, found, free, rfl⟩ := set_root_ok given
  refine ⟨grown_refl Node.later_refl _, grown_modify AnalysisUnit.later_refl fun a here => ?_⟩
  obtain rfl : info = a := Option.some.inj (found.symm.trans here)
  exact ⟨rfl, fun r had => by simp [free] at had⟩

theorem set_envs_ok {s t : Tree} (given : s.setEnvs n envs = .ok t) :
    ∃ node, s.node? n = some node ∧ node.envs = none ∧ t.units = s.units ∧
      t.nodes = s.nodes.modify n.raw ({ · with envs := some envs }) := by
  simp only [setEnvs, Tree.node, bind, Except.bind, pure, Except.pure, throw, throwThe,
    MonadExceptOf.throw] at given
  cases held : s.node? n with
  | none => simp [held] at given
  | some node =>
    cases fresh : node.envs with
    | some e => simp [held, fresh] at given
    | none =>
      simp only [held, fresh, Option.isSome_none, Bool.false_eq_true, if_false] at given
      cases given
      exact ⟨node, rfl, fresh, rfl, rfl⟩

theorem set_envs_later {s t : Tree} (given : s.setEnvs n envs = .ok t) : s.Later t := by
  obtain ⟨node, held, fresh, units, nodes⟩ := set_envs_ok given
  refine ⟨?_, units ▸ grown_refl AnalysisUnit.later_refl _⟩
  rw [nodes]
  refine grown_modify Node.later_refl fun a here => ?_
  obtain rfl : node = a := Option.some.inj (held.symm.trans here)
  exact ⟨rfl, rfl, rfl, rfl, rfl, rfl, fun _ h => h, fun e had => by simp [fresh] at had⟩

theorem set_envs_populates {s t : Tree} (given : s.setEnvs n envs = .ok t) :
    ∃ node, t.node? n = some node ∧ node.isPopulated := by
  obtain ⟨node, held, -, -, nodes⟩ := set_envs_ok given
  refine ⟨{ node with envs := some envs }, ?_, rfl⟩
  unfold node? at held ⊢
  simp [nodes, Array.getElem?_modify, held]

/-- The environment around a node stays the same once it is there. -/
theorem around_env_later {s t : Tree} (later : s.Later t) {a b : Node} (same : a.Later b)
    (around : s.aroundEnv a = some e) : t.aroundEnv b = some e := by
  simp only [aroundEnv, Option.bind_eq_bind, Option.bind_eq_some_iff, Option.pure_def,
    Option.some.injEq] at around ⊢
  obtain ⟨p, parent, q, held, envs, given, rfl⟩ := around
  obtain ⟨q', still, kept⟩ := later.nodes p.raw q held
  exact ⟨p, same.parent p parent, q', still, envs, kept.envs envs given, rfl⟩

end Tree

/-! ## Sessions -/

/-- A session as it may look later. -/
structure Session.Later (s t : Session) : Prop where
  tree : s.tree.Later t.tree
  unitEnv : ∀ u e, s.unitEnv u = some e → t.unitEnv u = some e

namespace Session

theorem later_refl (s : Session) : s.Later s := ⟨s.tree.later_refl, fun _ _ h => h⟩

theorem later_trans {r s t : Session} (first : r.Later s) (rest : s.Later t) : r.Later t :=
  ⟨Tree.later_trans first.tree rest.tree, fun u e h => rest.unitEnv u e (first.unitEnv u e h)⟩

theorem later_of_tree {s t : Session} (tree : s.tree.Later t.tree)
    (same : t.unitEnvs = s.unitEnvs) : s.Later t := by
  refine ⟨tree, fun u e held => ?_⟩
  unfold unitEnv at held ⊢
  rw [same, held]

theorem node_later {s t : Session} (later : s.Later t) (held : s.tree.node? n = some a) :
    ∃ b, t.tree.node? n = some b ∧ a.Later b := later.tree.nodes n.raw a held

theorem root_later {s t : Session} (later : s.Later t) (held : s.root u = some r) :
    t.root u = some r := by
  unfold root at held ⊢
  obtain ⟨info, found, given⟩ := Option.bind_eq_some_iff.1 held
  obtain ⟨info', still, kept⟩ := later.tree.units u.raw info found
  rw [still]
  exact kept.root r given

/-- The environment of a unit is the first one that was added for it. -/
theorem unit_env_add (s : Session) (u v : UnitId) (e : EnvId) :
    (s.addUnitEnv u e).unitEnv v = (s.unitEnv v).or (if v = u then some e else none) := by
  unfold addUnitEnv
  split
  · next known =>
    obtain ⟨old, known⟩ := Option.isSome_iff_exists.1 known
    by_cases same : v = u
    · simp [same, known]
    · simp [same]
  · simp only [unitEnv, List.lookup_append, List.lookup_cons, List.lookup_nil]
    by_cases same : v = u
    · simp [same]
    · simp [same, beq_false_of_ne same]

/-- The first environment opened for the root of a unit becomes the one of the unit. -/
theorem unit_env_open (s : Session) (root : NodeId) (u v : UnitId) :
    (s.openTop root u).2.unitEnv v = (s.unitEnv v).or
      (if s.root u = some root ∧ v = u then some (s.openTop root u).1 else none) := by
  have same : { s with envs := (s.envs.create none (some root)).2 }.root u = s.root u := rfl
  by_cases rooted : s.root u = some root
  · simp only [openTop, same, rooted, if_true, unit_env_add, true_and]
    rfl
  · simp only [openTop, same, rooted, if_false, false_and, Option.or_none]
    rfl

theorem open_top_later (s : Session) (root : NodeId) (unit : UnitId) :
    s.Later (s.openTop root unit).2 := by
  refine ⟨?_, fun u e known => by rw [unit_env_open, known, Option.some_or]⟩
  unfold openTop addUnitEnv
  dsimp only
  split
  · split <;> exact Tree.later_refl _
  · exact Tree.later_refl _

theorem set_root_ok {s t : Session} (given : s.setRoot u n = .ok t) :
    ∃ tree, s.tree.setRoot u n = .ok tree ∧ t = { s with tree } := by
  unfold setRoot at given
  cases set_ : s.tree.setRoot u n with
  | error e => simp [set_, Except.map] at given
  | ok tree =>
    simp only [set_, Except.map, Except.ok.injEq] at given
    exact ⟨tree, rfl, given.symm⟩

end Session

section Changes
variable {S : Setting}

theorem change_later (step : Change S h k) : h.now.Later k.now := by
  cases step with
  | aside step =>
    obtain ⟨tree, -, unitEnvs⟩ := aside_frame step
    exact Session.later_of_tree (by rw [tree]; exact Tree.later_refl _) unitEnvs
  | envs step => exact Session.later_of_tree (Tree.later_refl _) rfl
  | assigned v x => exact Session.later_of_tree ⟨(Tree.later_refl _).1, (Tree.later_refl _).2⟩ rfl
  | unit name =>
    refine Session.later_of_tree ⟨(Tree.later_refl _).1, ?_⟩ rfl
    exact grown_push AnalysisUnit.later_refl _ _
  | node made => exact Session.later_of_tree (Tree.add_node_later made) rfl
  | rooted given =>
    obtain ⟨tree, set_, rfl⟩ := Session.set_root_ok given
    exact Session.later_of_tree (Tree.set_root_later set_) rfl
  | opened held fresh outermost => exact Session.open_top_later _ _ _
  | populated held computed given => exact Session.later_of_tree (Tree.set_envs_later given) rfl

/-- What each change keeps is kept by a path. -/
theorem path_keeps {P : History → Prop} (step : ∀ h k, Change S h k → P h → P k)
    (path : Path S h k) (start : P h) : P k := by
  induction path with
  | refl => exact start
  | tail _ last ih => exact step _ _ last ih

theorem path_later (path : Path S h k) : h.now.Later k.now :=
  path_keeps (P := fun l => h.now.Later l.now)
    (fun _ _ step sofar => Session.later_trans sofar (change_later step)) path
    (Session.later_refl _)

/-- The population of the root of `u` is begun, with nothing populated around it, and `e` is
opened for it. -/
def Session.Opens (s : Session) (u : UnitId) (e : EnvId) (t : Session) : Prop :=
  ∃ root node, s.root u = some root ∧ s.tree.node? root = some node ∧ node.unit = u ∧
    node.envs = none ∧ s.tree.aroundEnv node = none ∧ s.openTop root u = (e, t)

/-- A unit that has no environment receives the one that is opened for its root, and in no
other way. -/
theorem change_unit_env (step : Change S h k) (known : k.now.unitEnv u = some e) :
    h.now.unitEnv u = some e ∨
      h.now.unitEnv u = none ∧ h.now.Opens u e k.now ∧ k.populated = h.populated := by
  cases step with
  | aside step =>
    obtain ⟨-, -, unitEnvs⟩ := aside_frame step
    unfold Session.unitEnv at known ⊢
    rw [unitEnvs] at known
    exact .inl known
  | rooted given =>
    obtain ⟨tree, -, rfl⟩ := Session.set_root_ok given
    exact .inl known
  | opened held fresh outermost =>
    dsimp only at known ⊢
    rw [Session.unit_env_open] at known
    rcases Option.or_eq_some_iff.1 known with old | ⟨unknown, new⟩
    · exact .inl old
    · split at new
      · next own =>
        obtain ⟨rooted, rfl⟩ := own
        cases new
        exact .inr ⟨unknown, ⟨_, _, rooted, held, rfl, fresh, outermost, rfl⟩, rfl⟩
      · cases new
  | _ => exact .inl known

end Changes

/-- A unit has an environment only if it has a root, which is a node of its own. -/
def Session.OwnRoots (s : Session) : Prop :=
  ∀ u e, s.unitEnv u = some e →
    ∃ root node, s.root u = some root ∧ s.tree.node? root = some node ∧ node.unit = u

theorem own_root {s : Session} (own : s.OwnRoots) (known : s.unitEnv u = some e)
    (rooted : s.root u = some root) (held : s.tree.node? root = some node) : node.unit = u := by
  obtain ⟨other, node', rooted', held', same⟩ := own u e known
  obtain rfl : root = other := Option.some.inj (rooted.symm.trans rooted')
  obtain rfl : node = node' := Option.some.inj (held.symm.trans held')
  exact same

theorem unit_env_of_rootless {s : Session} (own : s.OwnRoots) (rootless : s.root u = none) :
    s.unitEnv u = none := by
  cases known : s.unitEnv u with
  | none => rfl
  | some e =>
    obtain ⟨root, node, rooted, -⟩ := own u e known
    rw [rootless] at rooted
    cases rooted

/-- Every node that was recorded is populated. -/
def History.Recorded (h : History) : Prop :=
  ∀ n e, (n, e) ∈ h.populated → ∃ node, h.now.tree.node? n = some node ∧ node.isPopulated

/-- A node with an environment around it, which its population starts from. -/
def Tree.Enclosed (t : Tree) (n : NodeId) : Prop :=
  ∃ node e, t.node? n = some node ∧ t.aroundEnv node = some e

theorem enclosed_later {s t : Tree} (later : s.Later t) (enclosed : s.Enclosed n) :
    t.Enclosed n := by
  obtain ⟨a, e, held, around⟩ := enclosed
  obtain ⟨b, still, same⟩ := later.nodes n.raw a held
  exact ⟨b, e, still, Tree.around_env_later later same around⟩

section Paths
variable {S : Setting}

theorem path_own_roots (path : Path S h k) (start : h.now.OwnRoots) : k.now.OwnRoots := by
  refine path_keeps (P := fun l => l.now.OwnRoots) (fun l m step own u e known => ?_) path start
  have later := change_later step
  have rooted : ∃ root node, l.now.root u = some root ∧ l.now.tree.node? root = some node ∧
      node.unit = u := by
    rcases change_unit_env step known with old | ⟨-, ⟨root, node, rooted, held, own, -⟩, -⟩
    · exact own u e old
    · exact ⟨root, node, rooted, held, own⟩
  obtain ⟨root, a, rooted, held, own⟩ := rooted
  obtain ⟨b, still, same⟩ := Session.node_later later held
  exact ⟨root, b, Session.root_later later rooted, still, same.unit.trans own⟩

theorem path_recorded (path : Path S h k) (start : h.Recorded) : k.Recorded := by
  refine path_keeps (fun l m step sofar n e mem => ?_) path start
  have old (mem : (n, e) ∈ l.populated) :
      ∃ node, m.now.tree.node? n = some node ∧ node.isPopulated := by
    obtain ⟨a, held, populated⟩ := sofar n e mem
    obtain ⟨b, still, same⟩ := Session.node_later (change_later step) held
    exact ⟨b, still, Node.populated_later same populated⟩
  cases step with
  | populated held computed given =>
    rcases List.mem_cons.1 mem with new | mem
    · cases new
      exact Tree.set_envs_populates given
    · exact old mem
  | _ => exact old mem

/-- A unit whose root has an environment around it does not receive one of its
own. -/
theorem path_enclosed (path : Path S h k) (rooted : h.now.root u = some root)
    (enclosed : h.now.tree.Enclosed root) (none_ : h.now.unitEnv u = none) :
    k.now.unitEnv u = none := by
  refine (path_keeps (P := fun l => l.now.root u = some root ∧ l.now.tree.Enclosed root ∧
    l.now.unitEnv u = none) ?_ path ⟨rooted, enclosed, none_⟩).2.2
  intro l m step ⟨rooted, enclosed, none_⟩
  have later := change_later step
  refine ⟨Session.root_later later rooted, enclosed_later later.tree enclosed, ?_⟩
  cases known : m.now.unitEnv u with
  | none => rfl
  | some e =>
    rcases change_unit_env step known with
      old | ⟨-, ⟨other, node, own, held, -, -, outermost, -⟩, -⟩
    · rw [none_] at old
      cases old
    · obtain rfl : root = other := Option.some.inj (rooted.symm.trans own)
      obtain ⟨b, around, still, inside⟩ := enclosed
      rw [held] at still
      cases still
      rw [outermost] at inside
      cases inside

end Paths
end Trellis
