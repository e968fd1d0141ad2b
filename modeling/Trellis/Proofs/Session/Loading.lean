import Trellis.Proofs.Session.Reachable

/-! Which loads leave their unit populated. A unit that has an environment is
taken as it is, and it has one as soon as its population was begun, whether or
not that got anywhere. So a load that returns a unit need not leave it populated.
What decides is said here in terms of the session before the load. -/
namespace Trellis

/-- The root of the unit is populated, and the environment of the unit is the one
that this population started from. -/
def History.Loaded (h : History) (u : UnitId) : Prop :=
  ∃ root node e, h.now.root u = some root ∧ h.now.tree.node? root = some node ∧
    node.isPopulated ∧ h.now.unitEnv u = some e ∧ (root, e) ∈ h.populated

variable {S : Setting} {depth : Nat}

/-! ## Preparing a unit -/

/-- Histories with the same unit environments. -/
def SameUnitEnvs (h k : History) : Prop := k.now.unitEnvs = h.now.unitEnvs

instance : Makes SameUnitEnvs where
  refl _ := rfl
  trans first rest := rest.trans first
  interned _ _ _ := rfl
  node _ _ _ _ _ _ := rfl

instance : Builds S SameUnitEnvs where
  unit _ _ _ _ _ := rfl
  carried s _ u _ plan _ := carry_out_makes s u plan
  rooted _ _ _ _ _ given := by
    obtain ⟨tree, -, rfl⟩ := Session.set_root_ok given
    rfl

namespace EvalM
open SessionM

theorem root_of_ok {s t : Session} (ran : rootOf S u name plan s = (.ok root, t)) :
    t.root u = some root := by
  unfold rootOf at ran
  split at ran
  · next rooted => cases ran; exact rooted
  · split at ran
    · cases ran
    · split at ran
      · next given =>
        cases ran
        obtain ⟨tree, set_, rfl⟩ := Session.set_root_ok given
        obtain ⟨-, info, -, found, -, rfl⟩ := Tree.set_root_ok set_
        simp [Session.root, Array.getElem?_modify, found]
      · cases ran

theorem prepare_ok {s t : Session} (ran : prepare S name s = (.ok (u, root), t)) :
    t.root u = some root ∧ (s.unitByName name = some u ∨ s.root u = none) := by
  rw [prepare_eq] at ran
  split at ran
  · cases ran
  · next plan _ =>
    split at ran
    · next rooted =>
      cases ran
      refine ⟨root_of_ok rooted, ?_⟩
      unfold Session.openUnit
      split
      · next found => exact .inl found
      · refine .inr ?_
        simp [Session.newUnit, Tree.addUnit, Session.root]
    · cases ran

theorem prepare_unit_env {s t : Session} (ran : prepare S name s = (.ok (u, root), t)) :
    t.unitEnv = s.unitEnv := by
  have same : SameUnitEnvs ⟨s, []⟩ ⟨(prepare S name s).2, []⟩ := prepare_builds name s
  rw [ran] at same
  funext v
  unfold Session.unitEnv
  rw [same]

/-! ## Populating it -/

theorem make_unit_ok {m : Machine} {s t : Session}
    (ran : makeUnit S m name s = (.ok u, t)) :
    ∃ root node t', prepare S name s = (.ok (u, root), t') ∧ t'.tree.node? root = some node ∧
      (node.isPopulated ∧ t = t' ∨ populateWith S m root t' = (.ok (), t)) := by
  rw [make_unit_eq] at ran
  obtain ⟨⟨v, root⟩, t', prepared, rest⟩ := bind_ok ran
  dsimp only at rest
  obtain ⟨node, t'', looked, last⟩ := bind_ok rest
  obtain ⟨held, rfl⟩ := node_ok looked
  by_cases populated : node.isPopulated
  · simp only [populated, Bool.not_true, Bool.false_eq_true, if_false] at last
    cases last
    exact ⟨root, node, t, prepared, held, .inl ⟨populated, rfl⟩⟩
  · simp only [populated, Bool.not_false, if_true] at last
    obtain ⟨⟨⟩, t'', filled, answer⟩ := bind_ok last
    cases answer
    exact ⟨root, node, t', prepared, held, .inr (map_error_ok filled)⟩

/-- A load answers with a unit that has an environment, as it is, or with one
that it made. -/
theorem load_unit_ok {m : Machine} {s t : Session} (ran : loadUnit S m name s = (.ok u, t)) :
    (s.unitByName name = some u ∧ (∃ e, s.unitEnv u = some e) ∧ t = s) ∨
    ((∀ v, s.unitByName name = some v → s.unitEnv v = none) ∧
      ∃ t', makeUnit S m name { s with loader := .loading } = (.ok u, t') ∧
        t = { t' with loader := .ready }) := by
  unfold loadUnit at ran
  obtain ⟨found, s', looked, rest⟩ := bind_ok ran
  obtain ⟨asked, rfl⟩ := read_ok looked
  cases found with
  | some v =>
    cases rest
    obtain ⟨v, named, known⟩ := Option.bind_eq_some_iff.1 asked
    obtain ⟨e, known, same⟩ := Option.bind_eq_some_iff.1 known
    cases same
    exact .inl ⟨named, ⟨e, known⟩, rfl⟩
  | none =>
    have unknown (v : UnitId) (named : s.unitByName name = some v) : s.unitEnv v = none := by
      cases known : s.unitEnv v with
      | none => rfl
      | some e => simp [named, known] at asked
    refine .inr ⟨unknown, ?_⟩
    obtain ⟨loader, s', looked, last⟩ := bind_ok rest
    obtain ⟨-, rfl⟩ := read_ok looked
    split at last
    · exact bracket_ok last
    · obtain ⟨text, s', -, failed⟩ := bind_ok last
      cases failed

/-- A unit that has an environment is taken as it is. -/
theorem load_unit_known (m : Machine) (named : s.unitByName name = some u)
    (known : s.unitEnv u = some e) : loadUnit S m name s = (.ok u, s) := by
  unfold loadUnit
  rw [run_bind, run_read, named]
  dsimp only [Option.bind_eq_bind, Option.bind_some]
  rw [known]
  rfl

end EvalM

theorem unit_env_open_top {s : Session} (rooted : s.root u = some root)
    (unknown : s.unitEnv u = none) :
    (s.openTop root u).2.unitEnv u = some (s.openTop root u).1 := by
  rw [Session.unit_env_open, unknown, if_pos ⟨rooted, rfl⟩, Option.none_or]

/-! ## Loading it -/

/-- The unit of that name can be prepared, and then its root is one of its own
nodes, not populated and with nothing around it that is. -/
def Session.Makeable (S : Setting) (s : Session) (name : Symbol) (u : UnitId) : Prop :=
  ∃ root t node, EvalM.prepare S name s = (.ok (u, root), t) ∧ t.tree.node? root = some node ∧
    node.unit = u ∧ node.envs = none ∧ t.tree.aroundEnv node = none

/-- A unit that had no environment is loaded by making it exactly if its root is its
own and was left to be populated. -/
theorem make_unit_loaded_iff (own : h.now.OwnRoots) (recorded : h.Recorded)
    (unknown : h.now.unitEnv u = none)
    (ran : EvalM.makeUnit S (.upTo S depth) name h.now = (.ok u, t)) :
    ∃ populated, Path S h ⟨t, populated⟩ ∧ (∃ root, t.root u = some root) ∧
      (History.Loaded ⟨t, populated⟩ u ↔ h.now.Makeable S name u) := by
  obtain ⟨root, node, t', prepared, held, how⟩ := EvalM.make_unit_ok ran
  have there : Path S h ⟨t', h.populated⟩ := by
    have path : Path S h ⟨(EvalM.prepare S name h.now).2, h.populated⟩ :=
      EvalM.prepare_builds name h.now
    rwa [prepared] at path
  have rooted : t'.root u = some root := (EvalM.prepare_ok prepared).1
  have unknown : t'.unitEnv u = none := by rw [EvalM.prepare_unit_env prepared, unknown]
  -- What `Makeable` says of the root is said of this very node.
  have makeable : h.now.Makeable S name u ↔
      node.unit = u ∧ node.envs = none ∧ t'.tree.aroundEnv node = none := by
    constructor
    · rintro ⟨other, t'', node', prepared', held', facts⟩
      rw [prepared] at prepared'
      cases prepared'
      rw [held] at held'
      cases held'
      exact facts
    · exact fun facts => ⟨root, t', node, prepared, held, facts⟩
  rw [makeable]
  rcases how with ⟨populated, rfl⟩ | filled
  · refine ⟨h.populated, there, ⟨root, rooted⟩, fun loaded => ?_, fun facts => ?_⟩
    · obtain ⟨-, -, e, -, -, -, known, -⟩ := loaded
      rw [unknown] at known
      cases known
    · simp [Node.isPopulated, facts.2.1] at populated
  · obtain ⟨populated, path, started⟩ :=
      populate_with_path (S := S) (machine_steady S depth) root ⟨t', h.populated⟩
    rw [filled] at path started
    obtain ⟨node', held', fresh, begun⟩ := started rfl
    obtain rfl : node = node' := Option.some.inj (held.symm.trans held')
    have later := path_later path
    refine ⟨populated, there.trans path, ⟨root, Session.root_later later rooted⟩,
      fun loaded => ?_, fun facts => ?_⟩
    · obtain ⟨-, -, e, -, -, -, known, -⟩ := loaded
      rcases begun with ⟨e', around⟩ | ⟨outermost, -⟩
      · have none_ := path_enclosed path rooted ⟨node, e', held, around⟩ unknown
        rw [none_] at known
        cases known
      · obtain ⟨after, still, kept⟩ := Session.node_later later held
        have same : after.unit = u := own_root (path_own_roots (there.trans path) own) known
          (Session.root_later later rooted) still
        exact ⟨kept.unit.symm.trans same, fresh, outermost⟩
    · obtain ⟨rfl, -, outermost⟩ := facts
      rcases begun with ⟨e', around⟩ | ⟨-, logged, since⟩
      · rw [outermost] at around
        cases around
      · obtain ⟨after, still, done⟩ := path_recorded (there.trans path) recorded root _ logged
        exact ⟨root, after, _, Session.root_later later rooted, still, done,
          (path_later since).unitEnv _ _ (unit_env_open_top rooted unknown), logged⟩

/-- When a load leaves the unit it returns loaded. Either the population that gave the
unit its environment got as far as the root itself, or the unit has none yet and can
be made. -/
inductive History.Loadable (S : Setting) (h : History) (name : Symbol) (u : UnitId) : Prop
  | before (rooted : h.now.root u = some root) (known : h.now.unitEnv u = some e)
      (recorded : (root, e) ∈ h.populated)
  | now (unknown : h.now.unitEnv u = none)
      (makeable : Session.Makeable S { h.now with loader := .loading } name u)

/-- A load that returns a unit leaves it with a root. The root is populated, in the
environment that the unit has, exactly if the unit was `Loadable`: an environment that
an earlier population left behind before it failed at the root is enough for the unit
to be returned. -/
theorem load_unit_loaded_iff (reached : Reachable S h)
    (ran : EvalM.loadUnit S (.upTo S depth) name h.now = (.ok u, t)) :
    ∃ populated, Path S h ⟨t, populated⟩ ∧ (∃ root, t.root u = some root) ∧
      (History.Loaded ⟨t, populated⟩ u ↔ h.Loadable S name u) := by
  have own := reachable_own_roots reached
  have recorded := reachable_recorded reached
  rcases EvalM.load_unit_ok ran with ⟨-, ⟨e, known⟩, rfl⟩ | ⟨unknown, t', made, rfl⟩
  · obtain ⟨root, node, rooted, -⟩ := own u e known
    refine ⟨h.populated, .refl, ⟨root, rooted⟩, fun loaded => ?_, fun loadable => ?_⟩
    · obtain ⟨root, node, e, rooted, held, populated, known, logged⟩ := loaded
      exact .before rooted known logged
    · cases loadable with
      | before rooted known logged =>
        obtain ⟨node, held, populated⟩ := recorded _ _ logged
        exact ⟨_, node, _, rooted, held, populated, known, logged⟩
      | now unknown _ =>
        rw [unknown] at known
        cases known
  · have unknown : h.now.unitEnv u = none := by
      obtain ⟨root, node, s, prepared, -⟩ := EvalM.make_unit_ok made
      rcases (EvalM.prepare_ok prepared).2 with named | rootless
      · exact unknown u named
      · exact unit_env_of_rootless own rootless
    obtain ⟨populated, path, rooted, iff⟩ := make_unit_loaded_iff
      (h := ⟨{ h.now with loader := .loading }, h.populated⟩) own recorded unknown made
    have begun : Path S h ⟨{ h.now with loader := .loading }, h.populated⟩ :=
      .single (.aside (.loading _))
    refine ⟨populated, begun.trans (path.tail (.aside (.loading .ready))), rooted, ?_⟩
    refine Iff.trans ⟨fun loaded => loaded, fun loaded => loaded⟩ (iff.trans ⟨.now unknown, ?_⟩)
    rintro (⟨-, known, -⟩ | ⟨-, makeable⟩)
    · rw [unknown] at known
      cases known
    · exact makeable

/-! ## A unit of one leaf -/

/-- A language of one kind of nodes, which have no children. -/
def Language.leaves (envSpecs : Array KindEnvSpec) : Language where
  kinds := #[⟨⟨0⟩, "Leaf", none, false, [], false, false, [], [⟨0⟩], .caller⟩]
  properties := #[]
  implementations := #[]
  dynVars := #[]
  envSpecs := envSpecs
  metadata := none
  table := #[#[]]
  warnings := []

/-- A session in which the unit without a name is planned to be one leaf. -/
def Session.planned : Session :=
  (Session.new (.new none) .standard .ready).registerPlan .empty ⟨[.inner ⟨0⟩ []], .planned 0⟩

/-- The tree of that unit. -/
def Tree.leaf (envs : Option NodeEnvs) : Tree where
  nodes := #[⟨⟨0⟩, [], none, ⟨0⟩, .empty, .dummy, [], envs⟩]
  units := #[⟨.empty, some ⟨0⟩⟩]
  values := #[]
  descending := by
    intro i n held c mem
    rcases i with _ | i <;> simp at held
    subst held
    cases mem

/-- The same session when the environment of the unit was just opened. -/
def Session.begun : Session :=
  { Session.planned with
    loader := .loading, tree := .leaf none, envs := (EnvStore.new.create none (some ⟨0⟩)).2,
    unitEnvs := [(⟨0⟩, ⟨1⟩)] }

theorem reachable_planned (S : Setting) : Reachable S ⟨.planned, []⟩ :=
  ⟨.new none, .standard, .ready, .single (.aside (.registered _ _))⟩

/-- A unit without a name is made without a new text. -/
theorem new_unit_blank {s : Session} (pool : s.pool = Pool.new none) :
    s.newUnit "" = (⟨s.tree.units.size⟩, { s with tree := (s.tree.addUnit .empty).2 }) := by
  have known : (SymbolTable.new none).index[""]? = some 0 :=
    ((SymbolTable.new none).inverse "" 0).2 rfl
  have blank : (Pool.new none).intern "" = (.empty, Pool.new none) := by
    unfold Pool.intern
    rw [show (Pool.new none).symbols = SymbolTable.new none from rfl,
      SymbolTable.intern_known known]
    rfl
  unfold Session.newUnit
  rw [pool, blank, ← pool]
  rfl

theorem unit_by_name_planned (loader : LoaderState) :
    Session.unitByName { Session.planned with loader } .empty = none := by
  simp [Session.unitByName, Session.planned, Session.registerPlan, Session.new, Tree.empty]

theorem open_unit_planned :
    Session.openUnit { Session.planned with loader := .loading } .empty = (⟨0⟩,
      { Session.planned with loader := .loading, tree := (Tree.empty.addUnit .empty).2 }) := by
  unfold Session.openUnit
  rw [unit_by_name_planned]
  exact new_unit_blank rfl

theorem prepare_planned (specs : Array KindEnvSpec) (config : EvalConfig) :
    EvalM.prepare ⟨.leaves specs, config⟩ .empty { Session.planned with loader := .loading } =
      (.ok (⟨0⟩, ⟨0⟩), { Session.planned with loader := .loading, tree := .leaf none }) := by
  rw [EvalM.prepare_eq, open_unit_planned]
  rfl

/-- To populate a node that stands alone is to open an environment and run its actions
there. -/
theorem populate_single (S : Setting) (m : Machine) {s : Session} {node : Node}
    (held : s.tree.node? n = some node) (childless : node.children = [])
    (free : node.parent = none) (fresh : node.envs = none) :
    populateWith S m n s =
      populateNode S m n (s.openTop n node.unit).1 (s.openTop n node.unit).2 := by
  have there : s.tree.node n = .ok node := by rw [Tree.node, held]
  have none_ : s.tree.childrenOf n = [] := by
    have names := Tree.childrenOf_eq s.tree n
    rw [held] at names
    exact List.map_eq_nil_iff.1 (names.trans childless)
  have below : s.tree.firstPopulated n = .ok none := by
    have first : s.tree.firstBelow Node.isPopulated n = none := by
      rw [Tree.firstBelow, held, none_]
      simp [Node.isPopulated, fresh]
    unfold Tree.firstPopulated
    rw [there, first]
    rfl
  have outermost : s.tree.aroundEnv node = none := by
    unfold Tree.aroundEnv
    rw [free]
    rfl
  rw [populate_with_eq, below]
  dsimp only
  rw [there]
  dsimp only
  rw [outermost]

theorem populate_leaf (S : Setting) (m : Machine) {s : Session} (leaf : s.tree = .leaf none) :
    populateWith S m ⟨0⟩ s =
      populateNode S m ⟨0⟩ (s.openTop ⟨0⟩ ⟨0⟩).1 (s.openTop ⟨0⟩ ⟨0⟩).2 := by
  have held : s.tree.node? ⟨0⟩ = some ⟨⟨0⟩, [], none, ⟨0⟩, .empty, .dummy, [], none⟩ := by
    rw [leaf]
    rfl
  exact populate_single S m held rfl rfl rfl

theorem populate_planned (S : Setting) (m : Machine) :
    populateWith S m ⟨0⟩ { Session.planned with loader := .loading, tree := .leaf none } =
      populateNode S m ⟨0⟩ ⟨1⟩ .begun :=
  populate_leaf S m rfl

/-- Loading the unit succeeds or fails as populating its leaf does. -/
theorem load_planned {m : Machine}
    (filled : (populateNode ⟨.leaves specs, config⟩ m ⟨0⟩ ⟨1⟩).mapError
      PopulateError.toPropertyError .begun = (r, s)) :
    EvalM.loadUnit ⟨.leaves specs, config⟩ m .empty .planned =
      (r.map fun _ => ⟨0⟩, { s with loader := .ready }) := by
  have none_ : Session.unitByName .planned .empty = none := unit_by_name_planned .ready
  have looked : EvalM.node ⟨0⟩ { Session.planned with loader := .loading, tree := .leaf none } =
      (.ok ⟨⟨0⟩, [], none, ⟨0⟩, .empty, .dummy, [], none⟩,
        { Session.planned with loader := .loading, tree := .leaf none }) := rfl
  have made : EvalM.makeUnit ⟨.leaves specs, config⟩ m .empty
      { Session.planned with loader := .loading } = (r.map fun _ => ⟨0⟩, s) := by
    rw [EvalM.make_unit_eq, SessionM.run_bind, prepare_planned]
    dsimp only
    rw [SessionM.run_bind, looked]
    simp only [Node.isPopulated, Option.isSome_none, Bool.not_false, if_true]
    unfold SessionM.mapError at filled ⊢
    rw [SessionM.run_bind, populate_planned, filled]
    cases r <;> rfl
  unfold EvalM.loadUnit
  rw [SessionM.run_bind, SessionM.run_read, none_]
  dsimp only [Option.bind_eq_bind, Option.bind_none]
  rw [SessionM.run_bind, SessionM.run_read]
  show SessionM.bracket _ _ _ _ = _
  unfold SessionM.bracket
  rw [made]

/-- A leaf without environment actions is loaded. -/
theorem load_unit_loaded_of_leaf :
    Reachable ⟨.leaves #[], .standard⟩ ⟨.planned, []⟩ ∧ ∃ t populated,
      EvalM.loadUnit ⟨.leaves #[], .standard⟩ (.upTo ⟨.leaves #[], .standard⟩ 0) .empty .planned =
        (.ok ⟨0⟩, t) ∧
      Path ⟨.leaves #[], .standard⟩ ⟨.planned, []⟩ ⟨t, populated⟩ ∧
      History.Loaded ⟨t, populated⟩ ⟨0⟩ := by
  have filled : (populateNode ⟨.leaves #[], .standard⟩ (.upTo ⟨.leaves #[], .standard⟩ 0) ⟨0⟩
      ⟨1⟩).mapError PopulateError.toPropertyError .begun =
      (.ok (), { Session.begun with tree := .leaf (some ⟨⟨1⟩, ⟨1⟩⟩) }) := by
    unfold SessionM.mapError
    rw [populate_node_eq]
    rfl
  have ran := load_planned filled
  have reached := reachable_planned ⟨.leaves #[], .standard⟩
  obtain ⟨populated, path, -, loaded⟩ :=
    load_unit_loaded_iff (h := ⟨.planned, []⟩) reached ran
  exact ⟨reached, _, populated, ran, path,
    loaded.2 (.now rfl ⟨_, _, _, prepare_planned #[] .standard, rfl, rfl, rfl, rfl⟩)⟩

/-- A population that fails at the leaf makes the first load fail, but not the second
one, which changes nothing. -/
theorem load_unit_leaves_root_unpopulated :
    ∃ (S : Setting) (h : History) (failure : Interrupt PropertyError) (t : Session),
      Reachable S h ∧ EvalM.loadUnit S S.machine .empty h.now = (.error failure, t) ∧
      EvalM.loadUnit S S.machine .empty t = (.ok ⟨0⟩, t) ∧
      ∃ node, t.root ⟨0⟩ = some ⟨0⟩ ∧ t.tree.node? ⟨0⟩ = some node ∧ node.isPopulated = false := by
  let specs : Array KindEnvSpec := #[⟨⟨0⟩, ⟨[.setInitialEnv (.raise "no scope")], .caller⟩⟩]
  let S : Setting := ⟨.leaves specs, .standard⟩
  have filled : ∃ failure, (populateNode S S.machine ⟨0⟩ ⟨1⟩).mapError
      PopulateError.toPropertyError .begun = (.error failure, .begun) := by
    unfold SessionM.mapError
    rw [populate_node_eq]
    exact ⟨_, rfl⟩
  obtain ⟨failure, filled⟩ := filled
  have named : Session.unitByName { Session.begun with loader := .ready } .empty = some ⟨0⟩ := by
    simp [Session.unitByName, Session.begun, Tree.leaf]
  exact ⟨S, ⟨.planned, []⟩, failure, { Session.begun with loader := .ready }, reachable_planned S,
    load_planned filled, EvalM.load_unit_known S.machine named rfl, _, rfl, rfl, rfl⟩

end Trellis
