import Trellis.Proofs.Session.Loading

/-! Which environment a unit has once its root is populated. An attempt to populate a node
that nothing populated is around opens an environment for it, and where the node is the
root of its unit the environment is entered for the unit before anything can fail. An
attempt that comes after a failed one opens another environment and populates the root in
that one, while the unit keeps the first. -/
namespace Trellis

variable {S : Setting} {depth : Nat}

/-! ## Environments keep their place -/

/-- An environment with the same parent and the same owner, that binds what it bound
before. -/
structure Scope.Kept (a b : Scope) : Prop where
  parent : b.parent = a.parent
  owner : b.owner = a.owner
  bindings : ∀ symbol, a.newestFirst symbol <:+ b.newestFirst symbol

theorem Scope.kept_refl (a : Scope) : a.Kept a := ⟨rfl, rfl, fun _ => List.suffix_refl _⟩

theorem Scope.kept_trans (a b c : Scope) (first : a.Kept b) (rest : b.Kept c) : a.Kept c where
  parent := rest.parent.trans first.parent
  owner := rest.owner.trans first.owner
  bindings symbol := (first.bindings symbol).trans (rest.bindings symbol)

theorem EnvStore.newest_first_kept {s t : EnvStore} (kept : Grown Scope.Kept s.scopes t.scopes)
    (e : EnvId) (symbol : Symbol) : s.newestFirst e symbol <:+ t.newestFirst e symbol := by
  unfold newestFirst
  cases held : s.scope? e with
  | none => exact List.nil_suffix
  | some scope =>
    obtain ⟨later, still, same⟩ := kept e.raw scope held
    rw [show t.scope? e = _ from still]
    exact same.bindings symbol

theorem env_change_scopes (step : EnvChange s t) : Grown Scope.Kept s.scopes t.scopes := by
  cases step with
  | created parent owner => exact grown_push Scope.kept_refl _ _
  | bound env symbol entity metadata =>
    unfold EnvStore.addBinding
    split
    · exact grown_refl Scope.kept_refl _
    · split
      · exact grown_refl Scope.kept_refl _
      · refine grown_modify Scope.kept_refl fun a _ => ⟨rfl, rfl, fun other => ?_⟩
        rw [Scope.newestFirst_bind]
        split
        · next same => exact same ▸ List.suffix_cons _ _
        · exact List.suffix_refl _
  | referred env thunk crossing =>
    unfold EnvStore.addReference
    split
    · exact grown_refl Scope.kept_refl _
    · exact grown_modify Scope.kept_refl fun a _ => ⟨rfl, rfl, fun _ => List.suffix_refl _⟩
  | marked env index state =>
    exact grown_modify Scope.kept_refl fun a _ => ⟨rfl, rfl, fun _ => List.suffix_refl _⟩

theorem open_top_envs (s : Session) (root : NodeId) (u : UnitId) :
    (s.openTop root u).1 = ⟨s.envs.size⟩ ∧
      (s.openTop root u).2.envs = (s.envs.create none (some root)).2 := by
  unfold Session.openTop Session.addUnitEnv
  refine ⟨rfl, ?_⟩
  dsimp only
  split
  · split <;> rfl
  · rfl

/-- What is done to a session changes the environments as the store does, or not at all. -/
theorem change_envs (step : Change S h k) :
    k.now.envs = h.now.envs ∨ EnvChange h.now.envs k.now.envs := by
  cases step with
  | aside step => exact .inl (aside_frame step).2.1
  | envs step => exact .inr step
  | opened held fresh outermost =>
    rw [(open_top_envs _ _ _).2]
    exact .inr (.created _ _)
  | rooted given =>
    obtain ⟨tree, -, rfl⟩ := Session.set_root_ok given
    exact .inl rfl
  | _ => exact .inl rfl

theorem change_scopes (step : Change S h k) :
    Grown Scope.Kept h.now.envs.scopes k.now.envs.scopes := by
  rcases change_envs step with same | step
  · rw [same]
    exact grown_refl Scope.kept_refl _
  · exact env_change_scopes step

theorem path_scopes (path : Path S h k) :
    Grown Scope.Kept h.now.envs.scopes k.now.envs.scopes :=
  path_keeps (P := fun l => Grown Scope.Kept h.now.envs.scopes l.now.envs.scopes)
    (fun _ _ step sofar => grown_trans Scope.kept_trans sofar (change_scopes step)) path
    (grown_refl Scope.kept_refl _)

/-! ## The first attempt -/

/-- Before `h` the population of the root of `u` was begun for the first time with nothing
populated around it, and `e` was opened for that. -/
def History.FirstAttempt (S : Setting) (h : History) (u : UnitId) (e : EnvId) : Prop :=
  ∃ k s, Reachable S k ∧ k.now.unitEnv u = none ∧ k.now.Opens u e s ∧ Path S ⟨s, k.populated⟩ h

/-- The environment of a unit is the one that was opened in the first attempt to populate
its root. -/
theorem unit_env_iff_first_attempt (reached : Reachable S h) :
    h.now.unitEnv u = some e ↔ h.FirstAttempt S u e := by
  constructor
  · obtain ⟨pool, bag, loader, path⟩ := reached
    have start : Reachable S ⟨.new pool bag loader, []⟩ := ⟨pool, bag, loader, .refl⟩
    induction path with
    | refl => intro known; cases known
    | @tail k l path step ih =>
      intro known
      rcases change_unit_env step known with old | ⟨unknown, opens, same⟩
      · obtain ⟨first, s, reached, unknown, opens, rest⟩ := ih old
        exact ⟨first, s, reached, unknown, opens, rest.tail step⟩
      · refine ⟨k, l.now, reachable_of_path start path, unknown, opens, ?_⟩
        rw [← same]
  · rintro ⟨k, s, -, unknown, ⟨root, node, rooted, -, -, -, -, opened⟩, path⟩
    have entered := unit_env_open_top rooted unknown
    rw [opened] at entered
    exact (path_later path).unitEnv u e entered

/-- An environment of a unit is in the store. -/
theorem unit_env_known (reached : Reachable S h) (known : h.now.unitEnv u = some e) :
    e.raw < h.now.envs.size := by
  obtain ⟨k, s, -, -, ⟨root, node, -, -, -, -, -, opened⟩, path⟩ :=
    (unit_env_iff_first_attempt reached).1 known
  obtain ⟨number, envs⟩ := open_top_envs k.now root u
  rw [opened] at number envs
  have grown := grown_size (path_scopes path)
  rw [show s.envs = _ from envs] at grown
  rw [show e = _ from number]
  exact Nat.lt_of_succ_le (by simpa [EnvStore.create, EnvStore.size] using grown)

/-! ## The attempt that succeeds -/

/-- On the way from `h` to `k` the environment `e` was opened for `root`, inside no other
one, and `root` was populated starting from it. -/
structure History.PopulatedIn (S : Setting) (h k : History) (root : NodeId) (e : EnvId) : Prop where
  path : Path S h k
  new : h.now.envs.size ≤ e.raw
  top : ∃ scope, k.now.envs.scope? e = some scope ∧ scope.parent = none ∧ scope.owner = some root
  logged : (root, e) ∈ k.populated

/-- A population that succeeds with nothing populated around its root has the root populated
in an environment of its own, and has entered that one for the unit only where the unit had
none. -/
theorem populated_in_of_outermost {h : History} {node : Node}
    (held : h.now.tree.node? root = some node) (outermost : h.now.tree.aroundEnv node = none)
    (ran : populateWith S (.upTo S depth) root h.now = (.ok (), t)) :
    ∃ populated, h.PopulatedIn S ⟨t, populated⟩ root ⟨h.now.envs.size⟩ ∧
      (h.now.root node.unit = some root → t.unitEnv node.unit =
        some ((h.now.unitEnv node.unit).getD ⟨h.now.envs.size⟩)) := by
  obtain ⟨populated, path, started⟩ :=
    populate_with_path (S := S) (machine_steady S depth) root h
  rw [ran] at path started
  obtain ⟨node', held', -, begun⟩ := started rfl
  obtain rfl : node = node' := Option.some.inj (held.symm.trans held')
  rcases begun with ⟨e, around⟩ | ⟨-, logged, since⟩
  · rw [outermost] at around
    cases around
  · obtain ⟨number, envs⟩ := open_top_envs h.now root node.unit
    refine ⟨populated, ⟨path, Nat.le_refl _, ?_, number ▸ logged⟩, fun rooted => ?_⟩
    · obtain ⟨scope, there, parent, owner, -⟩ :=
        path_scopes since h.now.envs.size (.opened none (some root)) (by
          rw [show History.now _ = (h.now.openTop root node.unit).2 from rfl, envs]
          simp [EnvStore.create, EnvStore.size])
      exact ⟨scope, there, parent, owner⟩
    · refine (path_later since).unitEnv _ _ ?_
      rw [Session.unit_env_open, if_pos ⟨rooted, rfl⟩, number]
      cases h.now.unitEnv node.unit <;> rfl

/-- Making a node the root of a unit changes nothing else. -/
theorem populate_unit_ok {m : Machine} {s t : Session}
    (ran : Host.populateUnit S m u root s = (.ok (), t)) :
    ∃ s' node, s.setRoot u root = .ok s' ∧ s.tree.node? root = some node ∧
      s'.tree.node? root = some node ∧ s'.tree.aroundEnv node = s.tree.aroundEnv node ∧
      s'.unitEnvs = s.unitEnvs ∧ s'.envs = s.envs ∧ s.root u = none ∧ s'.root u = some root ∧
      populateWith S m root s' = (.ok (), t) := by
  unfold Host.populateUnit at ran
  obtain ⟨given, s'', looked, rest⟩ := SessionM.bind_ok ran
  obtain ⟨asked, rfl⟩ := SessionM.read_ok looked
  cases given with
  | error e => cases rest
  | ok s' =>
    obtain ⟨⟨⟩, s'', set_, filled⟩ := SessionM.bind_ok rest
    cases set_
    obtain ⟨tree, set_, rfl⟩ := Session.set_root_ok asked
    obtain ⟨node, info, held, found, free, rfl⟩ := Tree.set_root_ok set_
    refine ⟨_, node, asked, held, held, rfl, rfl, rfl, ?_, ?_, SessionM.map_error_ok filled⟩
    · simp [Session.root, found, free]
    · simp [Session.root, Array.getElem?_modify, found]

/-- A population of the root of a unit that has nothing populated around it: the unit has
the environment of the first attempt, or the one that was opened now if there was none. -/
theorem unit_env_of_outermost {h : History} {node : Node} (reached : Reachable S h)
    (held : h.now.tree.node? root = some node) (rooted : h.now.root node.unit = some root)
    (outermost : h.now.tree.aroundEnv node = none)
    (ran : populateWith S (.upTo S depth) root h.now = (.ok (), t)) :
    ∃ e populated, h.PopulatedIn S ⟨t, populated⟩ root e ∧
      (t.unitEnv node.unit = some e ↔ ∀ old, ¬ h.FirstAttempt S node.unit old) ∧
      ∀ old, h.FirstAttempt S node.unit old → t.unitEnv node.unit = some old := by
  obtain ⟨populated, inside, entered⟩ := populated_in_of_outermost held outermost ran
  have entered := entered rooted
  refine ⟨_, populated, inside, ⟨fun fresh old attempt => ?_, fun none_ => ?_⟩,
    fun old attempt => ?_⟩
  · have known := (unit_env_iff_first_attempt reached).2 attempt
    have older := unit_env_known reached known
    rw [entered, known] at fresh
    cases fresh
    exact Nat.lt_irrefl _ older
  · cases known : h.now.unitEnv node.unit with
    | none => rw [entered, known]; rfl
    | some old => exact (none_ old ((unit_env_iff_first_attempt reached).1 known)).elim
  · rw [entered, (unit_env_iff_first_attempt reached).2 attempt]
    rfl

/-- A host that names unit and root: the unit has the environment of the root, or none
where the root belongs to another unit or has something populated around it. -/
theorem unit_env_of_named {h : History} (reached : Reachable S h)
    (ran : Host.populateUnit S (.upTo S depth) u root h.now = (.ok (), t)) :
    ∃ node populated, h.now.tree.node? root = some node ∧ Path S h ⟨t, populated⟩ ∧
      (node.unit = u ∧ h.now.tree.aroundEnv node = none →
        ∃ e, h.PopulatedIn S ⟨t, populated⟩ root e ∧ t.unitEnv u = some e) ∧
      (¬ (node.unit = u ∧ h.now.tree.aroundEnv node = none) → t.unitEnv u = none) := by
  obtain ⟨s, node, given, held, still, around, unitEnvs, envs, rootless, rooted, filled⟩ :=
    populate_unit_ok ran
  have own := reachable_own_roots reached
  have unknown : s.unitEnv u = none := by
    have before := unit_env_of_rootless own rootless
    unfold Session.unitEnv at before ⊢
    rw [unitEnvs, before]
  have begun : Path S h ⟨s, h.populated⟩ := .single (.rooted given)
  by_cases outside : node.unit = u ∧ h.now.tree.aroundEnv node = none
  · obtain ⟨rfl, outermost⟩ := outside
    obtain ⟨populated, inside, entered⟩ := populated_in_of_outermost (S := S)
      (h := ⟨s, h.populated⟩) still (around.trans outermost) filled
    have entered := entered rooted
    rw [show Session.unitEnv _ node.unit = _ from unknown] at entered
    refine ⟨node, populated, held, begun.trans inside.path, fun _ => ⟨_, ?_, entered⟩,
      fun other => (other ⟨rfl, outermost⟩).elim⟩
    exact ⟨begun.trans inside.path, envs ▸ inside.new, inside.top, inside.logged⟩
  · obtain ⟨populated, path⟩ := populate_with_moves (S := S) (R := Path S)
      (machine_steady S depth) root ⟨s, h.populated⟩
    rw [filled] at path
    refine ⟨node, populated, held, begun.trans path, fun both => (outside both).elim, fun _ => ?_⟩
    cases known : t.unitEnv u with
    | none => rfl
    | some e =>
      have later := path_later path
      obtain ⟨after, there, kept⟩ := Session.node_later later still
      have same : after.unit = u := own_root (path_own_roots (begun.trans path) own) known
        (Session.root_later later rooted) there
      have mine : node.unit = u := kept.unit.symm.trans same
      cases enclosing : h.now.tree.aroundEnv node with
      | none => exact (outside ⟨mine, enclosing⟩).elim
      | some inner =>
        have none_ := path_enclosed path rooted ⟨node, inner, still, around.trans enclosing⟩ unknown
        rw [known] at none_
        cases none_

/-- The environment of a unit after its root was populated. A population of the root that
has nothing populated around it populates the root in an environment of its own, whatever
was tried before; that one is the environment of the unit exactly if the root was not
attempted before, and else the unit keeps the environment of the first attempt. A host that
names unit and root at once has not attempted it before: then the unit has the environment
of its root, or none if the root is not its own or has something populated around it. -/
theorem populate_unit_env (reached : Reachable S h) :
    (∀ root node t, h.now.tree.node? root = some node → h.now.root node.unit = some root →
      h.now.tree.aroundEnv node = none →
      populateWith S (.upTo S depth) root h.now = (.ok (), t) →
      ∃ e populated, h.PopulatedIn S ⟨t, populated⟩ root e ∧
        (t.unitEnv node.unit = some e ↔ ∀ old, ¬ h.FirstAttempt S node.unit old) ∧
        ∀ old, h.FirstAttempt S node.unit old → t.unitEnv node.unit = some old) ∧
    ∀ u root t, Host.populateUnit S (.upTo S depth) u root h.now = (.ok (), t) →
      ∃ node populated, h.now.tree.node? root = some node ∧ Path S h ⟨t, populated⟩ ∧
        (node.unit = u ∧ h.now.tree.aroundEnv node = none →
          ∃ e, h.PopulatedIn S ⟨t, populated⟩ root e ∧ t.unitEnv u = some e) ∧
        (¬ (node.unit = u ∧ h.now.tree.aroundEnv node = none) → t.unitEnv u = none) :=
  ⟨fun _ _ _ held rooted outermost ran => unit_env_of_outermost reached held rooted outermost ran,
    fun _ _ _ ran => unit_env_of_named reached ran⟩

/-! ## Two nodes side by side -/

/-- Leaves bind themselves in the environment of the one node of the other kind. -/
def Setting.exporting : Setting where
  language :=
    { kinds := #[⟨⟨0⟩, "Leaf", none, false, [], false, false, [], [⟨0⟩], .caller⟩,
        ⟨⟨1⟩, "Plain", none, false, [], false, false, [], [⟨1⟩], .caller⟩]
      properties := #[]
      implementations := #[]
      dynVars := #[]
      envSpecs := #[⟨⟨0⟩, ⟨[.addToEnv (.lit (.symbol ⟨1⟩)) .self .empty
        (some (.nodeEnv (.lit (.entity (.bare ⟨1⟩)))))], .caller⟩⟩]
      metadata := none
      table := #[#[], #[]]
      warnings := [] }
  config := .standard

/-- A unit of nodes side by side, each of a kind of its own. -/
def Tree.row (root : Option NodeId) (envs : List (Option NodeEnvs)) : Tree where
  nodes := (envs.zipIdx.map fun (e, i) => ⟨⟨i⟩, [], none, ⟨0⟩, .empty, .dummy, [], e⟩).toArray
  units := #[⟨.empty, root⟩]
  values := #[]
  descending := by
    intro i n held c mem
    simp only [List.getElem?_toArray, List.getElem?_map, Option.map_eq_some_iff] at held
    obtain ⟨_, _, rfl⟩ := held
    cases mem

def Session.rowed (root : Option NodeId) : Session :=
  { Session.new (.new none) .standard .ready with tree := .row root [none, none] }

theorem reachable_rowed (S : Setting) : Reachable S ⟨.rowed none, []⟩ := by
  let start : Session := .new (.new none) .standard .ready
  have unit : Change S ⟨start, []⟩ ⟨{ start with tree := .row none [] }, []⟩ := by
    have made : Change S ⟨start, []⟩ ⟨(start.newUnit "").2, []⟩ := .unit ""
    rwa [new_unit_blank rfl] at made
  have first : (Tree.row none []).addNode ⟨⟨0⟩, ⟨0⟩, [], .empty, .dummy, 0⟩ =
      .ok (⟨0⟩, .row none [none]) := rfl
  have second : (Tree.row none [none]).addNode ⟨⟨1⟩, ⟨0⟩, [], .empty, .dummy, 0⟩ =
      .ok (⟨1⟩, .row none [none, none]) := rfl
  exact ⟨.new none, .standard, .ready,
    ((Relation.ReflTransGen.single unit).tail (.node first)).tail (.node second)⟩

/-- The second node of the row becomes the root and is populated. -/
theorem populate_unit_env_of_rowed :
    Reachable .exporting ⟨.rowed none, []⟩ ∧ ∃ t populated e,
      Host.populateUnit .exporting (.upTo .exporting 0) ⟨0⟩ ⟨1⟩ (.rowed none) = (.ok (), t) ∧
      History.PopulatedIn .exporting ⟨.rowed none, []⟩ ⟨t, populated⟩ ⟨1⟩ e ∧
      t.unitEnv ⟨0⟩ = some e := by
  have reached := reachable_rowed .exporting
  have filled : ∃ t, populateWith .exporting (.upTo .exporting 0) ⟨1⟩ (.rowed (some ⟨1⟩)) =
      (.ok (), t) := by
    rw [populate_single _ _ rfl rfl rfl rfl, populate_node_eq]
    exact ⟨_, rfl⟩
  obtain ⟨t, filled⟩ := filled
  have ran : Host.populateUnit .exporting (.upTo .exporting 0) ⟨0⟩ ⟨1⟩ (.rowed none) =
      (.ok (), t) := SessionM.map_error_of_ok filled
  obtain ⟨node, populated, held, -, own, -⟩ := (populate_unit_env reached).2 _ _ _ ran
  cases held
  obtain ⟨e, inside, entered⟩ := own ⟨rfl, rfl⟩
  exact ⟨reached, t, populated, e, ran, inside, entered⟩

theorem retried_root_keeps_first_environment :
    ∃ (S : Setting) (h : History) (failure : Interrupt PopulateError) (t₁ t₂ t₃ : Session),
      Reachable S h ∧ populateWith S S.machine ⟨0⟩ h.now = (.error failure, t₁) ∧
      populateWith S S.machine ⟨1⟩ t₁ = (.ok (), t₂) ∧
      populateWith S S.machine ⟨0⟩ t₂ = (.ok (), t₃) ∧
      t₃.root ⟨0⟩ = some ⟨0⟩ ∧ t₃.unitEnv ⟨0⟩ = some ⟨1⟩ ∧
      ∃ node, t₃.tree.node? ⟨0⟩ = some node ∧ node.envs = some ⟨⟨3⟩, ⟨3⟩⟩ := by
  have rooted : (Session.rowed none).setRoot ⟨0⟩ ⟨0⟩ = .ok (.rowed (some ⟨0⟩)) := rfl
  have reached : Reachable .exporting ⟨.rowed (some ⟨0⟩), []⟩ :=
    reachable_of_path (reachable_rowed _) (.single (.rooted rooted))
  refine ⟨.exporting, _, ?failure, ?t₁, ?t₂, ?t₃, reached, ?failed, ?other, ?done, ?_, ?_, ?_⟩
  case failed =>
    rw [populate_single _ _ rfl rfl rfl rfl, populate_node_eq]
    rfl
  case other =>
    rw [populate_single _ _ rfl rfl rfl rfl, populate_node_eq]
    rfl
  case done =>
    rw [populate_single _ _ rfl rfl rfl rfl, populate_node_eq]
    rfl
  · rfl
  · rfl
  · exact ⟨_, rfl, rfl⟩
end Trellis
