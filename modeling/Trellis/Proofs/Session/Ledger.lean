import Mathlib.Data.List.Forall2
import Trellis.Proofs.Session.Onward

/-! What the visits of nodes add to the environments of a session. To visit a node is to run
its actions one after the other; it is broken off where one of them fails, and what the
earlier ones added stays. A ledger lists the visits between two points of a run with all
that they added, so that nothing is in an environment at the later point that was not there
before, was not added by a visit, and was not added by the host. -/
namespace Trellis

/-! ## What environments hold -/

/-- What an environment can be given. -/
inductive Entry where
  | binding (symbol : Symbol) (b : Binding)
  | reference (source : EnvSource) (crossing : Crossing)
deriving DecidableEq

/-- An entry that is made in an environment. -/
structure Addition where
  env : EnvId
  entry : Entry
deriving DecidableEq

/-- A reference as an entry, unless it produces its environment in a way that a host made
up. -/
def Reference.entry? (r : Reference) : Option Entry :=
  match r.thunk with
  | .source source => some (.reference source r.crossing)
  | .custom _ => none

namespace Scope

/-- How often an entry was made in an environment. -/
def tally (s : Scope) : Entry → Nat
  | .binding symbol b => (s.newestFirst symbol).count b
  | .reference source crossing =>
    (s.references.map Reference.entry?).count (some (.reference source crossing))

theorem tally_opened (parent : Option EnvId) (owner : Option NodeId) (entry : Entry) :
    (opened parent owner).tally entry = 0 := by
  cases entry with
  | binding symbol b =>
    show ((opened parent owner).newestFirst symbol).count b = 0
    rw [newestFirst_opened]
    rfl
  | reference source crossing => simp [tally, opened]

theorem tally_bind (s : Scope) (symbol : Symbol) (b : Binding) (entry : Entry) :
    (s.bind symbol b).tally entry = s.tally entry + [Entry.binding symbol b].count entry := by
  cases entry with
  | binding other c =>
    simp only [tally, newestFirst_bind]
    by_cases same : symbol = other
    · subst same
      simp [List.count_cons]
    · simp [same]
  | reference source crossing => simp [tally, bind]

theorem tally_refer (s : Scope) {r : Reference} (known : r.entry? = some added) (entry : Entry) :
    (s.refer r).tally entry = s.tally entry + [added].count entry := by
  cases entry with
  | binding symbol b =>
    have other : added ≠ .binding symbol b := by
      unfold Reference.entry? at known
      split at known <;> cases known
      nofun
    simp [tally, refer, newestFirst, other]
  | reference source crossing =>
    simp [tally, refer, Array.count_push, known, List.count_singleton]

/-- A state is no part of an entry. -/
theorem tally_set_state (s : Scope) (index : Nat) (state : RefState) (entry : Entry) :
    { s with references := s.references.modify index ({ · with state }) }.tally entry =
      s.tally entry := by
  have same : (s.references.modify index ({ · with state })).map Reference.entry? =
      s.references.map Reference.entry? :=
    map_modify_of_blind (fun _ => by rfl) s.references index
  cases entry with
  | binding symbol b => rfl
  | reference source crossing => simp only [tally, same]

end Scope

namespace EnvStore

/-- How often something was added to the environments. -/
def tally (s : EnvStore) (a : Addition) : Nat := ((s.scope? a.env).map (·.tally a.entry)).getD 0

/-- Every reference says where its environment comes from. -/
def Sourced (s : EnvStore) : Prop :=
  ∀ env index r, s.reference? env index = some r → ∃ source, r.thunk = .source source

theorem tally_new (a : Addition) : EnvStore.new.tally a = 0 := by
  obtain ⟨⟨_ | raw⟩, entry⟩ := a
  · exact Scope.tally_opened none none entry
  · rfl

theorem sourced_new : EnvStore.new.Sourced := fun env index r held => by
  rw [reference?_new] at held
  cases held

theorem tally_create (s : EnvStore) (parent : Option EnvId) (owner : Option NodeId)
    (a : Addition) : (s.create parent owner).2.tally a = s.tally a := by
  unfold tally
  rw [scope?_create]
  split
  · next next =>
    rw [scope?_next next, Option.map_some, Scope.tally_opened]
    rfl
  · rfl

theorem sourced_create {s : EnvStore} (sourced : s.Sourced) (parent : Option EnvId)
    (owner : Option NodeId) : (s.create parent owner).2.Sourced := fun env index r held => by
  rw [reference?_create] at held
  exact sourced env index r held

theorem tally_set_state (s : EnvStore) (env : EnvId) (index : Nat) (state : RefState)
    (a : Addition) : (s.setState env index state).tally a = s.tally a := by
  unfold tally setState
  rw [scope?_modify]
  split
  · rw [Option.map_map]
    refine congrArg (Option.getD · 0) (Option.map_congr fun scope _ => ?_)
    exact scope.tally_set_state index state a.entry
  · rfl

theorem sourced_set_state {s : EnvStore} (sourced : s.Sourced) (env : EnvId) (index : Nat)
    (state : RefState) : (s.setState env index state).Sourced := by
  intro e i r held
  obtain ⟨old, there, same⟩ := thunk_of_set_state held
  exact same ▸ sourced e i old there

/-- An environment that is given an entry. -/
theorem tally_modify {s : EnvStore} {f : Scope → Scope} (known : (s.scope? env).isSome)
    (given : ∀ scope entry, (f scope).tally entry = scope.tally entry + [added].count entry)
    (a : Addition) : (⟨s.scopes.modify env.raw f⟩ : EnvStore).tally a =
      s.tally a + [⟨env, added⟩].count a := by
  obtain ⟨e, entry⟩ := a
  unfold tally
  rw [scope?_modify]
  by_cases same : e = env
  · subst same
    obtain ⟨scope, held⟩ := Option.isSome_iff_exists.1 known
    simp [held, given, List.count_singleton]
  · simp [same, Ne.symm same]

/-- What comes of a change that is refused, with the environments as they were, or that adds
something. -/
def Adds (s : EnvStore) (added : Addition) (outcome : Except EnvError α × EnvStore) : Prop :=
  (∃ why, outcome = (.error why, s)) ∨
  ∃ x t, outcome = (.ok x, t) ∧ (s.Sourced → t.Sourced) ∧
    ∀ a, t.tally a = s.tally a + [added].count a

theorem adds_binding (s : EnvStore) (env : EnvId) (symbol : Symbol) (entity : Entity)
    (metadata : Metadata) :
    s.Adds ⟨env, .binding symbol ⟨entity, metadata⟩⟩
      (s.addBinding env symbol entity metadata) := by
  have same (sourced : s.Sourced) : (s.addBinding env symbol entity metadata).2.Sourced :=
    fun e i r held => sourced e i r (by rwa [reference?_addBinding] at held)
  unfold Adds
  unfold addBinding at same ⊢
  split
  · exact .inl ⟨_, rfl⟩
  · next valid =>
    rw [if_neg valid] at same
    cases accepted : s.refusal? env with
    | some why => exact .inl ⟨why, rfl⟩
    | none =>
      rw [accepted] at same
      exact .inr ⟨(), _, rfl, same, tally_modify (known_of_accepted accepted) fun scope =>
        scope.tally_bind symbol ⟨entity, metadata⟩⟩

theorem adds_reference (s : EnvStore) (env : EnvId) (source : EnvSource) (crossing : Crossing) :
    s.Adds ⟨env, .reference source crossing⟩ (s.addReference env (.source source) crossing) := by
  have same (sourced : s.Sourced) :
      (s.addReference env (.source source) crossing).2.Sourced := by
    intro e i r held
    rcases reference?_addReference s env (.source source) crossing e i with old | ⟨-, new⟩
    · exact sourced e i r (old ▸ held)
    · rw [new] at held
      cases held
      exact ⟨source, rfl⟩
  unfold Adds
  unfold addReference at same ⊢
  cases accepted : s.refusal? env with
  | some why => exact .inl ⟨why, rfl⟩
  | none =>
    rw [accepted] at same
    exact .inr ⟨_, _, rfl, same, tally_modify (known_of_accepted accepted) fun scope =>
      scope.tally_refer rfl⟩

end EnvStore

/-! ## Nodes that have their environments -/

namespace Tree

/-- How often a node was given its environments. -/
def populations (t : Tree) (n : NodeId) : Nat := if (t.node? n).any Node.isPopulated then 1 else 0

theorem populations_le (t : Tree) (n : NodeId) : t.populations n ≤ 1 := by
  unfold populations
  split <;> omega

theorem populations_of_nodes {s t : Tree} (same : t.nodes = s.nodes) (n : NodeId) :
    t.populations n = s.populations n := by
  unfold populations node?
  rw [same]

theorem populations_add_node {s t : Tree} (made : s.addNode new = .ok (n, t)) (m : NodeId) :
    t.populations m = s.populations m := by
  unfold populations
  rw [node_of_add_node made]
  split
  · next last =>
    have none_ : s.node? m = none :=
      Array.getElem?_eq_none (Nat.le_of_eq (by rw [last, (size_add_node made).1]; rfl))
    rw [none_]
    rfl
  · cases s.node? m with
    | none => rfl
    | some a =>
      rw [Option.map_some]
      split <;> rfl

theorem populations_set_envs {s t : Tree} (given : s.setEnvs n envs = .ok t) (m : NodeId) :
    t.populations m = s.populations m + if n = m then 1 else 0 := by
  obtain ⟨node, held, fresh, -, nodes⟩ := set_envs_ok given
  unfold populations
  by_cases same : n = m
  · subst same
    have after : t.node? n = some { node with envs := some envs } := by
      unfold node? at held ⊢
      simp [nodes, Array.getElem?_modify, held]
    simp [after, held, Node.isPopulated, fresh]
  · have raw : n.raw ≠ m.raw := fun eq => same (by cases n; cases m; exact congrArg _ eq)
    have after : t.node? m = s.node? m := by
      unfold node?
      rw [nodes, Array.getElem?_modify, if_neg raw]
    rw [after, if_neg same, Nat.add_zero]

end Tree

/-! ## Visits -/

/-- The actions that the language has for the nodes of a kind. -/
def Setting.actions (S : Setting) (kind : KindId) : List EnvAction :=
  ((S.language.envSpec kind).map (·.spec.actions)).getD []

/-- What one run of an action adds for the node `n`: to bind adds one binding at most, and to
refer adds one reference for each of the entities that the action evaluated to, or only for
the first of them where it fails. -/
inductive EnvAction.Adds (S : Setting) (n : NodeId) : EnvAction → List Addition → Prop
  | nothing : Adds S n action []
  | binding (env : EnvId) (symbol : Symbol) (entity : Entity) :
      Adds S n (.addToEnv key value metadata dest) [⟨env, .binding symbol ⟨entity, metadata⟩⟩]
  | references {f g : Frame} (env : EnvId) (crossed : Option (EnvId × EnvId)) (i : Nat)
      (own : f.entity = .bare n)
      (found : (eval S (.upTo S depth) nodes >>= referenceTargets) f s = ((.ok targets, g), t)) :
      Adds S n (.reference nodes through metadata rebind) ((targets.take i).map fun e =>
        ⟨env, .reference (.property e through) ⟨metadata, crossed⟩⟩)
  | unit (env : EnvId) : Adds S n (.referenceUnit name) [⟨env, .reference (.unit name) .none⟩]

/-- A visit of a node: what each of the actions that were run has added, and whether the node
was given its environments in the end. -/
structure Visit where
  node : NodeId
  added : List (List Addition)
  complete : Bool

namespace Visit

def additions (v : Visit) : List Addition := v.added.flatten

/-- Whether it is this visit that gave a node its environments. -/
def completes (v : Visit) (n : NodeId) : Bool := v.complete && v.node = n

/-- Whether it is a visit of this node that was broken off. -/
def breaks (v : Visit) (n : NodeId) : Bool := !v.complete && v.node = n

/-- A visit runs the actions for the kind of the node in their order, as far as it gets. -/
def Fits (S : Setting) (t : Tree) (v : Visit) : Prop :=
  ∃ node ran, t.node? v.node = some node ∧ ran <+: S.actions node.kind ∧
    List.Forall₂ (EnvAction.Adds S v.node) ran v.added ∧
    (v.complete → ran = S.actions node.kind)

theorem fits_later {s t : Tree} {v : Visit} (later : s.Later t) (fits : v.Fits S s) :
    v.Fits S t := by
  obtain ⟨node, ran, held, part, added, whole⟩ := fits
  obtain ⟨node', still, same⟩ := later.nodes v.node.raw node held
  exact ⟨node', ran, still, same.kind ▸ part, added, same.kind ▸ whole⟩

end Visit

/-- What happened between two points of a run: `own` was added outside of any visit that came
to its end, and the visits of the log did the rest. -/
structure Session.Ledger (S : Setting) (s t : Session) (own : List Addition) (log : List Visit) :
    Prop where
  tree : s.tree.Later t.tree
  loader : t.loader = s.loader
  sourced : s.envs.Sourced → t.envs.Sourced
  tally : ∀ a, t.envs.tally a =
    s.envs.tally a + (own ++ log.flatMap Visit.additions).count a
  populations : ∀ n, t.tree.populations n =
    s.tree.populations n + log.countP (·.completes n)
  fits : ∀ v ∈ log, v.Fits S t.tree

namespace Session

variable {S : Setting} {s t u : Session}

theorem ledger_trans (first : s.Ledger S t own log) (rest : t.Ledger S u more later) :
    s.Ledger S u (own ++ more) (log ++ later) where
  tree := Tree.later_trans first.tree rest.tree
  loader := rest.loader.trans first.loader
  sourced known := rest.sourced (first.sourced known)
  tally a := by
    rw [rest.tally, first.tally, List.flatMap_append]
    simp only [List.count_append]
    omega
  populations n := by
    rw [rest.populations, first.populations, List.countP_append]
    omega
  fits v mem := by
    rcases List.mem_append.1 mem with old | new
    · exact Visit.fits_later rest.tree (first.fits v old)
    · exact rest.fits v new

/-- Nothing happened if the nodes and the environments hold what they held. -/
theorem ledger_of_frame (tree : s.tree.Later t.tree)
    (populations : ∀ n, t.tree.populations n = s.tree.populations n)
    (tally : ∀ a, t.envs.tally a = s.envs.tally a)
    (sourced : s.envs.Sourced → t.envs.Sourced) (loader : t.loader = s.loader) :
    s.Ledger S t [] [] :=
  ⟨tree, loader, sourced, tally, populations, nofun⟩

theorem ledger_of_tree (tree : s.tree.Later t.tree)
    (populations : ∀ n, t.tree.populations n = s.tree.populations n) (envs : t.envs = s.envs)
    (loader : t.loader = s.loader) : s.Ledger S t [] [] :=
  ledger_of_frame tree populations (fun _ => envs ▸ rfl) (fun known => envs ▸ known) loader

theorem ledger_of_same (tree : t.tree = s.tree) (envs : t.envs = s.envs)
    (loader : t.loader = s.loader) : s.Ledger S t [] [] :=
  ledger_of_tree (tree ▸ Tree.later_refl _) (fun _ => tree ▸ rfl) envs loader

theorem ledger_refl (s : Session) : s.Ledger S s [] [] := ledger_of_same rfl rfl rfl

theorem ledger_report (s : Session) (code : ErrorCode) (message : String) (location : Location) :
    s.Ledger S (s.report code message location) [] [] :=
  ledger_of_same rfl rfl rfl

theorem ledger_set_state (s : Session) (env : EnvId) (index : Nat) (state : RefState) :
    s.Ledger S { s with envs := s.envs.setState env index state } [] [] :=
  ledger_of_frame (Tree.later_refl _) (fun _ => rfl) (s.envs.tally_set_state env index state)
    (fun known => EnvStore.sourced_set_state known env index state) rfl

theorem ledger_create (s : Session) (parent : Option EnvId) (owner : Option NodeId) :
    s.Ledger S { s with envs := (s.envs.create parent owner).2 } [] [] :=
  ledger_of_frame (Tree.later_refl _) (fun _ => rfl) (s.envs.tally_create parent owner)
    (fun known => EnvStore.sourced_create known parent owner) rfl

/-- What is added outside of visits. -/
theorem ledger_change {change : EnvStore → Except EnvError α × EnvStore} {a : Addition}
    (s : Session) (adds : s.envs.Adds a (change s.envs)) :
    s.Ledger S (EvalM.changeEnvs change s).2
      (if (EvalM.changeEnvs change s).1.isOk then [a] else []) [] := by
  unfold EvalM.changeEnvs
  rcases adds with ⟨why, refused⟩ | ⟨x, t, accepted, same, tally⟩
  · rw [refused]
    exact ledger_refl s
  · rw [accepted]
    exact ⟨Tree.later_refl _, rfl, same, tally, fun _ => rfl, nofun⟩

theorem ledger_open_top (s : Session) (root : NodeId) (unit : UnitId) :
    s.Ledger S (s.openTop root unit).2 [] [] := by
  obtain ⟨unitEnvs, eq⟩ := open_top_eq s root unit
  rw [eq]
  exact ⟨Tree.later_refl _, rfl, fun known => EnvStore.sourced_create known _ _,
    s.envs.tally_create _ _, fun _ => rfl, nofun⟩

theorem ledger_set_root {root : NodeId} (given : s.setRoot unit root = .ok t) :
    s.Ledger S t [] [] := by
  obtain ⟨tree, set_, rfl⟩ := set_root_ok given
  have later := Tree.set_root_later set_
  obtain ⟨-, -, -, -, -, rfl⟩ := Tree.set_root_ok set_
  exact ledger_of_tree later (Tree.populations_of_nodes rfl) rfl rfl

/-- A visit that was broken off has added what its actions added before. -/
theorem ledger_broken (inside : s.Ledger S t v.additions log) (fits : v.Fits S t.tree)
    (broken : v.complete = false) : s.Ledger S t [] (log ++ [v]) where
  tree := inside.tree
  loader := inside.loader
  sourced := inside.sourced
  tally a := by
    rw [inside.tally]
    simp only [List.flatMap_append, List.flatMap_singleton, List.count_append, List.count_nil]
    omega
  populations n := by
    rw [inside.populations, List.countP_append]
    simp [Visit.completes, broken]
  fits w mem := by
    rcases List.mem_append.1 mem with old | new
    · exact inside.fits w old
    · exact List.mem_singleton.1 new ▸ fits

/-- A visit that comes to its end gives the node its environments. -/
theorem ledger_complete {tree : Tree} (inside : s.Ledger S t v.additions log)
    (fits : v.Fits S t.tree) (complete : v.complete = true)
    (given : t.tree.setEnvs v.node found = .ok tree) :
    s.Ledger S { t with tree } [] (log ++ [v]) where
  tree := Tree.later_trans inside.tree (Tree.set_envs_later given)
  loader := inside.loader
  sourced := inside.sourced
  tally a := by
    show t.envs.tally a = _
    rw [inside.tally]
    simp only [List.flatMap_append, List.flatMap_singleton, List.count_append, List.count_nil]
    omega
  populations n := by
    show tree.populations n = _
    rw [Tree.populations_set_envs given, inside.populations, List.countP_append]
    by_cases same : v.node = n <;> simp [Visit.completes, complete, same, Nat.add_assoc]
  fits w mem := by
    refine Visit.fits_later (Tree.set_envs_later given) ?_
    rcases List.mem_append.1 mem with old | new
    · exact inside.fits w old
    · exact List.mem_singleton.1 new ▸ fits

end Session

/-- Histories between which nothing happened that a ledger lists. -/
def Eventless (S : Setting) (h k : History) : Prop := h.now.Ledger S k.now [] []

section Eventless
open Session
variable {S : Setting}

instance : Makes (Eventless S) where
  refl h := ledger_refl h.now
  trans first rest := ledger_trans first rest
  interned _ _ _ := ledger_of_same rfl rfl rfl
  node _ _ _ _ _ made :=
    ledger_of_tree (Tree.add_node_later made) (Tree.populations_add_node made) rfl rfl

theorem ledger_new_unit (s : Session) (name : String) : s.Ledger S (s.newUnit name).2 [] [] :=
  ledger_of_tree (onward_new_unit s name).tree (Tree.populations_of_nodes rfl) rfl rfl

instance : Builds S (Eventless S) where
  unit s _ _ _ _ := ledger_new_unit s _
  carried s _ u _ plan _ := carry_out_makes s u plan
  rooted _ _ _ _ _ given := ledger_set_root given

end Eventless
end Trellis
