import Trellis.Proofs.Scope
import Trellis.Proofs.Session.Attempts

/-! What is said about environments is only ever added to. A host creates environments, binds
and refers as it likes, population and the thunks of references do so in the middle of an
evaluation, and any of it may fail. All of them go through the changes of the store, one
after the other, so what every change keeps holds from each point of a run to each later
one. -/
namespace Trellis

/-- What an environment refers to, and what comes with that, however far it is resolved. -/
def Scope.refers (a : Scope) : List (EnvThunk × Crossing) :=
  a.references.toList.map fun r => (r.thunk, r.crossing)

/-- An environment that does not bind the empty symbol and is not inside the empty environment. -/
structure Scope.Proper (a : Scope) : Prop where
  keys : a.newestFirst .empty = []
  parent : a.parent ≠ some .empty

namespace EnvStore
variable {s t : EnvStore}

def refers (s : EnvStore) (e : EnvId) : List (EnvThunk × Crossing) :=
  match s.scope? e with
  | some scope => scope.refers
  | none => []

/-- A store that has been added to. Environments keep their parents and owners, and new bindings
and references come after the older ones. -/
structure Appended (s t : EnvStore) : Prop where
  size : s.size ≤ t.size
  parent : ∀ e : EnvId, e.raw < s.size → t.parent e = s.parent e
  owner : ∀ e : EnvId, e.raw < s.size → t.owner e = s.owner e
  bindings : ∀ e symbol, s.bindings e symbol <+: t.bindings e symbol
  refers : ∀ e, s.refers e <+: t.refers e

/-- The empty environment has no parent, no owner, no bindings and no references, and all
environments are proper. -/
structure Grounded (s : EnvStore) : Prop where
  empty : s.scope? .empty = some (.opened none none)
  proper : ∀ e scope, s.scope? e = some scope → scope.Proper

/-! ## References -/

theorem refers_modify (s : EnvStore) (env e : EnvId) {change : Scope → Scope}
    (keeps : ∀ scope, scope.refers <+: (change scope).refers) :
    s.refers e <+: (⟨s.scopes.modify env.raw change⟩ : EnvStore).refers e := by
  unfold refers
  rw [scope?_modify]
  by_cases here : e = env
  · rw [if_pos here]
    cases s.scope? e with
    | none => exact List.prefix_rfl
    | some scope => exact keeps scope
  · rewrite [if_neg here]
    exact List.prefix_rfl

theorem env_change_refers (step : EnvChange s t) (e : EnvId) : s.refers e <+: t.refers e := by
  cases step with
  | created parent owner =>
    unfold refers
    rw [scope?_create]
    by_cases next : e.raw = s.size
    · rw [scope?_next next]
      exact List.nil_prefix
    · rewrite [if_neg next]
      exact List.prefix_rfl
  | bound env symbol entity metadata =>
    cases added : (s.addBinding env symbol entity metadata).1 with
    | error why =>
      rewrite [addBinding_refused added]
      exact List.prefix_rfl
    | ok done =>
      rw [(addBinding_ok added).2.2]
      exact refers_modify s env e fun _ => List.prefix_rfl
  | referred env thunk crossing =>
    cases added : (s.addReference env thunk crossing).1 with
    | error why =>
      rewrite [addReference_refused added]
      exact List.prefix_rfl
    | ok i =>
      rw [(addReference_ok added).2]
      refine refers_modify s env e fun scope => ?_
      simp [Scope.refers, Scope.refer]
  | marked env index state =>
    refine refers_modify s env e fun scope => ?_
    have blind : (scope.references.modify index ({ · with state })).map
        (fun r => (r.thunk, r.crossing)) =
        scope.references.map fun r => (r.thunk, r.crossing) :=
      map_modify_of_blind (fun _ => by rfl) scope.references index
    have same : ({ scope with references := scope.references.modify index ({ · with state }) } :
        Scope).refers = scope.refers := by
      simpa [Scope.refers] using congrArg Array.toList blind
    rewrite [same]
    exact List.prefix_rfl

/-! ## The empty environment and the empty symbol -/

theorem Scope.proper_opened (parent : Option EnvId) (owner : Option NodeId) :
    (Scope.opened (parent.filter (· ≠ .empty)) owner).Proper := by
  refine ⟨Scope.newestFirst_opened _ _ _, fun inside => ?_⟩
  have kept : parent.filter (· ≠ .empty) = some .empty := inside
  simp [Option.filter_eq_some_iff] at kept

theorem grounded_new : EnvStore.new.Grounded where
  empty := rfl
  proper e scope held := by
    obtain ⟨_ | raw⟩ := e
    · cases held
      exact Scope.proper_opened none none
    · cases held

theorem grounded_create (grounded : s.Grounded) (parent : Option EnvId) (owner : Option NodeId) :
    (s.create parent owner).2.Grounded where
  empty := by
    have real : EnvId.empty.raw < s.size := (Array.getElem?_eq_some_iff.1 grounded.empty).1
    rw [scope?_create, if_neg (Nat.ne_of_lt real), grounded.empty]
  proper e scope held := by
    rw [scope?_create] at held
    split at held
    · cases held
      exact Scope.proper_opened parent owner
    · exact grounded.proper e scope held

theorem grounded_modify (grounded : s.Grounded) (env : EnvId) {change : Scope → Scope}
    (first : env = .empty → change (.opened none none) = .opened none none)
    (keeps : ∀ scope : Scope, scope.Proper → (change scope).Proper) :
    (⟨s.scopes.modify env.raw change⟩ : EnvStore).Grounded where
  empty := by
    rw [scope?_modify, grounded.empty]
    split
    · next here => rw [Option.map_some, first here.symm]
    · rfl
  proper e scope held := by
    rw [scope?_modify] at held
    split at held
    · obtain ⟨old, there, rfl⟩ := Option.map_eq_some_iff.1 held
      exact keeps old (grounded.proper e old there)
    · exact grounded.proper e scope held

theorem env_change_grounded (step : EnvChange s t) (grounded : s.Grounded) : t.Grounded := by
  cases step with
  | created parent owner => exact grounded_create grounded parent owner
  | bound env symbol entity metadata =>
    cases added : (s.addBinding env symbol entity metadata).1 with
    | error why => rwa [addBinding_refused added]
    | ok done =>
      obtain ⟨allowed, valid, added⟩ := addBinding_ok added
      rw [added]
      refine grounded_modify grounded env (fun nowhere => absurd nowhere (real_of_accepted allowed))
        fun scope proper => ⟨?_, proper.parent⟩
      rw [Scope.newestFirst_bind, if_neg valid, proper.keys]
  | referred env thunk crossing =>
    cases added : (s.addReference env thunk crossing).1 with
    | error why => rwa [addReference_refused added]
    | ok i =>
      obtain ⟨allowed, added⟩ := addReference_ok added
      rw [added]
      exact grounded_modify grounded env (fun nowhere => absurd nowhere (real_of_accepted allowed))
        fun scope proper => ⟨proper.keys, proper.parent⟩
  | marked env index state =>
    -- A reference of the empty environment would be marked as well, but there is none.
    refine grounded_modify grounded env (fun _ => ?_)
      fun scope proper => ⟨proper.keys, proper.parent⟩
    simp [Scope.opened, Array.modify, Array.modifyM]

end EnvStore

section Paths
variable {S : Setting} {h k : History}

theorem path_grounded (path : Path S h k) (grounded : h.now.envs.Grounded) :
    k.now.envs.Grounded := by
  refine path_keeps (P := fun l => l.now.envs.Grounded) (fun l m step sofar => ?_) path grounded
  rcases change_envs step with same | step
  · rwa [same]
  · exact EnvStore.env_change_grounded step sofar

theorem path_refers (path : Path S h k) (e : EnvId) :
    h.now.envs.refers e <+: k.now.envs.refers e := by
  refine path_keeps (P := fun l => h.now.envs.refers e <+: l.now.envs.refers e)
    (fun l m step sofar => ?_) path List.prefix_rfl
  rcases change_envs step with same | step
  · rwa [same]
  · exact sofar.trans (EnvStore.env_change_refers step e)

theorem path_appended (path : Path S h k) : h.now.envs.Appended k.now.envs := by
  have kept := path_scopes path
  have still (e : EnvId) (known : e.raw < h.now.envs.size) : ∃ a b,
      h.now.envs.scope? e = some a ∧ k.now.envs.scope? e = some b ∧ a.Kept b := by
    obtain ⟨b, there, same⟩ := kept e.raw _ (Array.getElem?_eq_getElem known)
    exact ⟨_, b, Array.getElem?_eq_getElem known, there, same⟩
  refine ⟨grown_size kept, fun e known => ?_, fun e known => ?_, fun e symbol => ?_,
    path_refers path⟩
  · obtain ⟨a, b, held, there, same⟩ := still e known
    rw [EnvStore.parent, EnvStore.parent, held, there]
    exact same.parent
  · obtain ⟨a, b, held, there, same⟩ := still e known
    rw [EnvStore.owner, EnvStore.owner, held, there]
    exact same.owner
  · exact List.reverse_prefix.2 (EnvStore.newest_first_kept kept e symbol)

/-- To be refused a change of the store is to leave the session as it was. -/
theorem EvalM.change_envs_refused {f : EnvStore → Except EnvError α × EnvStore} {s t : Session}
    (unmade : ∀ why, (f s.envs).1 = .error why → (f s.envs).2 = s.envs)
    (refused : changeEnvs f s = (.error halt, t)) : t = s := by
  obtain ⟨failed, rfl⟩ := Prod.mk.inj refused
  cases asked : (f s.envs).1 with
  | ok a =>
    rw [asked] at failed
    cases failed
  | error why => rw [unmade why asked]

/-- **Environments are only added to.** Wherever a host has got to, within an operation or
between two, the empty environment has no parent, no bindings and no references, no
environment binds the empty symbol, and none is inside the empty one. From there all
operations, however they end, lead on by changes after each of which environments have the
parents and owners they had, and bindings and references come after those there were. What
the store refuses to add changes nothing. -/
theorem environments_only_added_to (reached : Reachable S h) :
    h.now.envs.Grounded ∧
    (∀ (os : List Operation) depth, ∃ populated,
      Path S h ⟨os.foldl (Operation.run S (.upTo S depth)) h.now, populated⟩) ∧
    (∀ k, Path S h k → k.now.envs.Grounded ∧ h.now.envs.Appended k.now.envs) ∧
    (∀ env symbol entity metadata halt t,
      EvalM.changeEnvs (·.addBinding env symbol entity metadata) h.now = (.error halt, t) →
        t = h.now) ∧
    ∀ env thunk crossing halt t,
      EvalM.changeEnvs (·.addReference env thunk crossing) h.now = (.error halt, t) →
        t = h.now := by
  have grounded : h.now.envs.Grounded := by
    obtain ⟨pool, bag, loader, path⟩ := reached
    exact path_grounded path EnvStore.grounded_new
  refine ⟨grounded, path_of_run h, fun k path => ⟨path_grounded path grounded, path_appended path⟩,
    fun _ _ _ _ _ _ refused => ?_, fun _ _ _ _ _ refused => ?_⟩
  · exact EvalM.change_envs_refused (fun _ => EnvStore.addBinding_refused) refused
  · exact EvalM.change_envs_refused (fun _ => EnvStore.addReference_refused) refused

end Paths

/-- An environment binds a symbol and refers to itself. Then the reference is resolved, the
symbol is bound again, and another environment is created in the empty one. -/
theorem environments_only_added_to_of_reference :
    let S : Setting := ⟨.leaves #[], .standard⟩
    let bind (symbol : Symbol) : Operation := .request (.addBinding ⟨1⟩ symbol (.bare ⟨0⟩) .empty)
    let thunk : EnvThunk := .source (.env (.plain ⟨1⟩))
    let s := [.request (.createEnv none none), bind ⟨1⟩, .refer ⟨1⟩ thunk .none].foldl
      (Operation.run S (.upTo S 1)) (.new (.new none) .standard .absent)
    let t := [.request (.resolve ⟨1⟩ 0), bind ⟨1⟩, .request (.createEnv (some .empty) none)].foldl
      (Operation.run S (.upTo S 1)) s
    s.envs.Grounded ∧ t.envs.Grounded ∧ s.envs.Appended t.envs ∧
    s.envs.state? ⟨1⟩ 0 = some .unresolved ∧
    t.envs.state? ⟨1⟩ 0 = some (.resolved (.plain ⟨1⟩)) ∧
    s.envs.size = 2 ∧ t.envs.size = 3 ∧ t.envs.parent ⟨2⟩ = none ∧
    EvalM.changeEnvs (·.addBinding ⟨1⟩ .empty (.bare ⟨0⟩) .empty) t =
      (.error (.failure (.of (.env .invalidKey))), t) ∧
    EvalM.changeEnvs (·.addReference .empty thunk .none) t =
      (.error (.failure (.of (.env .emptyEnv))), t) := by
  intro S bind thunk s t
  obtain ⟨_, reached⟩ : ∃ populated, Reachable S ⟨s, populated⟩ :=
    reachable_of_run (h := ⟨.new (.new none) .standard .absent, []⟩) ⟨_, _, _, .refl⟩ _ 1
  obtain ⟨grounded, runs, only, -⟩ := environments_only_added_to reached
  obtain ⟨_, path⟩ : ∃ populated, Path S ⟨s, _⟩ ⟨t, populated⟩ := runs _ 1
  obtain ⟨still, appended⟩ := only _ path
  obtain ⟨-, -, -, noBinding, noReference⟩ :=
    environments_only_added_to (reachable_of_path reached path)
  refine ⟨grounded, still, appended, by decide +kernel, by decide +kernel, by decide +kernel,
    by decide +kernel, by decide +kernel, ?_, ?_⟩
  · exact Prod.ext rfl (noBinding ⟨1⟩ .empty (.bare ⟨0⟩) .empty (.failure _) _ rfl)
  · exact Prod.ext rfl (noReference .empty thunk .none (.failure _) _ rfl)

end Trellis
