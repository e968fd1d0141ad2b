import Trellis.Scope.Store

/-! What the environment store looks like after each of its changes. Bindings and
references are only ever added, and only the states of references change. -/
namespace Trellis

/-- To change an entry of an array is not seen by what does not see the change. -/
theorem map_modify_of_blind {f : α → β} {change : α → α} (blind : ∀ x, f (change x) = f x)
    (xs : Array α) (i : Nat) : (xs.modify i change).map f = xs.map f := by
  refine Array.ext_getElem? fun j => ?_
  simp only [Array.getElem?_map, Array.getElem?_modify]
  split
  · rw [Option.map_map]
    exact Option.map_congr fun x _ => blind x
  · rfl

theorem Scope.newestFirst_opened (parent : Option EnvId) (owner : Option NodeId) (symbol : Symbol) :
    (Scope.opened parent owner).newestFirst symbol = [] := by
  unfold Scope.newestFirst Scope.opened
  rw [Std.HashMap.getElem?_empty]
  rfl

namespace EnvStore

theorem scope?_create (s : EnvStore) (parent : Option EnvId) (owner : Option NodeId) (e : EnvId) :
    (s.create parent owner).2.scope? e = if e.raw = s.size
      then some (.opened (parent.filter (· ≠ .empty)) owner) else s.scope? e :=
  Array.getElem?_push

theorem scope?_modify (s : EnvStore) (env e : EnvId) (f : Scope → Scope) :
    (⟨s.scopes.modify env.raw f⟩ : EnvStore).scope? e =
      if e = env then (s.scope? e).map f else s.scope? e := by
  unfold scope?
  rw [Array.getElem?_modify]
  by_cases same : e = env
  · rw [if_pos same, if_pos (congrArg (·.raw) same).symm]
  · rw [if_neg same, if_neg fun eq => same (by cases e; cases env; exact congrArg _ eq.symm)]

/-- There is nothing yet at the place of the next environment. -/
theorem scope?_next {s : EnvStore} {e : EnvId} (next : e.raw = s.size) : s.scope? e = none :=
  Array.getElem?_eq_none (Nat.le_of_eq next.symm)

theorem reference?_eq (s : EnvStore) (e : EnvId) (i : Nat) :
    s.reference? e i = (s.scope? e).bind (·.references[i]?) := by
  unfold reference? references
  cases s.scope? e <;> rfl

theorem reference?_new (e : EnvId) (i : Nat) : EnvStore.new.reference? e i = none := by
  rw [reference?_eq]
  obtain ⟨_ | raw⟩ := e <;> rfl

theorem reference?_create (s : EnvStore) (parent : Option EnvId) (owner : Option NodeId)
    (e : EnvId) (i : Nat) : (s.create parent owner).2.reference? e i = s.reference? e i := by
  rw [reference?_eq, reference?_eq, scope?_create]
  split
  · next next => rw [scope?_next next]; rfl
  · rfl

theorem reference?_addBinding (s : EnvStore) (env : EnvId) (symbol : Symbol) (entity : Entity)
    (metadata : Metadata) (e : EnvId) (i : Nat) :
    (s.addBinding env symbol entity metadata).2.reference? e i = s.reference? e i := by
  unfold addBinding
  split
  · rfl
  · split
    · rfl
    · rw [reference?_eq, reference?_eq, scope?_modify]
      split
      · cases s.scope? e <;> rfl
      · rfl

/-- The empty environment cannot be changed. -/
theorem real_of_accepted {s : EnvStore} (accepted : s.refusal? env = none) : env ≠ .empty := by
  intro nowhere
  rw [refusal?, if_pos nowhere] at accepted
  cases accepted

/-- An environment that can be changed is there. -/
theorem known_of_accepted {s : EnvStore} (accepted : s.refusal? env = none) :
    (s.scope? env).isSome := by
  unfold refusal? at accepted
  split at accepted
  · cases accepted
  · split at accepted
    · next there => simpa [scope?, size] using there
    · cases accepted

section Bindings
variable {s : EnvStore} {env : EnvId} {symbol : Symbol} {entity : Entity} {metadata : Metadata}

/-- A binding that is refused is not made. -/
theorem addBinding_refused (refused : (s.addBinding env symbol entity metadata).1 = .error why) :
    (s.addBinding env symbol entity metadata).2 = s := by
  unfold addBinding at refused ⊢
  split
  · rfl
  · next valid =>
    rw [if_neg valid] at refused
    cases allowed : s.refusal? env with
    | some why => rfl
    | none => simp [allowed] at refused

variable (accepted : (s.addBinding env symbol entity metadata).1 = .ok ())
include accepted

/-- A binding that is accepted is made, and nothing else changes. -/
theorem addBinding_ok : s.refusal? env = none ∧ symbol ≠ .empty ∧
    (s.addBinding env symbol entity metadata).2 =
      ⟨s.scopes.modify env.raw (·.bind symbol ⟨entity, metadata⟩)⟩ := by
  unfold addBinding at accepted ⊢
  split at accepted
  · cases accepted
  · next valid =>
    rw [if_neg valid]
    cases allowed : s.refusal? env with
    | some why => simp [allowed] at accepted
    | none => exact ⟨rfl, fun nothing => valid ((Symbol.isEmpty_iff symbol).2 nothing), rfl⟩

theorem scope?_addBinding (e : EnvId) : (s.addBinding env symbol entity metadata).2.scope? e =
    if e = env then (s.scope? e).map (·.bind symbol ⟨entity, metadata⟩) else s.scope? e := by
  rw [(addBinding_ok accepted).2.2, scope?_modify]

/-- A binding that is accepted comes before the older ones. -/
theorem newestFirst_addBinding :
    (s.addBinding env symbol entity metadata).2.newestFirst env symbol =
      ⟨entity, metadata⟩ :: s.newestFirst env symbol := by
  obtain ⟨scope, held⟩ := Option.isSome_iff_exists.1 (known_of_accepted (addBinding_ok accepted).1)
  simp only [newestFirst, scope?_addBinding accepted, held, if_true, Option.map_some]
  rw [Scope.newestFirst_bind, if_pos rfl]

end Bindings

section References
variable {s : EnvStore} {env : EnvId} {thunk : EnvThunk} {crossing : Crossing}

/-- A reference that is refused is not added. -/
theorem addReference_refused (refused : (s.addReference env thunk crossing).1 = .error why) :
    (s.addReference env thunk crossing).2 = s := by
  unfold addReference at refused ⊢
  cases allowed : s.refusal? env with
  | some why => rfl
  | none => simp [allowed] at refused

/-- A reference that is accepted is added, and nothing else changes. -/
theorem addReference_ok (accepted : (s.addReference env thunk crossing).1 = .ok i) :
    s.refusal? env = none ∧ (s.addReference env thunk crossing).2 =
      ⟨s.scopes.modify env.raw (·.refer ⟨thunk, crossing, .unresolved⟩)⟩ := by
  unfold addReference at accepted ⊢
  cases allowed : s.refusal? env with
  | some why => simp [allowed] at accepted
  | none => exact ⟨rfl, rfl⟩

/-- A reference that is accepted comes after the older ones. -/
theorem references_addReference (accepted : (s.addReference env thunk crossing).1 = .ok i) :
    (s.addReference env thunk crossing).2.references env =
      (s.references env).push ⟨thunk, crossing, .unresolved⟩ := by
  obtain ⟨allowed, added⟩ := addReference_ok accepted
  obtain ⟨scope, held⟩ := Option.isSome_iff_exists.1 (known_of_accepted allowed)
  rw [added]
  simp only [references, scope?_modify, held, if_true, Option.map_some]
  rfl

end References

/-- A new reference is not resolved, and the others are as they were. -/
theorem reference?_addReference (s : EnvStore) (env : EnvId) (thunk : EnvThunk)
    (crossing : Crossing) (e : EnvId) (i : Nat) :
    (s.addReference env thunk crossing).2.reference? e i = s.reference? e i ∨
      s.reference? e i = none ∧ (s.addReference env thunk crossing).2.reference? e i =
        some ⟨thunk, crossing, .unresolved⟩ := by
  unfold addReference
  split
  · exact .inl rfl
  · dsimp only
    rw [reference?_eq, reference?_eq, scope?_modify]
    split
    · cases s.scope? e with
      | none => exact .inl rfl
      | some scope =>
        simp only [Option.map_some, Option.bind_some, Scope.refer, Array.getElem?_push]
        split
        · next next => exact .inr ⟨Array.getElem?_eq_none (Nat.le_of_eq next.symm), rfl⟩
        · exact .inl rfl
    · exact .inl rfl

theorem reference?_setState (s : EnvStore) (env : EnvId) (index : Nat) (state : RefState)
    (e : EnvId) (i : Nat) :
    (s.setState env index state).reference? e i = if e = env ∧ i = index
      then (s.reference? e i).map ({ · with state }) else s.reference? e i := by
  unfold setState
  rw [reference?_eq, reference?_eq, scope?_modify]
  by_cases here : e = env
  · cases s.scope? e with
    | none => simp
    | some scope =>
      by_cases same : i = index
      · simp [here, same, Array.getElem?_modify]
      · simp [here, same, Array.getElem?_modify, Ne.symm same]
  · simp [here]

/-- How a reference is resolved stays what it is. -/
theorem thunk_of_set_state {s : EnvStore}
    (held : (s.setState env index state).reference? e i = some r) :
    ∃ old, s.reference? e i = some old ∧ old.thunk = r.thunk := by
  rw [reference?_setState] at held
  split at held
  · obtain ⟨old, there, rfl⟩ := Option.map_eq_some_iff.1 held
    exact ⟨old, there, rfl⟩
  · exact ⟨r, held, rfl⟩

/-! ## States of references -/

/-- How far a reference is resolved. -/
def state? (s : EnvStore) (e : EnvId) (i : Nat) : Option RefState :=
  (s.reference? e i).map (·.state)

/-- Every reference has been resolved. -/
def AllResolved (s : EnvStore) : Prop :=
  ∀ env index reference, s.reference? env index = some reference →
    ∃ value, reference.state = .resolved value

/-- Whether a reference is being resolved. -/
def Resolving (s : EnvStore) (e : EnvId) (i : Nat) : Prop := s.state? e i = some .resolving

theorem resolving_create (s : EnvStore) (parent : Option EnvId) (owner : Option NodeId)
    (e : EnvId) (i : Nat) : (s.create parent owner).2.Resolving e i ↔ s.Resolving e i := by
  unfold Resolving state?
  rw [reference?_create]

theorem resolving_addBinding (s : EnvStore) (env : EnvId) (symbol : Symbol) (entity : Entity)
    (metadata : Metadata) (e : EnvId) (i : Nat) :
    (s.addBinding env symbol entity metadata).2.Resolving e i ↔ s.Resolving e i := by
  unfold Resolving state?
  rw [reference?_addBinding]

theorem resolving_addReference (s : EnvStore) (env : EnvId) (thunk : EnvThunk)
    (crossing : Crossing) (e : EnvId) (i : Nat) :
    (s.addReference env thunk crossing).2.Resolving e i ↔ s.Resolving e i := by
  unfold Resolving state?
  rcases reference?_addReference s env thunk crossing e i with same | ⟨none_, new⟩
  · rw [same]
  · rw [none_, new]
    simp

theorem state?_setState {s : EnvStore} (held : s.reference? env index = some reference)
    (state : RefState) (e : EnvId) (i : Nat) : (s.setState env index state).state? e i =
      if (e, i) = (env, index) then some state else s.state? e i := by
  unfold state?
  rw [reference?_setState]
  by_cases here : e = env ∧ i = index
  · rw [if_pos here, if_pos (Prod.ext here.1 here.2), here.1, here.2, held]
    rfl
  · rw [if_neg here, if_neg fun same => here (Prod.mk.inj same)]

theorem resolving_setState {s : EnvStore} (held : s.reference? env index = some reference)
    (state : RefState) (e : EnvId) (i : Nat) : (s.setState env index state).Resolving e i ↔
      if e = env ∧ i = index then state = .resolving else s.Resolving e i := by
  unfold Resolving
  simp only [state?_setState held, Prod.mk.injEq]
  split
  · exact Option.some_inj
  · rfl

end EnvStore
end Trellis
