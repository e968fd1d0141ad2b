import Trellis.Proofs.Session.Marks

/-! The references that are resolved, in the order in which that is completed. A stage of
a run has the references whose environments are being produced, those that were resolved
so far, and the session. The thunk of a reference is not run while it is running already
or after it gave an environment, so every reference is resolved once at most, and the
states of the references say what was completed and what is under way and nothing else. -/
namespace Trellis

/-- References are as they were, and those that are new are not resolved. -/
structure EnvStore.Untouched (s t : EnvStore) : Prop where
  kept : ∀ env index reference, s.reference? env index = some reference →
    t.reference? env index = some reference
  fresh : ∀ env index reference, s.reference? env index = none →
    t.reference? env index = some reference → reference.state = .unresolved

namespace EnvStore
variable {s t : EnvStore}

theorem untouched_of_same (same : ∀ env index, t.reference? env index = s.reference? env index) :
    s.Untouched t where
  kept env index _ held := (same env index).trans held
  fresh env index _ absent held := by rw [same, absent] at held; cases held

theorem untouched_add_reference (s : EnvStore) (env : EnvId) (thunk : EnvThunk)
    (crossing : Crossing) : s.Untouched (s.addReference env thunk crossing).2 where
  kept e i r held := by
    rcases reference?_addReference s env thunk crossing e i with same | ⟨absent, -⟩
    · rw [same, held]
    · rw [absent] at held; cases held
  fresh e i r absent held := by
    rcases reference?_addReference s env thunk crossing e i with same | ⟨-, new⟩
    · rw [same, absent] at held; cases held
    · rw [new] at held; cases held; rfl

/-- A state that a reference does not have from the start is had by the same references. -/
theorem Untouched.state_iff {state : RefState} (untouched : s.Untouched t)
    (later : state ≠ .unresolved) (env : EnvId) (index : Nat) :
    t.state? env index = some state ↔ s.state? env index = some state := by
  unfold state?
  cases held : s.reference? env index with
  | some reference => rw [untouched.kept env index reference held]
  | none =>
    cases found : t.reference? env index with
    | none => rfl
    | some reference => simp [untouched.fresh env index reference held found, later.symm]

end EnvStore

/-- The session with a reference in another state. -/
def Session.settle (s : Session) (env : EnvId) (index : Nat) (state : RefState) : Session :=
  { s with envs := s.envs.setState env index state }

theorem Session.report_cycle_eq (s : Session) (env : EnvId) (index : Nat) :
    ∃ message location, s.reportCycle env index = s.report .K2002 message location :=
  ⟨_, _, rfl⟩

/-- A reference that has been found unresolved and whose environment is being produced. -/
structure Forced where
  env : EnvId
  index : Nat
  reference : Reference
  /-- The session in which it was asked for. -/
  made : Session

namespace Forced

/-- Where the reference is. -/
def place (b : Forced) : EnvId × Nat := (b.env, b.index)

/-- The session that its thunk starts from, with the reference marked. -/
def start (b : Forced) : Session := b.made.mark b.env b.index

end Forced

/-- The reference whose environment an activity produces. -/
def Activity.place? : Activity → Option (EnvId × Nat)
  | .thunk env index => some (env, index)
  | _ => none

/-- A stage of a run: the references that are being resolved, the innermost first; those
that were resolved, with what is behind them, the oldest first; and the session. -/
structure Resolutions where
  underway : List Forced
  completed : List ((EnvId × Nat) × EnvValue)
  now : Session

namespace Resolutions

def start (pool : Pool) (bag : BagConfig) (home : LoaderState) : Resolutions :=
  ⟨[], [], .new pool bag home⟩

/-- The references that were resolved. -/
def places (m : Resolutions) : List (EnvId × Nat) := m.completed.map (·.1)

/-- The references that are being resolved. -/
def busy (m : Resolutions) : List (EnvId × Nat) := m.underway.map (·.place)

/-- What can happen at a stage. -/
inductive Step (S : Setting) : Resolutions → Resolutions → Prop
  /-- Anything happens that leaves the references there are alone. -/
  | changed {s t : Session} (untouched : s.envs.Untouched t.envs) :
      Step S ⟨bs, done, s⟩ ⟨bs, done, t⟩
  | begun {s : Session} (held : s.envs.reference? env index = some reference)
      (unresolved : reference.state = .unresolved) :
      Step S ⟨bs, done, s⟩ ⟨⟨env, index, reference, s⟩ :: bs, done, s.mark env index⟩
  /-- The thunk gave an environment. -/
  | completed {b : Forced} {v : EnvValue} {t : Session}
      (ran : EvalM.force S (.upTo S depth) b.reference.thunk b.start = (.ok v, t)) :
      Step S ⟨b :: bs, done, t⟩
        ⟨bs, done ++ [(b.place, v)], t.settle b.env b.index (.resolved v)⟩
  | failed {b : Forced} {t : Session}
      (ran : EvalM.force S (.upTo S depth) b.reference.thunk b.start = (.error halt, t)) :
      Step S ⟨b :: bs, done, t⟩ ⟨bs, done, t.settle b.env b.index .unresolved⟩

/-- The stages that follow a stage. -/
abbrev Later (S : Setting) : Resolutions → Resolutions → Prop := Relation.ReflTransGen (Step S)

/-- The states of the references say which ones were resolved, each of them once, with
what, and which ones are being resolved, which are different from these. -/
structure Sound (m : Resolutions) : Prop where
  once : (m.places ++ m.busy).Nodup
  resolved : ∀ env index v,
    m.now.envs.state? env index = some (.resolved v) ↔ ((env, index), v) ∈ m.completed
  resolving : ∀ env index, m.now.envs.Resolving env index ↔ (env, index) ∈ m.busy
  held : ∀ b ∈ m.underway,
    m.now.envs.reference? b.env b.index = some { b.reference with state := .resolving }

section Soundness
variable {S : Setting} {m n : Resolutions} {bs : List Forced}
  {done : List ((EnvId × Nat) × EnvValue)} {b other : Forced} {t : Session}

theorem sound_start (pool : Pool) (bag : BagConfig) (home : LoaderState) :
    (start pool bag home).Sound where
  once := .nil
  resolved env index v := by
    show EnvStore.state? .new env index = _ ↔ _
    simp [start, EnvStore.state?, EnvStore.reference?_new]
  resolving env index := by
    show EnvStore.Resolving .new env index ↔ _
    simp [start, busy, EnvStore.Resolving, EnvStore.state?, EnvStore.reference?_new]
  held b mem := (List.not_mem_nil mem).elim

/-- What is neither resolved nor being resolved waits for that. -/
theorem Sound.unresolved_iff (sound : m.Sound)
    (held : m.now.envs.reference? env index = some reference) :
    reference.state = .unresolved ↔ (env, index) ∉ m.places ∧ (env, index) ∉ m.busy := by
  have state : m.now.envs.state? env index = some reference.state := by
    rw [EnvStore.state?, held]
    rfl
  have completed : (env, index) ∈ m.places ↔ ∃ v, reference.state = .resolved v := by
    simp [places, ← sound.resolved, state]
  have running : (env, index) ∈ m.busy ↔ reference.state = .resolving := by
    rw [← sound.resolving, EnvStore.Resolving, state, Option.some_inj]
  rw [completed, running]
  cases reference.state <;> simp

/-- The innermost reference that is being resolved is not another one, nor was it
resolved. -/
theorem Sound.apart (sound : Sound ⟨b :: bs, done, t⟩) :
    b.place ∉ places ⟨bs, done, t⟩ ++ busy ⟨bs, done, t⟩ ∧
      (places ⟨bs, done, t⟩ ++ busy ⟨bs, done, t⟩).Nodup :=
  List.nodup_cons.1 (List.perm_middle.nodup_iff.1 sound.once)

theorem Sound.not_completed (sound : Sound ⟨b :: bs, done, t⟩) (v : EnvValue) :
    (b.place, v) ∉ done := fun mem =>
  sound.apart.1 (List.mem_append_left _ (List.mem_map.2 ⟨_, mem, rfl⟩))

/-- The others are still being resolved when the innermost one has come to an end. -/
theorem Sound.still_held (sound : Sound ⟨b :: bs, done, t⟩) (state : RefState)
    (mem : other ∈ bs) :
    (t.settle b.env b.index state).envs.reference? other.env other.index =
      some { other.reference with state := .resolving } := by
  have differs : ¬ (other.env = b.env ∧ other.index = b.index) := fun same =>
    sound.apart.1 (List.mem_append_right _
      (List.mem_map.2 ⟨other, mem, Prod.ext same.1 same.2⟩))
  rw [Session.settle, EnvStore.reference?_setState, if_neg differs]
  exact sound.held other (List.mem_cons_of_mem _ mem)

/-- The innermost reference is the only one whose state changes. -/
theorem Sound.settled (sound : Sound ⟨b :: bs, done, t⟩) (state : RefState) (env : EnvId)
    (index : Nat) : (t.settle b.env b.index state).envs.state? env index =
      if (env, index) = b.place then some state else t.envs.state? env index :=
  EnvStore.state?_setState (sound.held b List.mem_cons_self) state env index

/-- The others that are being resolved stay so, whatever becomes of the innermost one. -/
theorem Sound.still_resolving (sound : Sound ⟨b :: bs, done, t⟩) {state : RefState}
    (ended : state ≠ .resolving) (env : EnvId) (index : Nat) :
    (t.settle b.env b.index state).envs.Resolving env index ↔
      (env, index) ∈ busy ⟨bs, done, t⟩ := by
  have before : t.envs.Resolving env index ↔ (env, index) ∈ b.place :: busy ⟨bs, done, t⟩ :=
    sound.resolving env index
  have absent : b.place ∉ busy ⟨bs, done, t⟩ := fun mem =>
    sound.apart.1 (List.mem_append_right _ mem)
  unfold EnvStore.Resolving at before ⊢
  rw [sound.settled]
  split
  · next same => simp [same, ended, absent]
  · next differs => rw [before, List.mem_cons, or_iff_right differs]

theorem sound_step (step : Step S m n) (sound : m.Sound) : n.Sound := by
  cases step with
  | changed untouched =>
    exact ⟨sound.once,
      fun env index v => (untouched.state_iff (by simp) env index).trans (sound.resolved ..),
      fun env index => (untouched.state_iff (by simp) env index).trans (sound.resolving ..),
      fun b mem => untouched.kept _ _ _ (sound.held b mem)⟩
  | @begun env index reference bs done s held unresolved =>
    obtain ⟨open_, idle⟩ := (sound.unresolved_iff held).1 unresolved
    have free : (env, index) ∉ places ⟨bs, done, s⟩ ++ busy ⟨bs, done, s⟩ := fun mem =>
      (List.mem_append.1 mem).elim open_ idle
    refine ⟨List.perm_middle.nodup_iff.2 (List.nodup_cons.2 ⟨free, sound.once⟩),
      fun e i v => ?_, fun e i => ?_, fun b mem => ?_⟩
    · rw [Session.mark, EnvStore.state?_setState held]
      split
      · next same =>
        have absent : ((e, i), v) ∉ done := fun mem =>
          open_ (List.mem_map.2 ⟨_, mem, same⟩)
        simp [absent]
      · exact sound.resolved e i v
    · rw [EnvStore.Resolving, Session.mark, EnvStore.state?_setState held]
      split
      · next same => simp [busy, Forced.place, same]
      · next differs =>
        exact (sound.resolving e i).trans (List.mem_cons.trans (or_iff_right differs)).symm
    · rcases List.mem_cons.1 mem with rfl | before
      · rw [Session.mark, EnvStore.reference?_setState, if_pos ⟨rfl, rfl⟩, held]
        rfl
      · have differs : ¬ (b.env = env ∧ b.index = index) := fun same =>
          idle (List.mem_map.2 ⟨b, before, Prod.ext same.1 same.2⟩)
        rw [Session.mark, EnvStore.reference?_setState, if_neg differs]
        exact sound.held b before
  | @completed depth bs done b v t ran =>
    refine ⟨?_, fun env index x => ?_, sound.still_resolving (by simp),
      fun other mem => sound.still_held _ mem⟩
    · have order : places ⟨bs, done ++ [(b.place, v)], t⟩ ++ busy ⟨bs, done, t⟩ =
          places ⟨b :: bs, done, t⟩ ++ busy ⟨b :: bs, done, t⟩ := by simp [places, busy]
      exact order ▸ sound.once
    · have before : t.envs.state? env index = some (.resolved x) ↔ ((env, index), x) ∈ done :=
        sound.resolved env index x
      have last : ((env, index), x) ∈ done ++ [(b.place, v)] ↔
          ((env, index), x) ∈ done ∨ (env, index) = b.place ∧ x = v := by
        rw [List.mem_append, List.mem_singleton, Prod.mk.injEq]
      rw [sound.settled, last]
      split
      · next same =>
        have absent : ((env, index), x) ∉ done := same ▸ sound.not_completed x
        rw [or_iff_right absent, and_iff_right same, Option.some_inj, RefState.resolved.injEq,
          eq_comm]
      · next differs => simp [before, differs]
  | @failed depth halt bs done b t ran =>
    refine ⟨sound.apart.2, fun env index x => ?_, sound.still_resolving (by simp),
      fun other mem => sound.still_held _ mem⟩
    have before : t.envs.state? env index = some (.resolved x) ↔ ((env, index), x) ∈ done :=
      sound.resolved env index x
    rw [sound.settled]
    split
    · next same =>
      have absent : ((env, index), x) ∉ done := same ▸ sound.not_completed x
      simp [absent]
    · exact before

theorem sound_later (later : Later S m n) (sound : m.Sound) : n.Sound := by
  induction later with
  | refl => exact sound
  | tail _ step ih => exact sound_step step ih

/-- What was resolved stays so. -/
theorem completed_later (later : Later S m n) : m.completed <+: n.completed := by
  induction later with
  | refl => exact List.prefix_refl _
  | tail _ step ih =>
    cases step with
    | completed => exact ih.trans (List.prefix_append _ _)
    | _ => exact ih

end Soundness

/-! ## Runs go by such steps -/

/-- A session leads to another one by such steps, whatever is under way and was completed
before. -/
def Leads (S : Setting) (s t : Session) : Prop :=
  ∃ more, ∀ bs done, Later S ⟨bs, done, s⟩ ⟨bs, done ++ more, t⟩

section Leads
variable {S : Setting} {s t u : Session}

theorem leads_untouched (untouched : s.envs.Untouched t.envs) : Leads S s t :=
  ⟨[], fun bs done => by rw [List.append_nil]; exact .single (.changed untouched)⟩

theorem leads_trans (first : Leads S s t) (rest : Leads S t u) : Leads S s u := by
  obtain ⟨more, first⟩ := first
  obtain ⟨further, rest⟩ := rest
  exact ⟨more ++ further, fun bs done => by
    rw [← List.append_assoc]
    exact (first bs done).trans (rest bs _)⟩

theorem leads_of_same (same : t.envs = s.envs) : Leads S s t :=
  leads_untouched (EnvStore.untouched_of_same fun _ _ => by rw [same])

theorem leads_open_top (s : Session) (root : NodeId) (unit : UnitId) :
    Leads S s (s.openTop root unit).2 := by
  obtain ⟨unitEnvs, eq⟩ := open_top_eq s root unit
  rw [eq]
  exact leads_untouched (EnvStore.untouched_of_same (EnvStore.reference?_create _ _ _))

end Leads

section Instances
variable {S : Setting}

instance : Track (Along (Leads S)) where
  refl _ := ⟨leads_of_same rfl, List.suffix_refl _⟩
  trans first rest := ⟨leads_trans first.1 rest.1, first.2.trans rest.2⟩

theorem along_of_aside {s t : Session} {populated : List (NodeId × EnvId)} (step : Aside s t) :
    Along (Leads S) ⟨s, populated⟩ ⟨t, populated⟩ :=
  ⟨leads_of_same (aside_frame step).2.1, List.suffix_refl _⟩

instance : Makes (Along (Leads S)) where
  interned _ _ _ := ⟨leads_of_same rfl, List.suffix_refl _⟩
  node _ _ _ _ _ _ := ⟨leads_of_same rfl, List.suffix_refl _⟩

instance : Populates (Along (Leads S)) where
  recorded moved := moved.2
  equation _ _ _ := ⟨leads_of_same rfl, List.suffix_refl _⟩
  solved S' _ e dynVars machine := EvalM.solve_moves machine
    (fun _ _ _ _ => ⟨leads_of_same rfl, List.suffix_refl _⟩)
    (fun _ _ _ _ _ => ⟨leads_of_same rfl, List.suffix_refl _⟩) S' e dynVars
  reported _ _ _ _ _ := ⟨leads_of_same rfl, List.suffix_refl _⟩
  created _ _ _ _ := ⟨leads_untouched (EnvStore.untouched_of_same
    (EnvStore.reference?_create _ _ _)), List.suffix_refl _⟩
  bound _ _ _ _ _ _ := ⟨leads_untouched (EnvStore.untouched_of_same
    (EnvStore.reference?_addBinding _ _ _ _ _)), List.suffix_refl _⟩
  referred _ _ _ _ _ :=
    ⟨leads_untouched (EnvStore.untouched_add_reference _ _ _ _), List.suffix_refl _⟩
  opened s _ root node _ _ _ := ⟨leads_open_top s root node.unit, List.suffix_refl _⟩

instance : Acts S (Along (Leads S)) where
  unit _ _ _ _ _ := ⟨leads_of_same rfl, List.suffix_refl _⟩
  carried s _ u _ plan _ := carry_out_makes s u plan
  rooted _ _ _ _ _ given := by
    obtain ⟨tree, -, rfl⟩ := Session.set_root_ok given
    exact ⟨leads_of_same rfl, List.suffix_refl _⟩
  counted _ _ _ := ⟨leads_of_same rfl, List.suffix_refl _⟩
  deeper limit inside := EvalM.deeper_moves (fun _ step _ => along_of_aside step) limit inside
  loading inside h _ := EvalM.loading_moves (fun _ step _ => along_of_aside step) inside h

instance : Hosts S (Along (Leads S)) where
  begun _ _ _ := ⟨leads_of_same rfl, List.suffix_refl _⟩
  registered _ _ _ _ := ⟨leads_of_same rfl, List.suffix_refl _⟩

instance (m : Machine) : Fills S m (Along (Leads S)) where
  filled _ _ _ _ _ _ _ _ _ _ _ := ⟨leads_of_same rfl, List.suffix_cons _ _⟩

end Instances

section References
open EvalM
variable {S : Setting} {depth : Nat} {s : Session} {env : EnvId} {index : Nat}
  {reference : Reference}

/-- A reference that waits to be resolved: its thunk is run, and it is resolved if that
gives an environment, and as it was before if that fails. -/
theorem resolving_leads (machine : (Machine.upTo S depth).Moves (Along (Leads S)))
    (held : s.envs.reference? env index = some reference)
    (unresolved : reference.state = .unresolved) :
    let produced := force S (.upTo S depth) reference.thunk (s.mark env index)
    let ran := resolving env index (force S (.upTo S depth) reference.thunk) s
    ran.1 = produced.1 ∧ ∃ more, ∀ bs done,
      (∀ v, ran.1 = .ok v →
        Later S ⟨bs, done, s⟩ ⟨bs, done ++ (more ++ [((env, index), v)]), ran.2⟩) ∧
      (∀ halt, ran.1 = .error halt → Later S ⟨bs, done, s⟩ ⟨bs, done ++ more, ran.2⟩ ∧
        (Sound ⟨bs, done, s⟩ → ran.2.envs.reference? env index = some reference)) := by
  let b : Forced := ⟨env, index, reference, s⟩
  obtain ⟨more, inside⟩ := along_moves_iff.1 (force_moves (S := S) machine reference.thunk) b.start
  have under (bs : List Forced) (done : List ((EnvId × Nat) × EnvValue)) :
      Later S ⟨bs, done, s⟩ ⟨b :: bs, done ++ more,
        (force S (.upTo S depth) reference.thunk b.start).2⟩ :=
    .head (.begun held unresolved) (inside (b :: bs) done)
  refine ⟨?_, more, fun bs done => ?_⟩
  · rw [resolving_eq]
    rcases force S (.upTo S depth) reference.thunk (s.mark env index) with ⟨halt | v, t⟩ <;> rfl
  · have under := under bs done
    rw [resolving_eq]
    rcases ran : force S (.upTo S depth) reference.thunk (s.mark env index) with ⟨halt | v, t⟩ <;>
      rw [show force S (.upTo S depth) reference.thunk b.start = _ from ran] at under
    · refine ⟨fun v never => (nomatch never), fun _ _ =>
        ⟨under.tail (.failed ran), fun sound => ?_⟩⟩
      have still : t.envs.reference? env index = some { reference with state := .resolving } :=
        (sound_later under sound).held b List.mem_cons_self
      show (t.envs.setState env index .unresolved).reference? env index = _
      rw [EnvStore.reference?_setState, if_pos ⟨rfl, rfl⟩, still, ← unresolved]
      rfl
    · refine ⟨?_, fun halt never => nomatch never⟩
      rintro _ ⟨⟩
      rw [← List.append_assoc]
      exact under.tail (.completed ran)

/-- The machine goes by such steps. -/
theorem machine_leads (depth : Nat) : (Machine.upTo S depth).Moves (Along (Leads S)) := by
  refine machine_moves_by (fun depth machine s key _ node info index _ _ populated => ?_)
    (fun depth machine s env index reference held unresolved populated => ?_) depth
  · exact memoized_moves (fun _ step _ => along_of_aside step) info.name key
      (compute_moves machine node.kind info index key) ⟨s, populated⟩
  · refine ⟨populated, ?_, List.suffix_refl _⟩
    obtain ⟨-, more, leads⟩ := resolving_leads machine held unresolved
    rcases ran : resolving env index (force S (.upTo S depth) reference.thunk) s with
      ⟨halt | v, t⟩ <;> rw [ran] at leads
    · exact ⟨more, fun bs done => ((leads bs done).2 halt rfl).1⟩
    · exact ⟨more ++ [((env, index), v)], fun bs done => (leads bs done).1 v rfl⟩

/-- Every operation does. -/
theorem operation_leads (S : Setting) (o : Operation) (depth : Nat) (s : Session) :
    Leads S s (o.run S (.upTo S depth) s) := by
  obtain ⟨_, leads, _⟩ := operation_moves (S := S) (machine_leads (S := S) depth) o ⟨s, []⟩
    fun _ => along_of_aside .taken
  exact leads

end References

theorem inner_leads (S : Setting) {s t : Session} (step : s.Inner t) : Leads S s t := by
  cases step with
  | opened root unit => exact leads_open_top s root unit
  | _ => exact leads_of_same rfl

/-- Every point of a run is reached by such steps, with the references being resolved whose
thunks are running there. -/
theorem point_staged {S : Setting} (point : Point S home running s) :
    ∃ pool bag bs done, Later S (start pool bag home) ⟨bs, done, s⟩ ∧
      bs.map (·.place) = running.filterMap (·.place?) := by
  have led {running : List Activity} {s t : Session}
      (staged : ∃ pool bag bs done, Later S (start pool bag home) ⟨bs, done, s⟩ ∧
        bs.map (·.place) = running.filterMap (·.place?)) (leads : Leads S s t) :
      ∃ pool bag bs done, Later S (start pool bag home) ⟨bs, done, t⟩ ∧
        bs.map (·.place) = running.filterMap (·.place?) := by
    obtain ⟨pool, bag, bs, done, sofar, same⟩ := staged
    obtain ⟨more, leads⟩ := leads
    exact ⟨pool, bag, bs, done ++ more, sofar.trans (leads bs done), same⟩
  induction point with
  | start pool bag => exact ⟨pool, bag, [], [], .refl, rfl⟩
  | @carried running s before o depth ih => exact led ih (operation_leads S o depth s)
  | changed before step ih => exact led ih (inner_leads S step)
  | body before called plain allowed ih => exact led ih (leads_of_same rfl)
  | memoized before called kept unknown idle allowed ih => exact led ih (leads_of_same rfl)
  | load before ready ih => exact led ih (leads_of_same rfl)
  | @thunk running s env index reference before held unresolved ih =>
    obtain ⟨pool, bag, bs, done, later, same⟩ := ih
    exact ⟨pool, bag, _, done, later.tail (.begun held unresolved),
      congrArg ((env, index) :: ·) same⟩

end Resolutions

open Resolutions EvalM in
/-- **A reference is resolved once and for all.** All points of all runs are stages, with the
references being resolved whose thunks are running, and what is said here of a stage and
those after it holds whatever is under way. The thunk of every reference gave an environment
once at most, and the references that are resolved are those whose thunks did, with what
they gave. This stays so through all operations however they end, and to resolve such a
reference again gives the same, whatever the machine, and does nothing. To come to a
reference while its own thunk is running gives the empty environment, is reported, and
leaves the reference marked. To resolve any other reference is to run its thunk, with the
reference marked. If that gives an environment, the reference is the last of those resolved
then; if it fails, the reference is what it was, to be tried again, and its thunk gave
nothing on the way either. -/
theorem references_resolved_once {S : Setting} {home : LoaderState} :
    (∀ running s, Point S home running s →
      ∃ pool bag bs done, Later S (start pool bag home) ⟨bs, done, s⟩ ∧
        bs.map (·.place) = running.filterMap (·.place?)) ∧
    ∀ pool bag m, Later S (start pool bag home) m →
      (m.places.Nodup ∧ ∀ env index v,
        m.now.envs.state? env index = some (.resolved v) ↔ ((env, index), v) ∈ m.completed) ∧
      (∀ n, Later S m n → m.completed <+: n.completed) ∧
      (∀ o depth, ∃ more, Later S m
        ⟨m.underway, m.completed ++ more, Operation.run S (.upTo S depth) m.now o⟩) ∧
      (∀ env index v, ((env, index), v) ∈ m.completed → ∀ machine,
        resolveWith S machine env index m.now = (.ok v, m.now)) ∧
      (∀ env index, (env, index) ∈ m.busy →
        m.now.envs.state? env index = some .resolving ∧
        ∃ message location, ∀ machine, resolveWith S machine env index m.now =
          (.ok .empty, m.now.report .K2002 message location)) ∧
      ∀ env index reference, m.now.envs.reference? env index = some reference →
        (env, index) ∉ m.places → (env, index) ∉ m.busy → ∀ depth,
        let produced := force S (.upTo S depth) reference.thunk (m.now.mark env index)
        let asked := resolveWith S (.upTo S depth) env index m.now
        reference.state = .unresolved ∧ asked.1 = produced.1 ∧ ∃ more,
          (∀ v, asked.1 = .ok v →
            Later S m ⟨m.underway, m.completed ++ (more ++ [((env, index), v)]), asked.2⟩) ∧
          (∀ halt, asked.1 = .error halt →
            Later S m ⟨m.underway, m.completed ++ more, asked.2⟩ ∧
            (env, index) ∉ more.map (·.1) ∧
            asked.2.envs.reference? env index = some reference) := by
  refine ⟨fun running s => point_staged, fun pool bag m reached => ?_⟩
  have sound : m.Sound := sound_later reached (sound_start pool bag home)
  refine ⟨⟨(List.nodup_append.1 sound.once).1, sound.resolved⟩, fun n => completed_later,
    fun o depth => ?_, fun env index v completed machine => ?_, fun env index busy => ?_,
    fun env index reference held open_ idle depth => ?_⟩
  · obtain ⟨more, leads⟩ := operation_leads S o depth m.now
    exact ⟨more, leads m.underway m.completed⟩
  · obtain ⟨reference, held, known⟩ :=
      Option.map_eq_some_iff.1 ((sound.resolved env index v).2 completed)
    exact resolve_with_resolved held known
  · have marked := (sound.resolving env index).2 busy
    obtain ⟨reference, held, state⟩ := Option.map_eq_some_iff.1 marked
    obtain ⟨message, location, reported⟩ := m.now.report_cycle_eq env index
    refine ⟨marked, message, location, fun machine => ?_⟩
    rw [resolve_with_eq, held, ← reported]
    simp only [state]
  · have unresolved : reference.state = .unresolved :=
      (sound.unresolved_iff held).2 ⟨open_, idle⟩
    obtain ⟨same, more, leads⟩ := resolving_leads (machine_leads depth) held unresolved
    obtain ⟨gives, fails⟩ := leads m.underway m.completed
    have asked : resolveWith S (.upTo S depth) env index m.now =
        resolving env index (force S (.upTo S depth) reference.thunk) m.now := by
      rw [resolve_with_eq, held]
      simp only [unresolved]
    rw [asked]
    refine ⟨unresolved, same, more, gives, fun halt failed => ?_⟩
    obtain ⟨later, back⟩ := fails halt failed
    have back := back sound
    -- What is unresolved afterwards was not resolved on the way.
    have absent := ((sound_later later sound).unresolved_iff back).1 unresolved
    rw [places, List.map_append, List.mem_append, not_or] at absent
    exact ⟨later, absent.1.2, back⟩

open Resolutions EvalM in
/-- An environment refers to itself. While that is being found out the reference is empty for
whoever asks; afterwards it is asked for twice. -/
theorem references_resolved_once_of_itself :
    let S : Setting := ⟨.probing ⟨1⟩ ⟨1⟩ ⟨0⟩ #[], .standard⟩
    let s := [Operation.request (.createEnv none none),
      .refer ⟨1⟩ (.source (.env (.plain ⟨1⟩))) .none].foldl
      (Operation.run S (.upTo S 0)) (.new (.new none) .standard .ready)
    (∃ message location, ∀ machine, resolveWith S machine ⟨1⟩ 0 (s.mark ⟨1⟩ 0) =
      (.ok .empty, (s.mark ⟨1⟩ 0).report .K2002 message location)) ∧
    ∃ m n, Later S (start (.new none) .standard .ready) m ∧ m.now = s ∧ Later S m n ∧
      n.now = (resolveWith S (.upTo S 0) ⟨1⟩ 0 s).2 ∧ n.places.Nodup ∧
      ((⟨1⟩, 0), .plain ⟨1⟩) ∈ n.completed ∧
      resolveWith S (.upTo S 0) ⟨1⟩ 0 n.now = (.ok (.plain ⟨1⟩), n.now) := by
  intro S s
  obtain ⟨points, stages⟩ := @references_resolved_once S .ready
  have held : s.envs.reference? ⟨1⟩ 0 = some ⟨.source (.env (.plain ⟨1⟩)), .none, .unresolved⟩ :=
    rfl
  constructor
  · have begin : Point S .ready [] (.new (.new none) .standard .ready) := .start _ _
    have point : Point S .ready [.thunk ⟨1⟩ 0] (s.mark ⟨1⟩ 0) :=
      ((begin.carried (.request (.createEnv none none)) 0).carried (.refer ⟨1⟩ _ _) 0).thunk held rfl
    obtain ⟨pool, bag, bs, done, reached, busy⟩ := points _ _ point
    obtain ⟨-, -, -, -, cyclic, -⟩ := stages pool bag _ reached
    exact (cyclic ⟨1⟩ 0 (by rw [Resolutions.busy, busy]; exact List.mem_singleton_self _)).2
  · obtain ⟨-, -, goes, -⟩ := stages (.new none) .standard _ .refl
    obtain ⟨_, first⟩ := goes (.request (.createEnv none none)) 0
    obtain ⟨-, -, goes, -⟩ := stages _ _ _ first
    obtain ⟨_, second⟩ := goes (.refer ⟨1⟩ (.source (.env (.plain ⟨1⟩))) .none) 0
    have reached := first.trans second
    obtain ⟨⟨-, known⟩, -, -, -, -, waiting⟩ := stages _ _ _ reached
    have open_ : (⟨1⟩, 0) ∉ places _ := fun mem => by
      obtain ⟨⟨_, v⟩, completed, rfl⟩ := List.mem_map.1 mem
      cases (known ⟨1⟩ 0 v).2 completed
    obtain ⟨-, -, more, gives, -⟩ := waiting ⟨1⟩ 0 _ held open_ List.not_mem_nil 0
    have later := gives (.plain ⟨1⟩) rfl
    obtain ⟨⟨once, -⟩, -, -, again, -⟩ := stages _ _ _ (reached.trans later)
    have last (done more : List ((EnvId × Nat) × EnvValue)) (b : (EnvId × Nat) × EnvValue) :
        b ∈ done ++ (more ++ [b]) := by simp
    exact ⟨_, _, reached, rfl, later, rfl, once, last _ _ _, again _ _ _ (last _ _ _) _⟩

end Trellis
