import Trellis.Proofs.Session.Probing

/-! The calls whose results are remembered, in the order in which they are completed. A
stage of a run has the calls that are begun and not ended, the results so far, and the
session. No call is begun while the same one is under way or after it was completed, so
every key is completed once at most, and the memo table holds the results so far and
nothing else. -/
namespace Trellis

/-- A call that has been begun, to be remembered if it gives a result. -/
structure Begun where
  key : MemoKey
  kind : KindId
  info : PropertyInfo
  index : Nat
  /-- The session in which the call was made. -/
  made : Session

/-- The session that the body of a call starts from, with its key marked. -/
def Begun.start (b : Begun) : Session := { b.made with memo := b.made.memo.start b.key }

/-- A stage of a run: the calls that are under way, the innermost first; what was
completed, the oldest first; and the session. -/
structure Stage where
  underway : List Begun
  completed : List (MemoKey × Value)
  now : Session

namespace Stage

def start (pool : Pool) (bag : BagConfig) (home : LoaderState) : Stage :=
  ⟨[], [], .new pool bag home⟩

/-- The keys that were completed. -/
def keys (m : Stage) : List MemoKey := m.completed.map (·.1)

/-- The keys that were completed or are under way. -/
def taken (m : Stage) : List MemoKey := m.keys ++ m.underway.map (·.key)

/-- What can happen at a stage. -/
inductive Step (S : Setting) : Stage → Stage → Prop
  /-- Anything happens that leaves the memo table alone and nodes what they are. -/
  | changed {s t : Session} (later : s.Later t) (same : t.memo = s.memo) :
      Step S ⟨bs, done, s⟩ ⟨bs, done, t⟩
  | recalled {s : Session} {key : MemoKey} (known : s.memo.done[key]? = some v) :
      Step S ⟨bs, done, s⟩ ⟨bs, done, { s with memo := s.memo.hit }⟩
  | begun (called : Called S s key dynVars node info index)
      (kept : (S.config.memoize && info.memoized) = true)
      (unknown : s.memo.done[key]? = none) (idle : key ∉ s.memo.running) :
      Step S ⟨bs, done, s⟩ ⟨⟨key, node.kind, info, index, s⟩ :: bs, done,
        Begun.start ⟨key, node.kind, info, index, s⟩⟩
  /-- The body gave a value, and one of the declared type. -/
  | completed {b : Begun} {v : Value} {t : Session}
      (ran : EvalM.compute S (.upTo S depth) b.kind b.info b.index b.key b.start = (.ok v, t)) :
      Step S ⟨b :: bs, done, t⟩
        ⟨bs, done ++ [(b.key, v)], { t with memo := t.memo.finish b.key v }⟩
  | abandoned {b : Begun} {t : Session}
      (ran : EvalM.compute S (.upTo S depth) b.kind b.info b.index b.key b.start =
        (.error halt, t)) :
      Step S ⟨b :: bs, done, t⟩ ⟨bs, done, { t with memo := t.memo.abandon b.key }⟩

/-- The stages that follow a stage. -/
abbrev Later (S : Setting) : Stage → Stage → Prop := Relation.ReflTransGen (Step S)

/-- A key can be called where its entity has the property and is given what the property
takes; and the property is remembered. -/
def Callable (S : Setting) (s : Session) (key : MemoKey) : Prop :=
  ∃ node info index, Called S s key key.dynVars node info index ∧
    (S.config.memoize && info.memoized) = true

theorem callable_later (later : s.Later t) (callable : Callable S s key) : Callable S t key := by
  obtain ⟨node, info, index, called, kept⟩ := callable
  obtain ⟨node, called, -⟩ := called_later later called
  exact ⟨node, info, index, called, kept⟩

/-- What is in the memo table makes no difference to that. -/
theorem callable_memo (memo : Memo) (callable : Callable S s key) :
    Callable S { s with memo } key :=
  callable_later (Session.later_of_tree (Tree.later_refl s.tree) rfl) callable

/-- The memo table holds what was completed, each key once; the calls under way are of
other keys, all different and marked. -/
structure Sound (S : Setting) (m : Stage) : Prop where
  once : m.taken.Nodup
  known : ∀ key v, m.now.memo.done[key]? = some v ↔ (key, v) ∈ m.completed
  size : m.now.memo.size = m.completed.length
  marked : ∀ b ∈ m.underway, b.key ∈ m.now.memo.running
  callable : ∀ key ∈ m.taken, Callable S m.now key

section Soundness
variable {S : Setting} {m n : Stage} {bs : List Begun} {done : List (MemoKey × Value)}
  {b other : Begun} {key : MemoKey}

theorem taken_begun (bs : List Begun) (done : List (MemoKey × Value)) (b : Begun) (s t : Session) :
    (taken ⟨b :: bs, done, s⟩).Perm (b.key :: taken ⟨bs, done, t⟩) := List.perm_middle

theorem taken_completed (bs : List Begun) (done : List (MemoKey × Value)) (b : Begun) (v : Value)
    (s t : Session) :
    taken ⟨bs, done ++ [(b.key, v)], s⟩ = taken ⟨b :: bs, done, t⟩ := by
  simp [taken, keys]

theorem sound_start (pool : Pool) (bag : BagConfig) (home : LoaderState) :
    (start pool bag home).Sound S where
  once := .nil
  known key v := by simp [start, Session.new, Memo.empty]
  size := by simp [start, Session.new, Memo.empty, Memo.size]
  marked b mem := (List.not_mem_nil mem).elim
  callable key mem := (List.not_mem_nil mem).elim

/-- A key is remembered exactly if it was completed. -/
theorem Sound.unknown_iff (sound : m.Sound S) : m.now.memo.done[key]? = none ↔ key ∉ m.keys := by
  rw [Option.eq_none_iff_forall_ne_some, keys, List.mem_map]
  constructor
  · rintro unknown ⟨⟨_, v⟩, completed, rfl⟩
    exact unknown v ((sound.known _ v).2 completed)
  · exact fun fresh v known => fresh ⟨(key, v), (sound.known key v).1 known, rfl⟩

/-- A key that is neither remembered nor marked is not taken. -/
theorem Sound.free (sound : m.Sound S) (unknown : m.now.memo.done[key]? = none)
    (idle : key ∉ m.now.memo.running) : key ∉ m.taken := by
  rw [taken, List.mem_append, not_or]
  refine ⟨sound.unknown_iff.1 unknown, fun mem => ?_⟩
  obtain ⟨b, under, rfl⟩ := List.mem_map.1 mem
  exact idle (sound.marked b under)

/-- The key of the innermost call is not that of another one, nor was it completed. -/
theorem Sound.apart {t : Session} (sound : Sound S ⟨b :: bs, done, t⟩) :
    b.key ∉ taken ⟨bs, done, t⟩ ∧ (taken ⟨bs, done, t⟩).Nodup :=
  List.nodup_cons.1 ((taken_begun _ _ b t t).nodup_iff.1 sound.once)

/-- The other calls stay marked when the innermost one ends. -/
theorem Sound.still_marked {t : Session} (sound : Sound S ⟨b :: bs, done, t⟩) (mem : other ∈ bs) :
    other.key ∈ t.memo.running.erase b.key := by
  rw [Std.HashSet.mem_erase]
  refine ⟨?_, sound.marked other (List.mem_cons_of_mem _ mem)⟩
  have differs : b.key ≠ other.key := fun same =>
    sound.apart.1 (List.mem_append_right _ (same ▸ List.mem_map_of_mem mem))
  simpa using differs

theorem sound_step (step : Step S m n) (sound : m.Sound S) : n.Sound S := by
  cases step with
  | changed later same =>
    exact ⟨sound.once, by rw [same]; exact sound.known, by rw [same]; exact sound.size,
      by rw [same]; exact sound.marked,
      fun key mem => callable_later later (sound.callable key mem)⟩
  | recalled known =>
    exact ⟨sound.once, sound.known, sound.size, sound.marked,
      fun key mem => callable_memo _ (sound.callable key mem)⟩
  | @begun s key _ node info index bs done called kept unknown idle =>
    have order := taken_begun bs done ⟨key, node.kind, info, index, s⟩
      (Begun.start ⟨key, node.kind, info, index, s⟩) s
    refine ⟨?_, sound.known, sound.size, fun b mem => ?_, fun other mem => callable_memo _ ?_⟩
    · exact order.nodup_iff.2 (List.nodup_cons.2 ⟨sound.free unknown idle, sound.once⟩)
    · show b.key ∈ s.memo.running.insert key
      rw [Std.HashSet.mem_insert]
      rcases List.mem_cons.1 mem with rfl | under
      · exact .inl (beq_self_eq_true _)
      · exact .inr (sound.marked b under)
    · rcases List.mem_cons.1 (order.mem_iff.1 mem) with rfl | before
      · exact ⟨node, info, index, called_declared called, kept⟩
      · exact sound.callable other before
  | @completed depth bs done b v t ran =>
    have unknown : t.memo.done[b.key]? = none :=
      sound.unknown_iff.2 fun mem => sound.apart.1 (List.mem_append_left _ mem)
    have order := taken_completed bs done b v
      { t with memo := t.memo.finish b.key v } t
    refine ⟨by rw [order]; exact sound.once, fun key x => ?_, ?_,
      fun other under => sound.still_marked under, ?_⟩
    · show (t.memo.done.insert b.key v)[key]? = some x ↔ _
      rw [Std.HashMap.getElem?_insert, List.mem_append, List.mem_singleton, Prod.mk.injEq,
        ← sound.known]
      split
      · next same =>
        obtain rfl := eq_of_beq same
        rw [unknown]
        simp [eq_comm]
      · next other =>
        have differs : key ≠ b.key := fun same => other (by simp [same])
        simp [differs]
    · show (t.memo.done.insert b.key v).size = _
      have absent : b.key ∉ t.memo.done := by simpa using unknown
      rw [Std.HashMap.size_insert, if_neg absent, List.length_append]
      exact congrArg (· + 1) sound.size
    · rw [order]
      exact fun key mem => callable_memo _ (sound.callable key mem)
  | @abandoned depth halt bs done b t ran =>
    exact ⟨sound.apart.2, sound.known, sound.size, fun other under => sound.still_marked under,
      fun key mem => callable_memo _ (sound.callable key
        ((taken_begun _ _ b t t).mem_iff.2 (List.mem_cons_of_mem _ mem)))⟩

theorem sound_later (later : Later S m n) (sound : m.Sound S) : n.Sound S := by
  induction later with
  | refl => exact sound
  | tail _ step ih => exact sound_step step ih

/-- What was completed stays completed. -/
theorem completed_later (later : Later S m n) : m.completed <+: n.completed := by
  induction later with
  | refl => exact List.prefix_refl _
  | tail _ step ih =>
    cases step with
    | completed => exact ih.trans (List.prefix_append _ _)
    | _ => exact ih

end Soundness
/-! ## Runs go by such steps -/

/-- A session leads to another one by such steps, whatever is under way and was completed
before. -/
def Leads (S : Setting) (s t : Session) : Prop :=
  ∃ more, ∀ bs done, Later S ⟨bs, done, s⟩ ⟨bs, done ++ more, t⟩

section Leads
variable {S : Setting} {s t u : Session}

theorem leads_changed (later : s.Later t) (same : t.memo = s.memo) : Leads S s t :=
  ⟨[], fun bs done => by rw [List.append_nil]; exact .single (.changed later same)⟩

theorem leads_trans (first : Leads S s t) (rest : Leads S t u) : Leads S s u := by
  obtain ⟨more, first⟩ := first
  obtain ⟨further, rest⟩ := rest
  exact ⟨more ++ further, fun bs done => by
    rw [← List.append_assoc]
    exact (first bs done).trans (rest bs _)⟩

/-- A change of the session that the memo table takes no part in. -/
theorem along_of_change {populated : List (NodeId × EnvId)}
    (step : Change S ⟨s, populated⟩ ⟨t, populated⟩) (same : t.memo = s.memo) :
    Along (Leads S) ⟨s, populated⟩ ⟨t, populated⟩ :=
  ⟨leads_changed (change_later step) same, List.suffix_refl _⟩

end Leads

section Instances
variable {S : Setting}

instance : Track (Along (Leads S)) where
  refl h := ⟨leads_changed h.now.later_refl rfl, List.suffix_refl _⟩
  trans first rest := ⟨leads_trans first.1 rest.1, first.2.trans rest.2⟩

instance : Makes (Along (Leads S)) where
  interned _ _ text := along_of_change (.aside (.interned text)) rfl
  node _ _ _ _ _ made := along_of_change (.node made) rfl

instance : Populates (Along (Leads S)) where
  recorded moved := moved.2
  equation _ _ e := along_of_change (.aside (.equation e)) rfl
  solved S' _ e dynVars machine := EvalM.solve_moves machine
    (fun _ _ v x => along_of_change (.assigned v x) rfl)
    (fun _ _ _ _ _ => along_of_change (.aside (.reported _ _ _)) rfl) S' e dynVars
  reported _ _ _ _ _ := along_of_change (.aside (.reported _ _ _)) rfl
  created _ _ parent owner := along_of_change (.envs (.created parent owner)) rfl
  bound _ _ _ _ _ _ := along_of_change (.envs (.bound _ _ _ _)) rfl
  referred _ _ _ _ _ := along_of_change (.envs (.referred _ _ _)) rfl
  opened s _ root node _ _ _ := by
    refine ⟨leads_changed (s.open_top_later root node.unit) ?_, List.suffix_refl _⟩
    obtain ⟨unitEnvs, eq⟩ := open_top_eq s root node.unit
    rw [eq]

instance : Operates S (Along (Leads S)) where
  unit _ _ _ _ _ := along_of_change (.unit _) rfl
  carried s _ u _ plan _ := carry_out_makes s u plan
  rooted _ _ _ _ _ given := by
    obtain ⟨tree, -, rfl⟩ := Session.set_root_ok given
    exact along_of_change (.rooted given) rfl
  counted _ _ n := along_of_change (.aside (.counted n)) rfl
  deeper limit inside h := by
    unfold EvalM.deeper
    split
    · exact ⟨h.populated, Track.refl h⟩
    · exact SessionM.moves_bracket (fun _ _ => along_of_change (.aside .deeper) rfl) inside
        (fun _ _ _ => along_of_change (.aside .shallower) rfl) h
  loading inside h _ := SessionM.moves_bracket
    (fun _ _ => along_of_change (.aside (.loading .loading)) rfl) inside
    (fun _ _ _ => along_of_change (.aside (.loading .ready)) rfl) h
  resolving inside h env index _ _ _ := EvalM.resolving_moves env index
    (fun _ _ state => along_of_change (.envs (.marked env index state)) rfl) inside h

instance : Hosts S (Along (Leads S)) where
  begun _ _ name := along_of_change (.unit name) rfl
  registered _ _ name plan := along_of_change (.aside (.registered name plan)) rfl

instance (m : Machine) : Fills S m (Along (Leads S)) where
  filled _ _ _ _ _ _ _ _ _ _ given :=
    ⟨leads_changed (Session.later_of_tree (Tree.set_envs_later given) rfl) rfl,
      List.suffix_cons _ _⟩

end Instances

section Calls
open EvalM
variable {S : Setting} {depth : Nat} {s : Session} {key : MemoKey} {dynVars : DynVars}
  {node : Node} {info : PropertyInfo} {index : Nat}

/-- A call that is remembered, of a key that was not completed: it completes the key if
it gives a value, and does not if it fails. -/
theorem memoized_leads (machine : (Machine.upTo S depth).Moves (Along (Leads S)))
    (called : Called S s key dynVars node info index)
    (kept : (S.config.memoize && info.memoized) = true) (unknown : s.memo.done[key]? = none) :
    let ran := memoized info.name key (compute S (.upTo S depth) node.kind info index key) s
    ∃ more, ∀ bs done,
      (∀ v, ran.1 = .ok v → Later S ⟨bs, done, s⟩ ⟨bs, done ++ (more ++ [(key, v)]), ran.2⟩) ∧
      (∀ halt, ran.1 = .error halt → Later S ⟨bs, done, s⟩ ⟨bs, done ++ more, ran.2⟩ ∧
        (Sound S ⟨bs, done, s⟩ → key ∉ keys ⟨bs, done ++ more, ran.2⟩)) := by
  by_cases idle : key ∈ s.memo.running
  · rw [memoized_of_running unknown idle]
    refine ⟨[], fun bs done => ⟨fun v never => (nomatch never), fun halt _ => ?_⟩⟩
    rw [List.append_nil]
    exact ⟨.refl, fun sound => sound.unknown_iff.1 unknown⟩
  · let b : Begun := ⟨key, node.kind, info, index, s⟩
    obtain ⟨more, inside⟩ := along_moves_iff.1
      (compute_moves (S := S) machine node.kind info index key) b.start
    have under (bs : List Begun) (done : List (MemoKey × Value)) :
        Later S ⟨bs, done, s⟩ ⟨b :: bs, done ++ more,
          (compute S (.upTo S depth) node.kind info index key b.start).2⟩ :=
      .head (.begun called kept unknown idle) (inside (b :: bs) done)
    refine ⟨more, fun bs done => ?_⟩
    have under := under bs done
    rcases ran : compute S (.upTo S depth) node.kind info index key b.start with ⟨halt | v, t⟩ <;>
      rw [ran] at under
    · rw [memoized_of_failed unknown idle ran]
      refine ⟨fun v never => (nomatch never), fun _ _ => ⟨under.tail (.abandoned ran), ?_⟩⟩
      exact fun sound mem => (sound_later under sound).apart.1 (List.mem_append_left _ mem)
    · rw [memoized_of_computed unknown idle ran]
      refine ⟨?_, fun halt never => nomatch never⟩
      rintro _ ⟨⟩
      rw [← List.append_assoc]
      exact under.tail (.completed ran)

/-- The machine goes by such steps. -/
theorem machine_leads (depth : Nat) : (Machine.upTo S depth).Moves (Along (Leads S)) := by
  refine machine_moves_of (fun depth machine s key _ node info index called kept populated => ?_)
    depth
  refine ⟨populated, ?_, List.suffix_refl _⟩
  dsimp only
  cases known : s.memo.done[key]? with
  | some v =>
    rw [memoized_of_known known]
    exact ⟨[], fun bs done => by rw [List.append_nil]; exact .single (.recalled known)⟩
  | none =>
    obtain ⟨more, leads⟩ := memoized_leads machine called kept known
    rcases ran : memoized info.name key (compute S (.upTo S depth) node.kind info index key) s with
      ⟨halt | v, t⟩ <;> rw [ran] at leads
    · exact ⟨more, fun bs done => ((leads bs done).2 halt rfl).1⟩
    · exact ⟨more ++ [(key, v)], fun bs done => (leads bs done).1 v rfl⟩

/-- Every operation does. -/
theorem operation_leads (S : Setting) (o : Operation) (depth : Nat) (s : Session) :
    Leads S s (o.run S (.upTo S depth) s) := by
  obtain ⟨_, leads, _⟩ := operation_moves (S := S) (machine_leads (S := S) depth) o ⟨s, []⟩ fun _ =>
    along_of_change (.aside .taken) rfl
  exact leads

end Calls

theorem inner_changed {s t : Session} (step : s.Inner t) : s.Later t ∧ t.memo = s.memo := by
  cases step with
  | assigned v x =>
    exact ⟨Session.later_of_tree ⟨(Tree.later_refl _).1, (Tree.later_refl _).2⟩ rfl, rfl⟩
  | reported => exact ⟨Session.later_of_tree (Tree.later_refl _) rfl, rfl⟩
  | opened root unit =>
    obtain ⟨unitEnvs, eq⟩ := open_top_eq s root unit
    exact ⟨s.open_top_later root unit, by rw [eq]⟩
  | filled given => exact ⟨Session.later_of_tree (Tree.set_envs_later given) rfl, rfl⟩

/-- Every point of a run is reached by such steps. -/
theorem point_staged {S : Setting} (point : Point S home running s) :
    ∃ pool bag bs done, Later S (start pool bag home) ⟨bs, done, s⟩ := by
  have changed {s t : Session}
      (staged : ∃ pool bag bs done, Later S (start pool bag home) ⟨bs, done, s⟩)
      (later : s.Later t) (same : t.memo = s.memo) :
      ∃ pool bag bs done, Later S (start pool bag home) ⟨bs, done, t⟩ := by
    obtain ⟨pool, bag, bs, done, sofar⟩ := staged
    exact ⟨pool, bag, bs, done, sofar.tail (.changed later same)⟩
  -- Of the activities only the calls that are remembered show in the stage.
  have aside {s t : Session}
      (staged : ∃ pool bag bs done, Later S (start pool bag home) ⟨bs, done, s⟩)
      (tree : t.tree = s.tree) (unitEnvs : t.unitEnvs = s.unitEnvs) (same : t.memo = s.memo) :
      ∃ pool bag bs done, Later S (start pool bag home) ⟨bs, done, t⟩ :=
    changed staged (Session.later_of_tree (by rw [tree]; exact Tree.later_refl _) unitEnvs) same
  induction point with
  | start pool bag => exact ⟨pool, bag, [], [], .refl⟩
  | @carried running s before o depth ih =>
    obtain ⟨pool, bag, bs, done, later⟩ := ih
    obtain ⟨more, leads⟩ := operation_leads S o depth s
    exact ⟨pool, bag, bs, _, later.trans (leads bs done)⟩
  | changed before step ih => exact changed ih (inner_changed step).1 (inner_changed step).2
  | body before called plain allowed ih => exact aside ih rfl rfl rfl
  | memoized before called kept unknown idle allowed ih =>
    obtain ⟨pool, bag, bs, done, later⟩ := ih
    exact aside ⟨pool, bag, _, done, later.tail (.begun called kept unknown idle)⟩ rfl rfl rfl
  | thunk before held unresolved ih => exact aside ih rfl rfl rfl
  | load before ready ih => exact aside ih rfl rfl rfl

end Stage

open Stage in
/-- **A remembered result is computed once and never changes.** All points of all runs are
stages, and what is said here of a stage and those after it holds whatever is under way.
Every key was completed once at most, and the memo table has its result and nothing else,
so it has as many entries as keys were completed. What was completed stays completed, with
the result it had, through all operations however they end. A call of a completed key is
answered with that result, whatever the machine, and does no more than to count it. A call
of another key that is to be remembered either gives a value, and then completes its key as
the last of all, or it fails, and then the key is not completed. -/
theorem memoized_results_stay {S : Setting} {home : LoaderState} :
    (∀ running s, Point S home running s →
      ∃ pool bag bs done, Later S (start pool bag home) ⟨bs, done, s⟩) ∧
    ∀ pool bag m, Later S (start pool bag home) m →
      (m.keys.Nodup ∧ m.now.memo.size = m.keys.length ∧
        ∀ key v, m.now.memo.done[key]? = some v ↔ (key, v) ∈ m.completed) ∧
      (∀ n, Later S m n → m.completed <+: n.completed) ∧
      (∀ o depth, ∃ more, Later S m
        ⟨m.underway, m.completed ++ more, Operation.run S (.upTo S depth) m.now o⟩) ∧
      (∀ key v, (key, v) ∈ m.completed → ∀ machine dynVars info,
        S.language.property? key.prop = some info →
        dynVars.restrict info.dynVars = .ok key.dynVars →
        EvalM.callWith S machine key.entity key.prop key.args dynVars m.now =
          (.ok v, { m.now with memo := m.now.memo.hit })) ∧
      ∀ depth key dynVars node info index, Called S m.now key dynVars node info index →
        (S.config.memoize && info.memoized) = true → key ∉ m.keys →
        let call := EvalM.callWith S (.upTo S depth) key.entity key.prop key.args dynVars m.now
        ∃ more,
          (∀ v, call.1 = .ok v →
            Later S m ⟨m.underway, m.completed ++ (more ++ [(key, v)]), call.2⟩) ∧
          (∀ halt, call.1 = .error halt →
            Later S m ⟨m.underway, m.completed ++ more, call.2⟩ ∧ key ∉ more.map (·.1)) := by
  refine ⟨fun running s => point_staged, fun pool bag m reached => ?_⟩
  have sound : m.Sound S := sound_later reached (sound_start pool bag home)
  refine ⟨⟨(List.nodup_append.1 sound.once).1, ?_, sound.known⟩, fun n => completed_later,
    fun o depth => ?_, fun key v completed machine dynVars info known restricted => ?_,
    fun depth key dynVars node info index called kept fresh => ?_⟩
  · rw [sound.size, keys, List.length_map]
  · obtain ⟨more, leads⟩ := operation_leads S o depth m.now
    exact ⟨more, leads m.underway m.completed⟩
  · obtain ⟨node, found, index, called, kept⟩ :=
      sound.callable key (List.mem_append_left _ (List.mem_map_of_mem completed))
    cases known.symm.trans called.known
    have called : Called S m.now key dynVars node info index :=
      { called with declared := restricted }
    rw [called_eq called]
    refine SessionM.map_error_of_ok ?_
    unfold EvalM.answer
    rw [if_pos kept]
    exact EvalM.memoized_of_known ((sound.known key v).2 completed)
  · obtain ⟨more, leads⟩ :=
      memoized_leads (machine_leads depth) called kept (sound.unknown_iff.2 fresh)
    obtain ⟨gives, fails⟩ := leads m.underway m.completed
    rw [called_eq called]
    unfold EvalM.answer
    rw [if_pos kept]
    dsimp only
    rw [SessionM.map_error_state]
    refine ⟨more, fun v given => gives v ?_, fun halt failed => ?_⟩
    · exact congrArg Prod.fst (SessionM.map_error_ok (Prod.ext given rfl))
    · obtain ⟨cause, failed⟩ := SessionM.error_of_map_error failed
      obtain ⟨later, absent⟩ := fails cause failed
      have absent := absent sound
      rw [keys, List.map_append, List.mem_append, not_or] at absent
      exact ⟨later, absent.2⟩

open Stage in
/-- The remembered property of a new node is asked twice. -/
theorem memoized_results_stay_of_repeated :
    let S : Setting := .probing ⟨1⟩ ⟨1⟩ ⟨0⟩ #[] .standard
    let ask (s : Session) := EvalM.callWith S (.upTo S 1) (.bare ⟨0⟩) ⟨0⟩ [] .none s
    let s := [Operation.newUnit "", .addNode ⟨0⟩ ⟨0⟩ [] .empty .dummy].foldl
      (Operation.run S (.upTo S 0)) (.new (.new none) .standard .ready)
    ∃ m n, Later S (start (.new none) .standard .ready) m ∧ m.now = s ∧ m.keys = [] ∧
      Later S m n ∧ n.now = (ask s).2 ∧ (.first ⟨0⟩, .bool true) ∈ n.completed ∧
      n.keys.Nodup ∧ n.now.memo.size = n.keys.length ∧
      ask n.now = (.ok (.bool true), { n.now with memo := n.now.memo.hit }) := by
  intro S ask s
  obtain ⟨-, stages⟩ := @memoized_results_stay S .ready
  have stages := stages (.new none) .standard
  obtain ⟨-, -, goes, -⟩ := stages _ .refl
  obtain ⟨_, first⟩ := goes (.newUnit "") 0
  obtain ⟨-, -, goes, -⟩ := stages _ first
  obtain ⟨_, second⟩ := goes (.addNode ⟨0⟩ ⟨0⟩ [] .empty .dummy) 0
  have reached := first.trans second
  obtain ⟨⟨-, size, -⟩, -, -, -, calls⟩ := stages _ reached
  have fresh := List.eq_nil_of_length_eq_zero (size.symm.trans rfl)
  obtain ⟨info, -, memoized_, called⟩ :=
    called_unbound ⟨1⟩ ⟨0⟩ ⟨1⟩ #[] .standard (s := s) rfl rfl
  have kept : (S.config.memoize && info.memoized) = true := by rw [memoized_]; rfl
  have asked : ask s = (.ok (.bool true), _) :=
    ask_unbound_alone (n := 0) (s := s) rfl rfl (.inr (by decide)) (by decide) rfl rfl rfl
      Std.HashMap.getElem?_empty Std.HashSet.not_mem_empty
  obtain ⟨further, gives, -⟩ := calls 1 _ _ _ info _ called kept (by rw [fresh]; simp)
  have later := gives (.bool true) (congrArg Prod.fst asked)
  obtain ⟨⟨once, count, -⟩, -, -, known, -⟩ := stages _ (reached.trans later)
  have completed (done more : List (MemoKey × Value)) (last : MemoKey × Value) :
      last ∈ done ++ (more ++ [last]) := by simp
  exact ⟨_, _, reached, rfl, fresh, later, rfl, completed _ _ _, once, count,
    known _ _ (completed _ _ _) _ _ info called.known called.declared⟩

end Trellis
