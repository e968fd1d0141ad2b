import Trellis.Proofs.Session.Review

/-! Remembered results in hindsight. What a run computes is followed by an evaluation
without memory at its end: both look at the same nodes, and where the run found
something in an environment or behind a reference that changed later, the evaluation
gives up. So every result that the run remembers is the one that the evaluation gives,
unless it gives up. -/
namespace Trellis

open Filter

namespace Review

/-- Whatever evaluations in the end may look up, the run found as it is in the end. -/
def Timely (V : Review) : Prop :=
  ∀ u env symbol, V.first.Onward u → u.Onward V.last → V.watch.search u.envs env symbol = true →
    V.search env symbol = true → u.envs.agrees V.last.envs env symbol = true

/-- Nodes have during the run the parents that they have in the end. -/
def Rooted (V : Review) : Prop :=
  ∀ u n a b, V.first.Onward u → u.Onward V.last → u.tree.node? n = some a →
    V.last.tree.node? n = some b → b.parent = a.parent

theorem rooted_of_tidy {V : Review} (tidy : V.first.Tidy) : V.Rooted :=
  fun _ n a b first ahead held held' =>
    ahead.parents (Session.tidy_of_plans first.plans tidy) n a b held held'

/-- A tree that is the same in the end was so all the time. -/
theorem rooted_of_same {V : Review} (same : V.last.tree = V.first.tree) : V.Rooted := by
  intro u n a b first ahead held held'
  obtain ⟨a', still, later⟩ := first.tree.nodes n.raw b (same ▸ held')
  obtain rfl : a = a' := Option.some.inj (held.symm.trans still)
  obtain ⟨b', there, after⟩ := ahead.tree.nodes n.raw a held
  obtain rfl : b = b' := Option.some.inj (held'.symm.trans there)
  cases up : b.parent with
  | some p => exact (later.parent p up).symm
  | none =>
    cases known : a.parent with
    | none => rfl
    | some p =>
      rw [after.parent p known] at up
      cases up

/-- The run from `base` on, held against its end. -/
def hindsight (V : Review) (rooted : V.Rooted) (base : Session) (depth : Nat) : Pairing where
  paired u w := V.first.Onward u ∧ base.Onward u ∧ V.Sound u ∧ w = V.atEnd depth
  course := V.Keeps
  ahead v := v.Onward V.last
  excused fault := fault = V.fault
  course_refl := keeps_refl
  course_trans := keeps_trans
  ahead_back course ahead := Session.onward_trans course.onward ahead
  nodes := by
    rintro u w n a ⟨first, -, -, rfl⟩ ahead held
    obtain ⟨b, there, later⟩ := ahead.tree.nodes n.raw a held
    exact ⟨b, there, later, rooted u n a b first ahead held there⟩

open SessionM EvalM

variable {V : Review} {rooted : V.Rooted} {base u : Session} {depth n : Nat}

/-- What follows in hindsight: the run keeps results sound, and in the end evaluations
give what the run gave. -/
theorem follows_at_hindsight {act : EvalM α} {acts : ℕ → EvalM α} :
    FollowsAt (V.hindsight rooted base depth) act acts u ↔ V.Keeps u (act u).2 ∧
      ∀ x v, act u = (.ok x, v) → V.first.Onward u → base.Onward u → V.Sound u → v.Onward V.last →
        V.Gives acts x depth := by
  constructor
  · rintro ⟨course, followed⟩
    refine ⟨course, fun x v ran first since sound ahead => ?_⟩
    rcases followed _ x v ⟨first, since, sound, rfl⟩ ran ahead with
      ⟨z, ⟨-, -, -, rfl⟩, reached⟩ | gaveUp
    · exact .inl reached
    · exact .inr gaveUp
  · rintro ⟨course, gives⟩
    refine ⟨course, ?_⟩
    rintro w x v ⟨first, since, sound, rfl⟩ ran ahead
    rw [ran] at course
    refine (gives x v ran first since sound ahead).imp_left fun reached => ⟨_, ?_, reached⟩
    exact ⟨Session.onward_trans first course.onward, Session.onward_trans since course.onward,
      course.sound first ahead sound, rfl⟩

theorem gives_congr {acts acts' : ℕ → EvalM α}
    (same : ∀ k, acts k (V.atEnd depth) = acts' k (V.atEnd depth)) :
    V.Gives acts x depth ↔ V.Gives acts' x depth := by
  unfold Gives
  simp only [same]

theorem gives_succ {acts : ℕ → EvalM α} :
    V.Gives (fun k => acts (k + 1)) x depth ↔ V.Gives acts x depth :=
  or_congr (eventually_succ (p := fun k => acts k _ = _)) (eventually_succ (p := fun k =>
    ∃ e z, e.fault = V.fault ∧ acts k (V.atEnd depth) = (.error (.failure e), z)))

theorem gives_map_error {acts : ℕ → EvalM α} (n : NodeId) (p : PropId) :
    V.Gives (fun k => (acts k).mapError (·.claimedBy n p)) x depth ↔ V.Gives acts x depth := by
  refine or_congr ⟨fun often => ?_, fun often => ?_⟩ ⟨fun often => ?_, fun often => ?_⟩ <;>
    refine often.mono fun k => ?_
  · exact map_error_ok
  · exact map_error_of_ok
  · rintro ⟨e, z, same, failed⟩
    obtain ⟨cause, inside, rfl⟩ := map_error_failure failed
    exact ⟨cause, z, same, inside⟩
  · rintro ⟨e, z, same, failed⟩
    exact ⟨e.claimedBy n p, z, same, map_error_of_failure failed⟩

/-- Asking for what a body answers comes to running the body. -/
theorem gives_ask {node : Node}
    (there : Called (V.setting.uncached 0) (V.atEnd depth) key dynVars node info index) :
    V.Gives (fun k => (V.machine k).ask key) x depth ↔
      V.Gives (fun k => compute (V.setting.uncached 0) (V.machine k) node.kind info index key) x
        depth :=
  gives_succ.symm.trans <|
    (gives_congr fun k => called_eq (called_declared there) (V.machine k)).trans
    (gives_map_error key.entity.node key.prop)

/-! ## Lookups -/

/-- Where a store in the middle of the run agrees with the one in the end, so do all
that come after it. -/
theorem alike_hindsight (agrees : u.envs.agrees V.last.envs env symbol = true) :
    (V.hindsight rooted u depth).Alike env symbol := by
  have between {v w : Session} (paired : (V.hindsight rooted u depth).paired v w)
      (ahead : v.Onward V.last) : w.envs = V.last.envs ∧
        v.envs.agrees V.last.envs env symbol = true := by
    obtain ⟨-, since, -, rfl⟩ := paired
    exact ⟨rfl, EnvStore.agrees_between since.envs ahead.envs agrees⟩
  refine ⟨fun {v w} paired ahead => ?_, fun {v w} paired ahead => ?_,
    fun {v w} paired ahead i => ?_, fun {v w} paired ahead => ?_⟩ <;>
    obtain ⟨same, agrees⟩ := between paired ahead <;>
    obtain ⟨bindings, count, parent⟩ := EnvStore.agrees_iff.1 agrees <;> rw [same]
  · exact bindings
  · exact count
  · cases held : v.envs.reference? env i with
    | none =>
      have absent : (v.envs.references env).size ≤ i := Array.getElem?_eq_none_iff.1 held
      rw [Option.map_none, Option.map_eq_none_iff]
      exact Array.getElem?_eq_none (count ▸ absent)
    | some a =>
      obtain ⟨b, still, kept⟩ := EnvStore.reference_later ahead.envs held
      rw [still, Option.map_some, Option.map_some, kept.crossing]
  · exact parent

/-- A reference that depends on itself is reported. -/
theorem cycled_of_reported (first : V.first.Onward u)
    (ahead : (u.reportCycle env index).Onward V.last) : V.first.cycled V.last env index = true := by
  obtain ⟨location, eq⟩ : ∃ location, (u.reportCycle env index).bag =
      u.bag.report ⟨.K2002, .error, cycleMessage env index, location⟩ := ⟨_, rfl⟩
  have kept := ahead.kept
  have dropped := ahead.dropped
  rw [eq] at kept dropped
  unfold Session.cycled
  rw [Bool.or_eq_true, decide_eq_true_iff, Array.any_eq_true']
  rcases u.bag.kept_or_dropped ⟨.K2002, .error, cycleMessage env index, location⟩ with mem | more
  · exact .inr ⟨_, kept _ mem, by simp⟩
  · exact .inl (Nat.lt_of_le_of_lt first.dropped (Nat.lt_of_lt_of_le more dropped))

/-- What the run was told is behind a reference, if that lasts, is behind it in the
end. -/
theorem resolved_in_the_end {m : Machine}
    (inside : ∀ thunk s, Session.SameMarks s (force S m thunk s).2)
    (ran : resolveWith S m env index u = (.ok value, v)) (first : V.first.Onward u)
    (ahead : v.Onward V.last) (present : u.envs.reference? env index = none →
      V.last.envs.reference? env index = none) (lasting : V.first.lasting V.last env index = true) :
    V.last.envs.reference? env index = none ∧ value = .empty ∨
      V.last.envs.state? env index = some (.resolved value) := by
  -- a state that is final stays so until the end
  have final {w : Session} (ahead : w.envs.Later V.last.envs)
      (known : w.envs.state? env index = some (.resolved value)) :
      V.last.envs.state? env index = some (.resolved value) := by
    obtain ⟨a, held, state⟩ := Option.map_eq_some_iff.1 known
    obtain ⟨b, still, kept⟩ := EnvStore.reference_later ahead held
    exact Option.map_eq_some_iff.2 ⟨b, still, kept.state value state⟩
  rw [resolve_with_eq] at ran
  cases held : u.envs.reference? env index with
  | none =>
    rw [held] at ran
    cases ran
    exact .inl ⟨present held, rfl⟩
  | some a =>
    rw [held] at ran
    dsimp only at ran
    cases state : a.state with
    | resolved x =>
      rw [state] at ran
      cases ran
      exact .inr (final ahead.envs (Option.map_eq_some_iff.2 ⟨a, held, state⟩))
    | resolving =>
      rw [state] at ran
      cases ran
      obtain ⟨b, still, kept⟩ := EnvStore.reference_later ahead.envs held
      have known : V.last.envs.state? env index = some b.state := by
        rw [EnvStore.state?, still]; rfl
      unfold Session.lasting at lasting
      rw [known] at lasting
      cases after : b.state with
      | resolved x =>
        simp only [after, Bool.or_eq_true, decide_eq_true_iff, Bool.not_eq_true',
          cycled_of_reported first ahead, or_false, Bool.true_eq_false] at lasting
        rcases lasting with before | rfl
        · obtain ⟨c, earlier, settled⟩ := Option.map_eq_some_iff.1 before
          obtain ⟨a', held', kept'⟩ := EnvStore.reference_later first.envs earlier
          rw [held] at held'
          cases held'
          rw [kept'.state x settled] at state
          cases state
        · exact .inr (known.trans (congrArg some after))
      | _ => simp [after] at lasting
    | unresolved =>
      rw [state] at ran
      dsimp only at ran
      obtain ⟨still, found, -⟩ := resolving_marked (inside a.thunk) held
      rw [EvalM.resolving_eq] at ran
      rcases forced : force S m a.thunk (u.mark env index) with ⟨halt | x, t⟩ <;>
        rw [forced] at ran found <;> cases ran
      refine .inr (final ahead.envs ?_)
      show ((t.envs.setState env index (.resolved value)).reference? env index).map (·.state) = _
      rw [EnvStore.reference?_setState, if_pos ⟨rfl, rfl⟩, found]
      rfl

/-! ## Calls -/

theorem nests_hindsight (limit : Nat) : (V.hindsight rooted base depth).Nests
    (V.hindsight rooted base (depth + 1)) limit (V.setting.uncached 0).config.maxCallDepth where
  course {u v} inside := by
    refine keeps_between u.deeper v ?_ (Session.onward_deeper u) rfl inside
      (Session.onward_shallower v) rfl
    exact ⟨inside.marks.keys, inside.marks.references, congrArg (· - 1) inside.marks.depth,
      inside.marks.loader⟩
  ahead := Session.onward_trans (Session.onward_shallower _)
  enter := by
    rintro u w ⟨first, since, sound, rfl⟩
    have deeper := Session.onward_deeper u
    exact ⟨Session.onward_trans first deeper, Session.onward_trans since deeper, sound, rfl⟩
  leave := by
    rintro v z ⟨first, since, sound, rfl⟩
    have back := Session.onward_shallower v
    exact ⟨Session.onward_trans first back, Session.onward_trans since back, sound, rfl⟩
  excused same := same
  limit _ _ deep := absurd (.inl rfl) deep

section Tower
variable (plain : V.setting.language.IsPlain)
  (moves : (V.run n).Moves (Along V.Keeps))
  (follows : ∀ base depth, (V.run n).Follows (V.hindsight rooted base depth) V.machine)
include plain moves follows

omit moves in
theorem compute_hindsight (kind : KindId) (info : PropertyInfo) (index : Nat) (key : MemoKey)
    (base : Session) (depth : Nat) :
    Follows (V.hindsight rooted base depth) (compute V.setting (V.run n) kind info index key)
      (fun k => compute (V.setting.uncached 0) (V.machine k) kind info index key) := by
  have same : (V.setting.uncached 0).language = V.setting.language := rfl
  exact compute_follows info same (nests_hindsight _)
    (body_of_follows plain same (follows base (depth + 1)) kind index key)

/-- What a call remembers is right in the end. -/
theorem remembered_hindsight {node : Node}
    (called : Called V.setting u key dynVars node info index) : V.Keeps u
      (memoized info.name key (compute V.setting (V.run n) node.kind info index key) u).2 := by
  have inside := along_moves_iff.1 (compute_moves (S := V.setting) moves node.kind info index key)
  refine memoized_keeps _ _ inside u fun v t ran first ahead sound depth => ?_
  have enter := Session.onward_memo u (u.memo.start key)
  have there := inside { u with memo := u.memo.start key }
  rw [ran] at there
  have same : (V.setting.uncached 0).language = V.setting.language := rfl
  obtain ⟨b, called', kind⟩ := called_paired (K := V.hindsight rooted u depth) same
    ⟨first, Session.onward_refl u, sound, rfl⟩
    (Session.onward_trans enter (Session.onward_trans there.onward ahead)) called
  rw [gives_ask called', kind]
  exact (follows_at_hindsight.1 (compute_hindsight plain follows node.kind info index key u depth
    _)).2 v t ran (Session.onward_trans first enter) enter sound ahead

theorem answer_hindsight {node : Node} (called : Called V.setting u key dynVars node info index)
    (base : Session) (depth : Nat) : FollowsAt (V.hindsight rooted base depth)
      (answer V.setting (V.run n) node.kind info index key)
      (fun k => answer (V.setting.uncached 0) (V.machine k) node.kind info index key) u := by
  simp only [answer_uncached]
  unfold answer
  split
  · rw [follows_at_hindsight]
    have keeps := remembered_hindsight plain moves follows called
    refine ⟨keeps, fun x v ran first since sound ahead => ?_⟩
    have ahead_ : u.Onward V.last := by
      rw [ran] at keeps
      exact Session.onward_trans keeps.onward ahead
    rcases memoized_ok ran with ⟨known, -⟩ | ⟨-, -, t, computed, rfl⟩
    · have same : (V.setting.uncached 0).language = V.setting.language := rfl
      obtain ⟨b, called', kind⟩ := called_paired (K := V.hindsight rooted base depth) same
        ⟨first, since, sound, rfl⟩ ahead_ called
      rw [← kind, ← gives_ask called']
      exact sound key x known depth
    · have enter := Session.onward_memo u (u.memo.start key)
      refine (follows_at_hindsight.1 (compute_hindsight plain follows node.kind info index key base
        depth _)).2 x t computed (Session.onward_trans first enter)
        (Session.onward_trans since enter) sound ?_
      exact Session.onward_trans (Session.onward_memo t _) ahead
  · exact compute_hindsight plain follows node.kind info index key base depth u

omit plain in
/-- What is looked up in an environment that stays as it is, is found in the end. -/
theorem search_hindsight (timely : V.Timely) (q : LookupQuery) (view : EnvValue)
    (visiting : List EnvId) (found : Array Entity) (base : Session) (depth : Nat) (u : Session) :
    FollowsAt (V.hindsight rooted base depth)
      ((searchWith (V.run n) q view visiting found).confine
        (V.watch.search · (view.rebindings.standIn view.env) q.symbol) .exhausted)
      (fun k => (searchWith (V.machine k) q view visiting found).confine
        (fun _ => V.search (view.rebindings.standIn view.env) q.symbol)
        (.failure (.of V.fault))) u := by
  rw [follows_at_hindsight]
  have keeps := along_moves_iff.1 (moves_confine
    (V.watch.search · (view.rebindings.standIn view.env) q.symbol) .exhausted
    (search_with_moves moves q view visiting found)) u
  refine ⟨keeps, fun x v ran first since sound ahead => ?_⟩
  rw [ran] at keeps
  unfold confine at ran
  split at ran
  · next allowed =>
    cases wide : V.search (view.rebindings.standIn view.env) q.symbol with
    | false => exact .inr (.of_forall fun k => ⟨.of V.fault, V.atEnd depth, rfl, rfl⟩)
    | true =>
      have alike : (V.hindsight rooted u depth).Alike _ _ := alike_hindsight
        (timely u _ _ first (Session.onward_trans keeps.onward ahead) allowed wide)
      have followed := search_with_follows (follows u depth) alike visiting found u
      exact (follows_at_hindsight.1 followed).2 x v ran first (Session.onward_refl u) sound ahead
  · cases ran

omit plain follows in
/-- What is behind a reference for good is behind it in the end. -/
theorem resolve_hindsight (env : EnvId) (index : Nat) (base : Session) (depth : Nat)
    (present : (V.hindsight rooted base depth).Present env index) (u : Session) :
    FollowsAt (V.hindsight rooted base depth)
      ((resolveWith V.setting (V.run n) env index).confine (V.watch.resolve · env index) .exhausted)
      (fun k => (resolveWith (V.setting.uncached 0) (V.machine k) env index).confine
        (fun _ => V.first.lasting V.last env index) (.failure (.of V.fault))) u := by
  rw [follows_at_hindsight]
  have keeps := along_moves_iff.1 (moves_confine (V.watch.resolve · env index) .exhausted
    (resolve_with_moves (S := V.setting) moves env index)) u
  refine ⟨keeps, fun x v ran first since sound ahead => ?_⟩
  rw [ran] at keeps
  unfold confine at ran
  split at ran
  · cases lasting : V.first.lasting V.last env index with
    | false => exact .inr (.of_forall fun k => ⟨.of V.fault, V.atEnd depth, rfl, rfl⟩)
    | true =>
      refine .inl (.of_forall fun k => ?_)
      show resolveWith (V.setting.uncached 0) (V.machine k) env index (V.atEnd depth) = _
      have marks (thunk : EnvThunk) (s : Session) :
          s.SameMarks (force V.setting (V.run n) thunk s).2 :=
        (along_moves_iff.1 (force_moves (S := V.setting) moves thunk) s).marks
      rw [resolve_with_eq]
      rcases resolved_in_the_end marks ran first ahead (fun absent =>
        present (w := V.atEnd depth) ⟨first, since, sound, rfl⟩
          (Session.onward_trans keeps.onward ahead) absent) lasting with ⟨absent, rfl⟩ | resolved
      · rw [show (V.atEnd depth).envs = V.last.envs from rfl, absent]
      · obtain ⟨a, held, state⟩ := Option.map_eq_some_iff.1 resolved
        rw [show (V.atEnd depth).envs = V.last.envs from rfl, held]
        simp only [state]
  · cases ran

end Tower

/-- What a run computes, evaluations without memory compute in the end. -/
theorem run_hindsight (plain : V.setting.language.IsPlain) (rooted : V.Rooted)
    (timely : V.Timely) (n : Nat) : (V.run n).Moves (Along V.Keeps) ∧
      ∀ base depth, (V.run n).Follows (V.hindsight rooted base depth) V.machine := by
  induction n with
  | zero => exact ⟨Machine.moves_exhausted, fun _ _ => machine_follows_exhausted⟩
  | succ n ih =>
    obtain ⟨moves, follows⟩ := ih
    have calls : ∀ entity prop args dynVars, Moves (Along V.Keeps)
        (callWith V.setting (V.run n) entity prop args dynVars) :=
      call_with_moves moves fun called _ populated =>
        ⟨populated, remembered_hindsight plain moves follows called, List.suffix_refl _⟩
    refine ⟨⟨calls, fun q view visiting found => ?_, fun env index => ?_⟩, fun base depth =>
      ⟨fun entity prop args dynVars u => ?_, fun q view visiting found u => ?_,
        fun env index present u => ?_⟩⟩
    · exact moves_confine _ _ (search_with_moves moves q view visiting found)
    · exact moves_confine _ _ (resolve_with_moves (S := V.setting) moves env index)
    · have same : (V.setting.uncached 0).language = V.setting.language := rfl
      exact follows_of_succ (call_with_follows same
        (fun called => answer_hindsight plain moves follows called base depth) entity prop args
        dynVars u)
    · exact follows_of_succ (search_hindsight moves follows timely q view visiting found base
        depth u)
    · exact follows_of_succ (resolve_hindsight moves env index base depth present u)

end Review
end Trellis
