import Trellis.Proofs.Session.Staleness

/-! Remembering results changes no answer, as long as neither the tree nor any
environment changes. A result that is remembered is one that an evaluation without
memory gives. Conversely such an evaluation is followed by one with memory: it finds
the same results, and never comes back to a call that is still running, since the
evaluation without memory would not come to an end there. -/
namespace Trellis

open Filter SessionM EvalM

theorem settled_free {s : Session} (resolved : s.envs.AllResolved) : Confinement.free.Settled s :=
  fun env index reference _ held => resolved env index reference held

/-- The setting with memory switched on or off. -/
def Setting.memoizing (S : Setting) (memoize : Bool) : Setting :=
  { S with config := { S.config with memoize } }

variable {S S' : Setting}

/-! ## What changes nothing -/

/-- Runs of a session by itself: where every reference has been resolved, they change
neither the tree nor an environment. -/
def Pairing.quiet : Pairing where
  paired _ _ := False
  course u v := u.envs.AllResolved → v.tree = u.tree ∧ v.envs = u.envs
  ahead _ := True
  excused _ := False
  course_refl _ _ := ⟨rfl, rfl⟩
  course_trans first rest resolved := by
    obtain ⟨tree, envs⟩ := first resolved
    obtain ⟨tree', envs'⟩ := rest (envs ▸ resolved)
    exact ⟨tree'.trans tree, envs'.trans envs⟩
  ahead_back _ _ := trivial
  nodes := False.elim

theorem follows_quiet {act : EvalM α} {acts : ℕ → EvalM α} {u : Session}
    (quiet : Pairing.quiet.course u (act u).2) : FollowsAt .quiet act acts u :=
  ⟨quiet, fun _ _ _ paired => paired.elim⟩

theorem alike_quiet (env : EnvId) (symbol : Symbol) : Pairing.quiet.Alike env symbol where
  bindings := False.elim
  count := False.elim
  crossing := False.elim
  parent := False.elim

theorem nests_quiet (limit limit' : Nat) : Pairing.quiet.Nests .quiet limit limit' where
  course inside resolved := inside resolved
  ahead _ := trivial
  enter := False.elim
  leave := False.elim
  excused := False.elim
  limit := False.elim

theorem memoized_quiet {act : EvalM Value} (name : String) (key : MemoKey)
    (inside : ∀ s, Pairing.quiet.course s (act s).2) (s : Session) :
    Pairing.quiet.course s (memoized name key act s).2 := by
  unfold memoized
  split
  · exact fun _ => ⟨rfl, rfl⟩
  · split
    · exact fun _ => ⟨rfl, rfl⟩
    · have there := inside { s with memo := s.memo.start key }
      unfold bracket
      rcases ran : act { s with memo := s.memo.start key } with ⟨halt | v, t⟩ <;>
        rw [ran] at there <;> exact there

/-- A plain evaluation that has nothing to resolve changes nothing. -/
theorem plain_quiet (plain : S.language.IsPlain) (n : Nat) :
    (Machine.upTo S n).Follows .quiet (fun _ => .upTo S n) := by
  induction n with
  | zero => exact machine_follows_exhausted
  | succ n ih =>
    rw [up_to_succ]
    refine ⟨fun entity prop args dynVars => call_with_follows rfl
      (fun {u key _ node info index} _ => ?_) entity prop args dynVars,
      fun q view visiting found => search_with_follows ih (alike_quiet _ _) visiting found,
      fun env index _ u => follows_quiet fun resolved => ?_⟩
    · have computed := compute_follows info rfl (nests_quiet _ _)
        (body_of_follows plain rfl ih node.kind index key)
      unfold answer
      split
      · exact follows_quiet (memoized_quiet _ _ (fun s => (computed s).1) u)
      · exact computed u
    · obtain ⟨value, eq⟩ := resolve_with_settled (settled_free resolved)
        (show Confinement.free.resolve u.envs env index = true from rfl)
      dsimp only
      rw [eq S _ u rfl]
      exact ⟨rfl, rfl⟩

/-- A sequence of calls, whether or not they succeed, changes nothing. -/
theorem calls_quiet (plain : S.language.IsPlain) (n : Nat) (calls : List MemoKey) (s : Session) :
    Pairing.quiet.course s (calls.foldl (fun u c => ((Machine.upTo S n).ask c u).2) s) := by
  induction calls generalizing s with
  | nil => exact fun _ => ⟨rfl, rfl⟩
  | cons c rest ih =>
    exact Pairing.quiet.course_trans ((plain_quiet plain n).call _ _ _ _ s).1 (ih _)

/-- Nor does it leave a mark. -/
theorem calls_marks (n : Nat) (calls : List MemoKey) (s : Session) :
    s.SameMarks (calls.foldl (fun u c => ((Machine.upTo S n).ask c u).2) s) := by
  have moves : (Machine.upTo S n).Moves (Along Session.SameMarks) := machine_moves n
  induction calls generalizing s with
  | nil => exact Session.same_marks_refl s
  | cons c rest ih =>
    have first := along_moves_iff.1 (moves.call c.entity c.prop c.args c.dynVars) s
    exact Session.same_marks_trans first (ih _)

/-! ## What is remembered is right -/

/-- What a call gives when nothing is remembered and calls may nest freely. -/
def Setting.Answers (S : Setting) (s : Session) (key : MemoKey) (value : Value) : Prop :=
  ∃ n, (Machine.upTo (S.uncached 0) n).ask key s = (.ok value, s)

section Answers
variable {s t : Session}

theorem answers_of_ask (plain : S.language.IsPlain) (resolved : s.envs.AllResolved)
    (ran : (Machine.upTo (S.uncached limit) n).ask key s = (.ok v, s')) (tree : t.tree = s.tree)
    (envs : t.envs = s.envs) : s' = s ∧ S.Answers t key v := by
  rw [← confined_free _ .exhausted] at ran
  obtain ⟨same, answered⟩ := confined_ask_ok plain (settled_free resolved) ran (Nat.le_refl n)
    (.inl rfl) tree envs
  exact ⟨same, n, answered⟩

/-- No call gives two results. -/
theorem answers_unique (plain : S.language.IsPlain) (resolved : s.envs.AllResolved)
    (one : S.Answers s key v) (two : S.Answers s key v') : v = v' := by
  have further {v n n'} (ran : (Machine.upTo (S.uncached 0) n).ask key s = (.ok v, s))
      (le : n ≤ n') :
      (Machine.upTo (S.uncached 0) n').ask key s = (.ok v, s) := by
    rw [← confined_free _ .exhausted] at ran
    exact (confined_ask_ok plain (settled_free resolved) ran le (.inl rfl) rfl rfl).2
  obtain ⟨n, ran⟩ := one
  obtain ⟨n', ran'⟩ := two
  have same := (further ran (Nat.le_max_left n n')).symm.trans
    (further ran' (Nat.le_max_right n n'))
  cases same
  rfl

end Answers

/-! ## Following an evaluation without memory -/

/-- The session with some number of calls running. -/
def Session.atDepth (s : Session) (depth : Nat) : Session := { s with depth }

/-- A session over the same tree and environments, with some number of calls running.
Those of them that are to be remembered have their keys marked, and what is remembered is
right. -/
structure Setting.Recalls (S : Setting) (base : Session) (depth : Nat) (running : MemoKey → Prop)
    (w : Session) : Prop where
  tree : w.tree = base.tree
  envs : w.envs = base.envs
  depth : w.depth = depth
  known : ∀ key value, w.memo.done[key]? = some value → S.Answers base key value
  running : ∀ key, key ∈ w.memo.running ↔ running key

/-- An evaluation without memory with `d` calls running, on the left, and one with memory
with `depth` calls running. -/
def Pairing.recall (S : Setting) (base : Session) (d depth : Nat) (running : MemoKey → Prop) :
    Pairing where
  paired u w := u = base.atDepth d ∧ S.Recalls base depth running w
  course u v := u.envs.AllResolved → v = u
  ahead _ := True
  excused _ := False
  course_refl _ _ := rfl
  course_trans first rest resolved := by
    have eq := first resolved
    exact (rest (eq ▸ resolved)).trans eq
  ahead_back _ _ := trivial
  nodes := by
    rintro u w n a ⟨rfl, recalls⟩ - held
    exact ⟨a, by rw [recalls.tree]; exact held, Node.later_refl _, rfl⟩

theorem alike_recall (env : EnvId) (symbol : Symbol) :
    (Pairing.recall S base d depth running).Alike env symbol where
  bindings paired _ := by rw [paired.1, paired.2.envs]; rfl
  count paired _ := by rw [paired.1, paired.2.envs]; rfl
  crossing paired _ _ := by rw [paired.1, paired.2.envs]; rfl
  parent paired _ := by rw [paired.1, paired.2.envs]; rfl

theorem nests_recall (base : Session) (shallow : depth ≤ d) (limit : Nat) :
    (Pairing.recall S base d depth running).Nests
      (.recall S base (d + 1) (depth + 1) running) limit limit where
  course same resolved := by rw [same resolved]; rfl
  ahead _ := trivial
  enter := by
    rintro u w ⟨rfl, recalls⟩
    exact ⟨rfl, recalls.tree, recalls.envs, congrArg (· + 1) recalls.depth, recalls.known,
      recalls.running⟩
  leave := by
    rintro v z ⟨rfl, recalls⟩
    exact ⟨rfl, recalls.tree, recalls.envs, congrArg (· - 1) recalls.depth, recalls.known,
      recalls.running⟩
  excused := False.elim
  limit := by
    rintro u w ⟨rfl, recalls⟩ within deep
    have := recalls.depth
    change limit = 0 ∨ d < limit at within
    unfold Session.Within at deep
    omega

/-- Whether an evaluation without memory can answer a call with at least `d` calls
running. -/
def Setting.Reaches (S : Setting) (base : Session) (d n : Nat) (key : MemoKey) : Prop :=
  ∃ d' ≥ d, ∃ v t, (Machine.upTo (S.memoizing false) n).ask key (base.atDepth d') = (.ok v, t)

section Recall
variable {base : Session} (plain : S.language.IsPlain) (resolved : base.envs.AllResolved)
include plain resolved

/-- With more nesting and fewer calls running it can as well. -/
theorem reaches_mono (reaches : S.Reaches base d n key) (fewer : d' ≤ d) (more : n ≤ n') :
    S.Reaches base d' n' key := by
  obtain ⟨e, le, v, t, ran⟩ := reaches
  change (Machine.upTo (S.uncached _) n).ask _ _ = _ at ran
  rw [← confined_free _ .exhausted] at ran
  have resolved_ : (base.atDepth e).envs.AllResolved := resolved
  obtain ⟨-, again⟩ := confined_ask_ok (r := base.atDepth e) plain (settled_free resolved_) ran more
    (.inr ⟨rfl, Nat.le_refl _⟩) rfl rfl
  exact ⟨e, Nat.le_trans fewer le, v, _, again⟩

/-- A call whose result is to be remembered. Of all the evaluations that answer it the
one with the least nesting is followed: that one does not come back to the call. -/
theorem memoized_recall {w t : Session} {node : Node}
    (below : ∀ p ≤ n, ∀ d depth running, depth ≤ d →
      (∀ key, running key → ¬ S.Reaches base d p key) → (Machine.upTo (S.memoizing false) p).Follows
        (.recall S base d depth running) (fun _ => .upTo (S.memoizing true) n'))
    (called : Called (S.memoizing false) (base.atDepth d) key dynVars node info index)
    (shallow : depth ≤ d) (barred : ∀ key, running key → ¬ S.Reaches base d (n + 1) key)
    (recalls : S.Recalls base depth running w)
    (ran : compute (S.memoizing false) (.upTo (S.memoizing false) n) node.kind info index key
      (base.atDepth d) = (.ok x, t)) :
    ∃ z, S.Recalls base depth running z ∧ memoized info.name key
      (compute (S.memoizing true) (.upTo (S.memoizing true) n') node.kind info index key) w =
        (.ok x, z) := by
  classical
  have plain_ : (S.memoizing false).language.IsPlain := plain
  have asking (p e : Nat) : (Machine.upTo (S.memoizing false) (p + 1)).ask key (base.atDepth e) =
      (compute (S.memoizing false) (.upTo (S.memoizing false) p) node.kind info index key).mapError
        (·.claimedBy key.entity.node key.prop) (base.atDepth e) :=
    called_eq (called_declared (called_of_tree (u := base.atDepth d) (w := base.atDepth e) rfl rfl
      called)) _
  have asked := (asking n d).trans (map_error_of_ok ran)
  have right : S.Answers base key x :=
    (answers_of_ask (s := base.atDepth d) (t := base) plain resolved asked rfl rfl).2
  have reached : S.Reaches base d (n + 1) key := ⟨d, Nat.le_refl d, x, t, asked⟩
  cases known : w.memo.done[key]? with
  | some y =>
    obtain rfl := answers_unique plain resolved (recalls.known key y known) right
    exact ⟨{ w with memo := w.memo.hit },
      ⟨recalls.tree, recalls.envs, recalls.depth, recalls.known, recalls.running⟩,
      memoized_of_known known⟩
  | none =>
    have idle : key ∉ w.memo.running := fun mem => barred key ((recalls.running key).1 mem) reached
    have some_ : ∃ p, S.Reaches base d p key := ⟨n + 1, reached⟩
    obtain ⟨p, least⟩ : ∃ p, Nat.find some_ = p + 1 := by
      refine Nat.exists_eq_succ_of_ne_zero fun zero => ?_
      obtain ⟨_, _, _, _, exhausted⟩ := zero ▸ Nat.find_spec some_
      cases exhausted
    obtain ⟨e, le, y, t', asked'⟩ := least ▸ Nat.find_spec some_
    have most : p + 1 ≤ n + 1 := least ▸ Nat.find_min' some_ reached
    have ran' := map_error_ok ((asking p e).symm.trans asked')
    obtain rfl : x = y := answers_unique plain resolved right
      (answers_of_ask (s := base.atDepth e) (t := base) plain resolved asked' rfl rfl).2
    have fresh : ∀ k, k = key ∨ running k → ¬ S.Reaches base (e + 1) p k := by
      rintro k (rfl | runs) again
      · exact Nat.find_min some_ (by omega)
          (reaches_mono plain resolved again (by omega) (Nat.le_refl p))
      · exact barred k runs (reaches_mono plain resolved again (by omega) (by omega))
    have same : (S.memoizing true).language = (S.memoizing false).language := rfl
    have computed := compute_follows info same
      (nests_recall base (Nat.le_trans shallow le) S.config.maxCallDepth)
      (body_of_follows plain_ same (below p (by omega) (e + 1) (depth + 1) _ (by omega) fresh)
        node.kind index key)
    have start : S.Recalls base depth (fun k => k = key ∨ running k)
        { w with memo := w.memo.start key } := by
      refine ⟨recalls.tree, recalls.envs, recalls.depth, recalls.known, fun k => ?_⟩
      rw [Memo.start, Std.HashSet.mem_insert, recalls.running, beq_iff_eq]
      exact or_congr_left eq_comm
    rcases (computed (base.atDepth e)).2 _ x t' ⟨rfl, start⟩ ran' trivial with
      ⟨z, ⟨-, after⟩, followed⟩ | gaveUp
    · obtain ⟨_, computed_⟩ := followed.exists
      refine ⟨{ z with memo := z.memo.finish key x },
        ⟨after.tree, after.envs, after.depth, fun k v held => ?_, fun k => ?_⟩,
        memoized_of_computed known idle computed_⟩
      · rw [Memo.finish, Std.HashMap.getElem?_insert] at held
        split at held
        · next this =>
          cases held
          exact beq_iff_eq.1 this ▸ right
        · exact after.known k v held
      · rw [Memo.finish, Std.HashSet.mem_erase, after.running, beq_eq_false_iff_ne]
        constructor
        · rintro ⟨other, found⟩
          exact found.resolve_left (Ne.symm other)
        · intro runs
          exact ⟨fun this => barred k runs (this ▸ reached), .inr runs⟩
    · obtain ⟨_, _, _, no, _⟩ := gaveUp.exists
      exact no.elim

/-- What an evaluation without memory gives, one with memory gives, as long as none of the
calls that are running is needed. -/
theorem recall_follows (n : Nat) : ∀ d depth running n', depth ≤ d →
    (∀ key, running key → ¬ S.Reaches base d n key) → n ≤ n' →
    (Machine.upTo (S.memoizing false) n).Follows (.recall S base d depth running)
      (fun _ => .upTo (S.memoizing true) n') := by
  induction n using Nat.strong_induction_on with
  | _ n ih =>
    intro d depth running n' shallow barred le
    cases n with
    | zero => exact machine_follows_exhausted
    | succ n =>
      obtain ⟨n', rfl⟩ : ∃ k, n' = k + 1 := ⟨n' - 1, by omega⟩
      have below : ∀ p ≤ n, ∀ d depth running, depth ≤ d →
          (∀ key, running key → ¬ S.Reaches base d p key) →
          (Machine.upTo (S.memoizing false) p).Follows (.recall S base d depth running)
            (fun _ => .upTo (S.memoizing true) n') :=
        fun p le' d depth running shallow barred =>
          ih p (by omega) d depth running n' shallow barred (by omega)
      have here := below n (Nat.le_refl n) d depth running shallow fun key runs reaches =>
        barred key runs (reaches_mono plain resolved reaches (Nat.le_refl d) (Nat.le_succ n))
      have plain_ : (S.memoizing false).language.IsPlain := plain
      have same : (S.memoizing true).language = (S.memoizing false).language := rfl
      rw [up_to_succ, up_to_succ]
      refine ⟨fun entity prop args dynVars => call_with_follows same
        (fun {u key dynVars node info index} called => ?_) entity prop args dynVars,
        fun q view visiting found => search_with_follows here (alike_recall _ _) visiting found,
        fun env index _ => ?_⟩
      · have computed := compute_follows info same
          (nests_recall base shallow S.config.maxCallDepth)
          (body_of_follows plain_ same (below n (Nat.le_refl n) (d + 1) (depth + 1) running
            (by omega) fun key runs reaches => barred key runs
              (reaches_mono plain resolved reaches (Nat.le_succ d) (Nat.le_succ n)))
            node.kind index key)
        refine ⟨(computed u).1, fun w x v paired ran _ => ?_⟩
        obtain ⟨left, recalls⟩ := paired
        cases toRemember : info.memoized with
        | true =>
          subst left
          obtain ⟨z, after, followed⟩ :=
            memoized_recall plain resolved below called shallow barred recalls ran
          refine .inl ⟨z, ⟨?_, after⟩, .of_forall fun _ => ?_⟩
          · have course := (computed (base.atDepth d)).1 resolved
            rwa [show compute _ _ _ _ _ _ _ = _ from ran] at course
          · unfold answer
            rw [toRemember]
            exact followed
        | false =>
          have plain_answer :
              answer (S.memoizing true) (.upTo (S.memoizing true) n') node.kind info index key =
                compute (S.memoizing true) (.upTo (S.memoizing true) n') node.kind info index
                  key := by
            unfold answer
            rw [toRemember]
            rfl
          simp only [plain_answer]
          exact (computed u).2 w x v ⟨left, recalls⟩ ran trivial
      · refine fun u => ⟨fun resolved_ => ?_, fun w x v paired ran _ => .inl ?_⟩
        · obtain ⟨value, eq⟩ := resolve_with_settled (settled_free resolved_)
            (show Confinement.free.resolve u.envs env index = true from rfl)
          dsimp only
          rw [eq _ _ u rfl]
        · obtain ⟨rfl, recalls⟩ := paired
          have settled : Confinement.free.Settled (base.atDepth d) := settled_free resolved
          obtain ⟨value, eq⟩ := resolve_with_settled settled
            (show Confinement.free.resolve (base.atDepth d).envs env index = true from rfl)
          dsimp only at ran ⊢
          rw [eq _ _ (base.atDepth d) rfl] at ran
          cases ran
          exact ⟨w, ⟨rfl, recalls⟩, .of_forall fun _ => eq _ _ w recalls.envs⟩

end Recall

/-! ## Sequences of calls -/

/-- Where every reference had been resolved, and no environment changed, nothing is out of
bounds. -/
theorem lasting_free {s t : Session} (resolved : s.envs.AllResolved) (envs : t.envs = s.envs) :
    Confinement.lasting s t (fun _ _ => true) = .free := by
  have lasting (env : EnvId) (index : Nat) : s.lasting t env index = true := by
    unfold Session.lasting
    rw [envs]
    cases held : s.envs.reference? env index with
    | none => rw [EnvStore.state?, held]; rfl
    | some reference =>
      obtain ⟨value, state⟩ := resolved env index reference held
      have known : s.envs.state? env index = some (.resolved value) := by
        rw [EnvStore.state?, held, Option.map_some, state]
      rw [known]
      simp
  unfold Confinement.lasting Confinement.free
  simp only [lasting]

section Calls
variable (plain : S.language.IsPlain) {s u : Session} (resolved : s.envs.AllResolved)
  (unknown : ∀ key : MemoKey, s.memo.done[key]? = none) {n m : Nat} {calls : List MemoKey}
  (reached : u = calls.foldl (fun u c => ((Machine.upTo (S.memoizing true) n).ask c u).2) s)
include plain resolved unknown reached

omit unknown in
/-- A call more changes nothing either. -/
theorem call_quiet {t : Session} (asked : (Machine.upTo (S.memoizing true) m).ask c u = (r, t)) :
    (u.tree = s.tree ∧ u.envs = s.envs) ∧ t.tree = u.tree ∧ t.envs = u.envs := by
  have plain_ : (S.memoizing true).language.IsPlain := plain
  have before := reached ▸ calls_quiet plain_ n calls s resolved
  have after := ((plain_quiet plain_ m).call c.entity c.prop c.args c.dynVars u).1
    (before.2 ▸ resolved)
  rw [show (Machine.upTo (S.memoizing true) m).call _ _ _ _ u = _ from asked] at after
  exact ⟨before, after⟩

/-- Calls, looked back upon from the end of one call more. -/
theorem call_hindsight {t : Session} (asked : (Machine.upTo (S.memoizing true) m).ask c u = (r, t))
    (fault : Fault) :
    let V : Review := ⟨S.memoizing true, s, t, .free, fun _ _ => true, fault⟩
    V.Sound u ∧ ∀ v, r = .ok v → V.Gives (fun k => (V.machine k).ask c) v t.depth := by
  intro V
  have plain_ : (S.memoizing true).language.IsPlain := plain
  obtain ⟨⟨tree, envs⟩, tree', envs'⟩ := call_quiet plain resolved reached asked
  have rooted : V.Rooted := Review.rooted_of_same (tree'.trans tree)
  have agrees (env : EnvId) (symbol : Symbol) :
      V.first.envs.agrees V.last.envs env symbol = true := by
    rw [show V.last.envs = s.envs from envs'.trans envs]
    exact EnvStore.agrees_iff.2 ⟨rfl, rfl, rfl⟩
  have timely : V.Timely := fun _ _ _ first ahead _ _ =>
    EnvStore.agrees_between first.envs ahead.envs (agrees _ _)
  have run (n : Nat) : V.run n = .upTo (S.memoizing true) n := confined_free _ _ _
  have hindsight := Review.run_hindsight (V := V) plain_ rooted timely
  simp only [run] at hindsight
  have keeps (calls : List MemoKey) (s : Session) :
      V.Keeps s (calls.foldl (fun u c => ((Machine.upTo (S.memoizing true) n).ask c u).2) s) := by
    induction calls generalizing s with
    | nil => exact Review.keeps_refl s
    | cons c rest ih =>
      have first := along_moves_iff.1 ((hindsight n).1.call c.entity c.prop c.args c.dynVars) s
      exact Review.keeps_trans first (ih _)
  have before := reached ▸ keeps calls s
  have after := along_moves_iff.1 ((hindsight m).1.call c.entity c.prop c.args c.dynVars) u
  rw [show (Machine.upTo (S.memoizing true) m).call _ _ _ _ u = _ from asked] at after
  have sound : V.Sound u := before.sound (Session.onward_refl s) after.onward fun key v known => by
    rw [unknown key] at known
    cases known
  refine ⟨sound, fun v ok => ?_⟩
  exact (Review.follows_at_hindsight.1 (((hindsight m).2 s t.depth).call c.entity c.prop c.args
    c.dynVars u)).2 v t (ok ▸ asked) before.onward before.onward sound (Session.onward_refl t)

omit unknown in
/-- What is given for good in the end of one call more is what evaluations without memory
give. -/
theorem answers_of_gives {t : Session}
    (asked : (Machine.upTo (S.memoizing true) m).ask c u = (r, t))
    (gives : ∀ fault, let V : Review := ⟨S.memoizing true, s, t, .free, fun _ _ => true, fault⟩
      V.Gives (fun k => (V.machine k).ask key) v t.depth) : S.Answers u key v := by
  have plain_ : (S.memoizing true).language.IsPlain := plain
  obtain ⟨⟨-, envs⟩, tree', envs'⟩ := call_quiet plain resolved reached asked
  rcases Review.evaluates_or_leaves _ plain_ gives with right | left
  · obtain ⟨k, ran⟩ := right.freely.exists
    have resolved_ : t.envs.AllResolved := envs'.trans envs ▸ resolved
    exact (answers_of_ask plain resolved_ ran tree'.symm envs'.symm).2
  · rw [lasting_free resolved (envs'.trans envs)] at left
    exact (not_leaves_free _ _ _ left).elim

/-- After any calls, what is remembered is what evaluations without memory give. -/
theorem remembered_answers (known : u.memo.done[key]? = some v) : S.Answers u key v := by
  rcases asked : (Machine.upTo (S.memoizing true) n).ask key u with ⟨r, t⟩
  exact answers_of_gives plain resolved reached asked fun fault =>
    (call_hindsight plain resolved unknown reached asked fault).1 key v known t.depth

/-- After any calls, what a further call gives is what evaluations without memory give. -/
theorem asked_answers {t : Session}
    (asked : (Machine.upTo (S.memoizing true) m).ask c u = (.ok v, t)) : S.Answers u c v :=
  answers_of_gives plain resolved reached asked fun fault =>
    (call_hindsight plain resolved unknown reached asked fault).2 v rfl

end Calls

/-- Switching memory on changes no result. After any sequence of calls that started with
nothing remembered, what a call gives without memory it gives with memory; and what it
gives with memory it gives without, unless calls then nest too deeply. -/
theorem memoization_transparent (plain : S.language.IsPlain) {s : Session}
    (resolved : s.envs.AllResolved) (unknown : ∀ key : MemoKey, s.memo.done[key]? = none)
    (idle : ∀ key, key ∉ s.memo.running) (calls : List MemoKey) (n : Nat) (c : MemoKey)
    (v : Value) :
    let u := calls.foldl (fun u c => ((Machine.upTo (S.memoizing true) n).ask c u).2) s
    (∀ m, ((Machine.upTo (S.memoizing false) m).ask c u).1 = .ok v →
      ∀ m' ≥ m, ((Machine.upTo (S.memoizing true) m').ask c u).1 = .ok v) ∧
    ∀ m, ((Machine.upTo (S.memoizing true) m).ask c u).1 = .ok v →
      ∀ᶠ m' in atTop, ((Machine.upTo (S.memoizing false) m').ask c u).1 = .ok v ∨
        ∃ e, e.fault = .depthExceeded S.config.maxCallDepth ∧
          ((Machine.upTo (S.memoizing false) m').ask c u).1 = .error (.failure e) := by
  intro u
  have plain_ : (S.memoizing true).language.IsPlain := plain
  obtain ⟨tree, envs⟩ := calls_quiet plain_ n calls s resolved
  have resolved_ : u.envs.AllResolved := envs ▸ resolved
  refine ⟨fun m ran m' le => ?_, fun m ran => ?_⟩
  · have none_ (key : MemoKey) : key ∉ u.memo.running := fun mem =>
      idle key (((calls_marks n calls s).keys key).1 mem)
    have recalls : S.Recalls u u.depth (fun _ => False) u :=
      ⟨rfl, rfl, rfl, fun key v known => remembered_answers plain resolved unknown rfl known,
        fun key => ⟨none_ key, False.elim⟩⟩
    rcases asked : (Machine.upTo (S.memoizing false) m).ask c u with ⟨r, t⟩
    obtain rfl : r = .ok v := (congrArg Prod.fst asked).symm.trans ran
    have followed := ((recall_follows plain resolved_ m u.depth u.depth _ m' (Nat.le_refl _)
      (fun key (no : False) => no.elim) le).call c.entity c.prop c.args c.dynVars u).2 u v t
      ⟨rfl, recalls⟩ asked trivial
    rcases followed with ⟨z, -, often⟩ | gaveUp
    · obtain ⟨_, answered⟩ := often.exists
      exact congrArg Prod.fst answered
    · obtain ⟨_, _, _, no, _⟩ := gaveUp.exists
      exact no.elim
  · rcases asked : (Machine.upTo (S.memoizing true) m).ask c u with ⟨r, t⟩
    obtain rfl : r = .ok v := (congrArg Prod.fst asked).symm.trans ran
    obtain ⟨k, answered⟩ := asked_answers plain resolved unknown rfl asked
    refine eventually_atTop.2 ⟨k, fun m' le => ?_⟩
    rw [← confined_free _ .exhausted] at answered
    rcases (confined_ask (· = .depthExceeded S.config.maxCallDepth) plain
      (settled_free resolved_) answered le (.inr rfl) rfl rfl).2 with ok | ⟨e, z, deep, failed⟩
    · exact .inl (congrArg Prod.fst ok)
    · exact .inr ⟨e, deep, congrArg Prod.fst failed⟩

/-- A property that asks another one, whose result is remembered, gives the same with
memory as without. -/
theorem memoization_transparent_of_call :
    let S := Setting.probing ⟨1⟩ ⟨1⟩ ⟨0⟩ #[] .standard
    let s : Session := .over (some ⟨⟨1⟩, ⟨1⟩⟩) (EnvStore.new.create none (some ⟨0⟩)).2
    let u := ((Machine.upTo (S.memoizing true) 3).ask (.first ⟨0⟩) s).2
    u.memo.done[MemoKey.first ⟨0⟩]? = some (.bool true) ∧
      ((Machine.upTo (S.memoizing false) 3).ask (.first ⟨1⟩) u).1 = .ok (.env (.plain ⟨0⟩)) ∧
      ((Machine.upTo (S.memoizing true) 3).ask (.first ⟨1⟩) u).1 = .ok (.env (.plain ⟨0⟩)) := by
  intro S s u
  have resolved : s.envs.AllResolved := fun env index reference held => by
    rw [show s.envs = (EnvStore.new.create none (some ⟨0⟩)).2 from rfl, EnvStore.reference?_create,
      EnvStore.reference?_new] at held
    cases held
  have bare : s.envs.newestFirst ⟨1⟩ ⟨1⟩ = [] :=
    Scope.newestFirst_opened none (some ⟨0⟩) ⟨1⟩
  have asked : (Machine.upTo (S.memoizing true) 3).ask (.first ⟨0⟩) s = _ :=
    ask_unbound_alone (n := 1) rfl rfl (.inr (by decide)) (by decide) rfl rfl rfl
      Std.HashMap.getElem?_empty Std.HashSet.not_mem_empty
  have there : u = _ := congrArg Prod.snd asked
  have left : (Machine.upTo (S.memoizing false) 3).ask (.first ⟨1⟩) u =
      (.ok (.env (.plain ⟨0⟩)), u) := by
    rw [there]
    exact ask_target_alone_anew (n := 0) rfl rfl (.inr (by decide)) (by decide) rfl rfl
      (.inr (by decide)) rfl
  have same := memoization_transparent (S := S) plain_probing resolved
    (fun _ => Std.HashMap.getElem?_empty) (fun _ => Std.HashSet.not_mem_empty) [.first ⟨0⟩] 3
    (.first ⟨1⟩) (.env (.plain ⟨0⟩))
  refine ⟨?_, congrArg Prod.fst left, same.1 3 (congrArg Prod.fst left) 3 (Nat.le_refl 3)⟩
  rw [there, bare]
  exact Std.HashMap.getElem?_insert_self

end Trellis
