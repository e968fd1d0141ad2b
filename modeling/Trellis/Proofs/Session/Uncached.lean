import Trellis.Proofs.Session.Answering
import Trellis.Proofs.Session.Operations

/-! Evaluation without memory, which is the meaning that remembered results are held
against. It is given here with a confinement: some symbols may not be looked up in
some environments, and some references may not be resolved; what tries to, is stopped.
As long as the references that may be resolved have been, such an evaluation changes
nothing. Its answers do not depend on the confinement, nor on how deep calls may
nest. -/
namespace Trellis

/-- The setting in which nothing is remembered, with a limit on the depth of calls. -/
def Setting.uncached (S : Setting) (limit : Nat) : Setting :=
  { S with config := { S.config with memoize := false, maxCallDepth := limit } }

/-- What may be looked at, as the environments stand. -/
structure Confinement where
  search : EnvStore → EnvId → Symbol → Bool
  resolve : EnvStore → EnvId → Nat → Bool

/-- Everything may be looked at. -/
def Confinement.free : Confinement := ⟨fun _ _ _ => true, fun _ _ _ => true⟩

/-- Do something where it may be done, and stop elsewhere. -/
def SessionM.confine (may : EnvStore → Bool) (halt : Interrupt ε) (act : SessionM ε α) :
    SessionM ε α := fun s => if may s.envs then act s else (.error halt, s)

theorem SessionM.follows_confine {K : Pairing} {act : EvalM α} {acts : ℕ → EvalM α}
    {may : EnvStore → Bool} {halt : Interrupt PropertyError} (inside : Follows K act acts) :
    Follows K (act.confine may halt) acts := by
  intro u
  unfold FollowsAt confine
  split
  · exact inside u
  · exact ⟨K.course_refl u, fun w x v _ ran => nomatch ran⟩

theorem SessionM.moves_confine {R : History → History → Prop} [Track R] {act : SessionM ε α}
    (may : EnvStore → Bool) (halt : Interrupt ε) (inside : Moves R act) :
    Moves R (act.confine may halt) := by
  intro h
  unfold confine
  split
  · exact inside h
  · exact ⟨h.populated, Track.refl h⟩

/-- A machine that stops where the confinement forbids it to go on. -/
def Machine.within (C : Confinement) (halt : Interrupt PropertyError) (m : Machine) : Machine where
  call := m.call
  search q view visiting found :=
    (m.search q view visiting found).confine
      (C.search · (view.rebindings.standIn view.env) q.symbol) halt
  resolve env index := (m.resolve env index).confine (C.resolve · env index) halt

/-- The machine that follows activities nested up to a depth, confined throughout. -/
def Machine.confined (S : Setting) (C : Confinement) (halt : Interrupt PropertyError) :
    (depth : Nat) → Machine
  | 0 => .exhausted
  | n + 1 => .within C halt
    ⟨EvalM.callWith S (.confined S C halt n), EvalM.searchWith (.confined S C halt n),
      EvalM.resolveWith S (.confined S C halt n)⟩

theorem up_to_succ (S : Setting) (n : Nat) : Machine.upTo S (n + 1) =
    ⟨EvalM.callWith S (.upTo S n), EvalM.searchWith (.upTo S n), EvalM.resolveWith S (.upTo S n)⟩ :=
  rfl

/-- Where everything may be looked at, the machine is the usual one. -/
theorem confined_free (S : Setting) (halt : Interrupt PropertyError) (n : Nat) :
    Machine.confined S .free halt n = .upTo S n := by
  induction n with
  | zero => rfl
  | succ n ih =>
    rw [Machine.confined, ih, up_to_succ]
    rfl

/-- Every reference that may be resolved has been. -/
def Confinement.Settled (C : Confinement) (s : Session) : Prop :=
  ∀ env index reference, C.resolve s.envs env index = true →
    s.envs.reference? env index = some reference → ∃ value, reference.state = .resolved value

/-- Two sessions that differ at most in the depth of calls. On the left everything that
is looked at is settled, and nothing changes. -/
def Pairing.still (C : Confinement) (excused : Fault → Prop) (l r : Session) : Pairing where
  paired u w := u = l ∧ w = r ∧ w.tree = u.tree ∧ w.envs = u.envs
  course u v := C.Settled u → v = u
  ahead _ := True
  excused := excused
  course_refl _ _ := rfl
  course_trans first rest settled := by
    have eq := first settled
    exact (rest (eq ▸ settled)).trans eq
  ahead_back _ _ := trivial
  nodes paired _ held := by
    obtain ⟨-, -, tree, -⟩ := paired
    exact ⟨_, by rw [tree]; exact held, Node.later_refl _, rfl⟩

/-- Ask a machine for what is remembered under a key. -/
def Machine.ask (m : Machine) (key : MemoKey) : EvalM Value :=
  m.call key.entity key.prop key.args key.dynVars

namespace EvalM
open SessionM

variable {S S' : Setting} {C : Confinement} {halt : Interrupt PropertyError}
  {excused : Fault → Prop} {l r : Session} {m : Machine} {ms : ℕ → Machine}

/-- A reference that may be resolved is read off the session. -/
theorem resolve_with_settled {env : EnvId} {index : Nat} (settled : C.Settled l)
    (allowed : C.resolve l.envs env index = true) :
    ∃ value, ∀ (S : Setting) (m : Machine) (s : Session), s.envs = l.envs →
      resolveWith S m env index s = (.ok value, s) := by
  cases held : l.envs.reference? env index with
  | none => exact ⟨.empty, fun S m s same => by rw [resolve_with_eq, same, held]⟩
  | some reference =>
    obtain ⟨value, state⟩ := settled env index reference allowed held
    exact ⟨value, fun S m s same => by rw [resolve_with_eq, same, held]; simp only [state]⟩

theorem resolve_follows_still (settled : C.Settled l) (env : EnvId) (index : Nat) :
    Follows (.still C excused l r)
      ((resolveWith S m env index).confine (C.resolve · env index) halt)
      (fun k => resolveWith S' (ms k) env index) := by
  intro u
  unfold FollowsAt confine
  split
  · next allowed =>
    refine ⟨fun settled => ?_, fun w x v paired ran _ => .inl ?_⟩
    · obtain ⟨value, eq⟩ := resolve_with_settled settled allowed
      rw [eq S m u rfl]
    · obtain ⟨rfl, rfl, tree, envs⟩ := paired
      obtain ⟨value, eq⟩ := resolve_with_settled settled allowed
      rw [eq S m u rfl] at ran
      cases ran
      exact ⟨w, ⟨rfl, rfl, tree, envs⟩, .of_forall fun k => eq S' (ms k) w envs⟩
  · exact ⟨fun _ => rfl, fun w x v _ ran => nomatch ran⟩

theorem alike_still (env : EnvId) (symbol : Symbol) :
    (Pairing.still C excused l r).Alike env symbol where
  bindings paired _ := by rw [paired.2.2.2]
  count paired _ := by rw [paired.2.2.2]
  crossing paired _ _ := by rw [paired.2.2.2]
  parent paired _ := by rw [paired.2.2.2]

theorem nests_still {limit limit' : Nat}
    (limits : (limit' = 0 ∨ limit' = limit ∧ r.depth ≤ l.depth) ∨ excused (.depthExceeded limit')) :
    (Pairing.still C excused l r).Nests (.still C excused l.deeper r.deeper) limit limit' where
  course same settled := by rw [same settled]; rfl
  ahead _ := trivial
  enter := fun ⟨left, right, tree, envs⟩ => ⟨congrArg _ left, congrArg _ right, tree, envs⟩
  leave := fun ⟨left, right, tree, envs⟩ => ⟨by rw [left]; rfl, by rw [right]; rfl, tree, envs⟩
  excused allowed := allowed
  limit := by
    rintro u w ⟨rfl, rfl, -, -⟩ within deep
    refine limits.resolve_left fun wide => ?_
    unfold Session.Within at within deep
    omega

theorem answer_uncached (limit : Nat) (kind : KindId) (info : PropertyInfo) (key : MemoKey) :
    answer (S.uncached limit) m kind info index key =
      compute (S.uncached limit) m kind info index key := rfl

/-- Answers without memory stay the same when nothing confines the evaluation any more,
more nesting is followed and the limit on calls is wider; where it is not, they can fail
for that. -/
theorem confined_follows (plain : S.language.IsPlain) (halt : Interrupt PropertyError)
    {limit limit' n n' : Nat} (le : n ≤ n') (settled : C.Settled l)
    (limits : (limit' = 0 ∨ limit' = limit ∧ r.depth ≤ l.depth) ∨ excused (.depthExceeded limit')) :
    (Machine.confined (S.uncached limit) C halt n).Follows (.still C excused l r)
      (fun _ => .upTo (S.uncached limit') n') := by
  induction n generalizing n' l r with
  | zero => exact machine_follows_exhausted
  | succ n ih =>
    obtain ⟨n', rfl⟩ : ∃ k, n' = k + 1 := ⟨n' - 1, by omega⟩
    have within : n ≤ n' := by omega
    have here := ih within settled limits
    have below := ih (l := l.deeper) (r := r.deeper) within settled
      (limits.imp_left (Or.imp_right fun ⟨same, le⟩ => ⟨same, Nat.succ_le_succ le⟩))
    rw [Machine.confined, up_to_succ]
    refine ⟨fun entity prop args dynVars => ?_, fun q view visiting found => ?_,
      fun env index _ => ?_⟩
    · have same : (S.uncached limit').language = (S.uncached limit).language := rfl
      refine call_with_follows same ?_ entity prop args dynVars
      intro u key dynVars node info index _
      simp only [answer_uncached]
      have plain : (S.uncached limit).language.IsPlain := plain
      exact compute_follows _ same (nests_still limits) (body_of_follows plain same below _ _ _) u
    · exact follows_confine (search_with_follows here (alike_still _ _) visiting found)
    · exact resolve_follows_still settled env index

/-- An answer without memory changes nothing, and is given again by any evaluation
without memory that may go as deep, unless it fails for what is excused. -/
theorem confined_ask (excused : Fault → Prop) (plain : S.language.IsPlain) {limit limit' n n' : Nat}
    {key : MemoKey} (settled : C.Settled l)
    (ran : (Machine.confined (S.uncached limit) C halt n).ask key l = (.ok v, t)) (le : n ≤ n')
    (limits : (limit' = 0 ∨ limit' = limit ∧ r.depth ≤ l.depth) ∨ excused (.depthExceeded limit'))
    (tree : r.tree = l.tree) (envs : r.envs = l.envs) :
    t = l ∧ ((Machine.upTo (S.uncached limit') n').ask key r = (.ok v, r) ∨
      ∃ e z, excused e.fault ∧
        (Machine.upTo (S.uncached limit') n').ask key r = (.error (.failure e), z)) := by
  obtain ⟨course, followed⟩ := (confined_follows plain halt le settled limits).call key.entity
    key.prop key.args key.dynVars l
  change (Machine.confined (S.uncached limit) C halt n).call _ _ _ _ l = _ at ran
  rw [ran] at course
  refine ⟨course settled, ?_⟩
  rcases followed r v t ⟨rfl, rfl, tree, envs⟩ ran trivial with
    ⟨z, ⟨-, rfl, -, -⟩, answered⟩ | gaveUp
  · exact .inl answered.exists.choose_spec
  · exact .inr gaveUp.exists.choose_spec

/-- The same where nothing is excused. -/
theorem confined_ask_ok (plain : S.language.IsPlain) {limit limit' n n' : Nat} {key : MemoKey}
    (settled : C.Settled l)
    (ran : (Machine.confined (S.uncached limit) C halt n).ask key l = (.ok v, t)) (le : n ≤ n')
    (limits : limit' = 0 ∨ limit' = limit ∧ r.depth ≤ l.depth) (tree : r.tree = l.tree)
    (envs : r.envs = l.envs) :
    t = l ∧ (Machine.upTo (S.uncached limit') n').ask key r = (.ok v, r) := by
  obtain ⟨same, answered | ⟨e, z, no, -⟩⟩ :=
    confined_ask (fun _ => False) plain settled ran le (.inl limits) tree envs
  · exact ⟨same, answered⟩
  · exact no.elim

end EvalM
end Trellis
