import Mathlib.Order.Filter.AtTopBot.Basic
import Trellis.Proofs.Session.Calls
import Trellis.Proofs.Session.Growth
import Trellis.Session.Lookup

/-! Comparing what two sessions compute. Expressions only look at nodes, and leave
everything else to the machine. So what one machine computes is computed by others
that answer the same questions in the same way, once they may nest deeply enough;
they can also give up for a reason that is allowed. -/
namespace Trellis

open Filter

/-- How the runs of one session, on the left, are compared with runs of others. -/
structure Pairing where
  paired : Session → Session → Prop
  /-- Where a run on the left can lead. -/
  course : Session → Session → Prop
  /-- The sessions on the left that lie before the end. -/
  ahead : Session → Prop
  /-- The faults for which a run on the right may give up. -/
  excused : Fault → Prop
  course_refl : ∀ s, course s s
  course_trans : ∀ {r s t}, course r s → course s t → course r t
  ahead_back : ∀ {s t}, course s t → ahead t → ahead s
  /-- Nodes on the left look the same on the right, where they may be populated
  already. -/
  nodes : ∀ {u w n a}, paired u w → ahead u → u.tree.node? n = some a →
    ∃ b, w.tree.node? n = some b ∧ a.Later b ∧ b.parent = a.parent

variable {K : Pairing}

/-- The runs from a session give up in the end. -/
def Excused (K : Pairing) (acts : ℕ → EvalM α) (w : Session) : Prop :=
  ∀ᶠ k in atTop, ∃ e z, K.excused e.fault ∧ acts k w = (.error (.failure e), z)

/-- What an operation gives on the left when it starts from `u`, the others give in
the end from every session paired with it, unless they give up. -/
def SessionM.FollowsAt (K : Pairing) (act : EvalM α) (acts : ℕ → EvalM α) (u : Session) : Prop :=
  K.course u (act u).2 ∧ ∀ w x v, K.paired u w → act u = (.ok x, v) → K.ahead v →
    (∃ z, K.paired v z ∧ ∀ᶠ k in atTop, acts k w = (.ok x, z)) ∨ Excused K acts w

/-- The same wherever the operation starts. -/
def SessionM.Follows (K : Pairing) (act : EvalM α) (acts : ℕ → EvalM α) : Prop :=
  ∀ u, FollowsAt K act acts u

namespace SessionM

theorem run_error {act : EvalM α} {next : α → EvalM β}
    (failed : act s = (.error halt, t)) : (act >>= next) s = (.error halt, t) := by
  rw [run_bind, failed]

theorem run_ok {act : EvalM α} {next : α → EvalM β} (ran : act s = (.ok x, t)) :
    (act >>= next) s = next x t := by
  rw [run_bind, ran]

theorem excused_bind {acts : ℕ → EvalM α} {nexts : ℕ → α → EvalM β} (excused : Excused K acts w) :
    Excused K (fun k => acts k >>= nexts k) w :=
  excused.mono fun _ ⟨e, z, allowed, failed⟩ => ⟨e, z, allowed, run_error failed⟩

/-- Where the first operation succeeds in the end, so do both if the second does. -/
theorem excused_after {acts : ℕ → EvalM α} {nexts : ℕ → α → EvalM β}
    (first : ∀ᶠ k in atTop, acts k w = (.ok x, z)) (excused : Excused K (nexts · x) z) :
    Excused K (fun k => acts k >>= nexts k) w := by
  filter_upwards [first, excused] with k ran ⟨e, y, allowed, failed⟩
  exact ⟨e, y, allowed, (run_ok ran).trans failed⟩

theorem eventually_succ {p : ℕ → Prop} : (∀ᶠ k in atTop, p (k + 1)) ↔ ∀ᶠ k in atTop, p k := by
  conv_rhs => rw [← map_add_atTop_eq_nat 1]
  rfl

/-- Runs can be compared from the second on. -/
theorem follows_of_succ {act : EvalM α} {acts : ℕ → EvalM α}
    (later : FollowsAt K act (fun k => acts (k + 1)) u) : FollowsAt K act acts u := by
  refine ⟨later.1, fun w x v paired ran ahead => ?_⟩
  rcases later.2 w x v paired ran ahead with ⟨z, paired, reached⟩ | excused
  · exact .inl ⟨z, paired, eventually_succ.1 reached⟩
  · exact .inr (eventually_succ.1 excused)

theorem follows_pure (x : α) : Follows K (pure x) (fun _ => pure x) := by
  refine fun u => ⟨K.course_refl u, fun w y v paired ran _ => .inl ?_⟩
  cases ran
  exact ⟨w, paired, .of_forall fun _ => rfl⟩

/-- An operation that fails need not be followed. -/
theorem follows_refused {act : EvalM α} {acts : ℕ → EvalM α}
    (refused : ∀ s, ∃ halt, act s = (.error halt, s)) : Follows K act acts := by
  intro u
  obtain ⟨halt, failed⟩ := refused u
  refine ⟨by rw [failed]; exact K.course_refl u, fun w x v _ ran => ?_⟩
  rw [failed] at ran
  cases ran

theorem follows_fail (e : PropertyError) {acts : ℕ → EvalM α} :
    Follows K (SessionM.fail e) acts :=
  follows_refused fun _ => ⟨_, rfl⟩

theorem follows_read {f : Session → α} (same : ∀ u w, K.paired u w → K.ahead u → f w = f u) :
    Follows K (read f) (fun _ => read f) := by
  refine fun u => ⟨K.course_refl u, fun w x v paired ran ahead => .inl ?_⟩
  cases ran
  exact ⟨w, paired, .of_forall fun _ => by rw [← same u w paired ahead]; rfl⟩

theorem follows_bind {act : EvalM α} {acts : ℕ → EvalM α} {next : α → EvalM β}
    {nexts : ℕ → α → EvalM β} (first : Follows K act acts)
    (rest : ∀ x, Follows K (next x) (nexts · x)) :
    Follows K (act >>= next) (fun k => acts k >>= nexts k) := by
  intro u
  obtain ⟨there, followed⟩ := first u
  unfold FollowsAt
  rw [run_bind]
  rcases ran : act u with ⟨halt | x, v⟩
  · rw [ran] at there
    exact ⟨there, fun w y z _ ok => nomatch ok⟩
  · rw [ran] at there
    obtain ⟨further, continued⟩ := rest x v
    refine ⟨K.course_trans there further, fun w y t paired ok ahead => ?_⟩
    dsimp only at ok
    have before : K.ahead v := by
      rw [ok] at further
      exact K.ahead_back further ahead
    rcases followed w x v paired ran before with ⟨z, paired, reached⟩ | excused
    · rcases continued z y t paired ok ahead with ⟨end_, paired, finished⟩ | excused
      · refine .inl ⟨end_, paired, ?_⟩
        filter_upwards [reached, finished] with k ran ok
        exact (run_ok ran).trans ok
      · exact .inr (excused_after reached excused)
    · exact .inr (excused_bind excused)

/-- A node is looked up for what never changes about it. -/
theorem follows_node {n : NodeId} {next : Node → EvalM α} {nexts : ℕ → Node → EvalM α}
    (alike : ∀ k a b, a.Later b → b.parent = a.parent → nexts k b = nexts k a)
    (rest : ∀ a, Follows K (next a) (nexts · a)) :
    Follows K (EvalM.node n >>= next) (fun k => EvalM.node n >>= nexts k) := by
  intro u
  unfold FollowsAt
  rw [run_bind, EvalM.node_eq]
  cases held : u.tree.node? n with
  | none => exact ⟨K.course_refl u, fun w y z _ ok => nomatch ok⟩
  | some a =>
    obtain ⟨course, followed⟩ := rest a u
    refine ⟨course, fun w x v paired ran ahead => ?_⟩
    dsimp only at ran
    have before : K.ahead u := by
      rw [ran] at course
      exact K.ahead_back course ahead
    obtain ⟨b, there, later, parent⟩ := K.nodes paired before held
    have eq (k : ℕ) : (EvalM.node n >>= nexts k) w = nexts k a w := by
      rw [run_bind, EvalM.node_eq, there]
      exact congrFun (alike k a b later parent) w
    simpa only [Excused, eq] using followed w x v paired ran ahead

theorem follows_map_error {act : EvalM α} {acts : ℕ → EvalM α} (n : NodeId) (p : PropId)
    (inside : FollowsAt K act acts u) : FollowsAt K (act.mapError (·.claimedBy n p))
      (fun k => (acts k).mapError (·.claimedBy n p)) u := by
  obtain ⟨course, followed⟩ := inside
  refine ⟨by rw [map_error_state]; exact course, fun w x v paired ran ahead => ?_⟩
  rcases followed w x v paired (map_error_ok ran) ahead with ⟨z, paired, reached⟩ | excused
  · exact .inl ⟨z, paired, reached.mono fun k ran => map_error_of_ok ran⟩
  · exact .inr (excused.mono fun k ⟨e, z, allowed, failed⟩ =>
      ⟨e.claimedBy n p, z, allowed, map_error_of_failure failed⟩)

end SessionM

namespace FrameM
open SessionM

/-- An evaluation together with the frame it leaves. -/
def out (act : FrameM α) (f : Frame) : EvalM (α × Frame) := fun s =>
  match act f s with
  | ((.ok x, g), t) => (.ok (x, g), t)
  | ((.error halt, _), t) => (.error halt, t)

theorem out_bind (act : FrameM α) (next : α → FrameM β) (f : Frame) :
    (act >>= next).out f = act.out f >>= fun p => (next p.1).out p.2 := by
  funext s
  rw [SessionM.run_bind]
  unfold out
  rw [run_bind]
  rcases act f s with ⟨⟨halt | x, g⟩, t⟩ <;> rfl

theorem out_session (act : EvalM α) (f : Frame) :
    (session act).out f = act >>= fun x => pure (x, f) := by
  funext s
  rw [SessionM.run_bind]
  unfold out session
  rcases act s with ⟨halt | x, t⟩ <;> rfl

theorem out_with_dyn_var (var : DynVarId) (value : Value) (act : FrameM α) (f : Frame) :
    (withDynVar var value act).out f =
      act.out { f with dynVars := f.dynVars.set var value } >>= fun p =>
        pure (p.1, { p.2 with dynVars := f.dynVars }) := by
  funext s
  rw [SessionM.run_bind]
  unfold out withDynVar
  rcases act { f with dynVars := f.dynVars.set var value } s with ⟨⟨halt | x, g⟩, t⟩ <;> rfl

theorem run_in_eq (f : Frame) (act : FrameM α) :
    runIn f act = act.out f >>= fun p => pure p.1 := by
  funext s
  rw [SessionM.run_bind]
  unfold out runIn
  rcases act f s with ⟨⟨halt | x, g⟩, t⟩ <;> rfl

/-- The same in whatever frame the evaluation runs. -/
def Follows (K : Pairing) (act : FrameM α) (acts : ℕ → FrameM α) : Prop :=
  ∀ f, SessionM.Follows K (act.out f) (fun k => (acts k).out f)

theorem follows_pure (x : α) : Follows K (pure x) (fun _ => pure x) :=
  fun f => SessionM.follows_pure (x, f)

theorem follows_fail (fault : Fault) {acts : ℕ → FrameM α} :
    Follows K (FrameM.fail fault) acts :=
  fun _ => follows_refused fun _ => ⟨_, rfl⟩

theorem follows_mismatch (expected : String) (found : Value) {acts : ℕ → FrameM α} :
    Follows K (mismatch expected found) acts := follows_fail _

theorem follows_read (g : Frame → α) : Follows K (FrameM.read g) (fun _ => FrameM.read g) :=
  fun f => SessionM.follows_pure (g f, f)

theorem follows_set_local (slot : Nat) (value : Value) :
    Follows K (setLocal slot value) (fun _ => setLocal slot value) :=
  fun f => SessionM.follows_pure ((), f.set slot value)

theorem follows_bind {act : FrameM α} {acts : ℕ → FrameM α} {next : α → FrameM β}
    {nexts : ℕ → α → FrameM β} (first : Follows K act acts)
    (rest : ∀ x, Follows K (next x) (nexts · x)) :
    Follows K (act >>= next) (fun k => acts k >>= nexts k) := by
  intro f
  simp only [out_bind]
  exact SessionM.follows_bind (first f) fun p => rest p.1 p.2

theorem follows_session {act : EvalM α} {acts : ℕ → EvalM α}
    (inside : SessionM.Follows K act acts) :
    Follows K (session act) (fun k => session (acts k)) := by
  intro f
  simp only [out_session]
  exact SessionM.follows_bind inside fun x => SessionM.follows_pure (x, f)

theorem follows_with_dyn_var {act : FrameM α} {acts : ℕ → FrameM α} (var : DynVarId) (value : Value)
    (inside : Follows K act acts) :
    Follows K (withDynVar var value act) (fun k => withDynVar var value (acts k)) := by
  intro f
  simp only [out_with_dyn_var]
  exact SessionM.follows_bind (inside _) fun p => SessionM.follows_pure _

theorem follows_run_in {act : FrameM α} {acts : ℕ → FrameM α} (f : Frame)
    (inside : Follows K act acts) :
    SessionM.Follows K (runIn f act) (fun k => runIn f (acts k)) := by
  simp only [run_in_eq]
  exact SessionM.follows_bind (inside f) fun p => SessionM.follows_pure _

theorem follows_node {n : NodeId} {next : Node → FrameM α} {nexts : ℕ → Node → FrameM α}
    (alike : ∀ k a b, a.Later b → b.parent = a.parent → nexts k b = nexts k a)
    (rest : ∀ a, Follows K (next a) (nexts · a)) :
    Follows K (FrameM.node n >>= next) (fun k => FrameM.node n >>= nexts k) := by
  intro f
  have eq (next : Node → FrameM α) :
      (FrameM.node n >>= next).out f = EvalM.node n >>= fun a => (next a).out f := by
    rw [FrameM.node, out_bind, out_session, bind_assoc]
    rfl
  simp only [eq]
  exact SessionM.follows_node (fun k a b later parent => by rw [alike k a b later parent])
    fun a => rest a f

theorem follows_map {act : α → FrameM β} {acts : ℕ → α → FrameM β}
    (each : ∀ x, Follows K (act x) (acts · x)) (xs : List α) :
    Follows K (xs.mapM act) (fun k => xs.mapM (acts k)) := by
  induction xs with
  | nil => exact follows_pure _
  | cons x xs ih =>
    simp only [List.mapM_cons]
    exact follows_bind (each x) fun _ => follows_bind ih fun _ => follows_pure _

end FrameM

/-! ## Machines -/

/-- A reference that is there on the right is there on the left. -/
def Pairing.Present (K : Pairing) (env : EnvId) (index : Nat) : Prop :=
  ∀ {u w}, K.paired u w → K.ahead u → u.envs.reference? env index = none →
    w.envs.reference? env index = none

/-- What one machine answers is answered by the others in the end. -/
structure Machine.Follows (K : Pairing) (m : Machine) (ms : ℕ → Machine) : Prop where
  call : ∀ entity prop args dynVars, SessionM.Follows K (m.call entity prop args dynVars)
    (fun k => (ms k).call entity prop args dynVars)
  search : ∀ q view visiting found, SessionM.Follows K (m.search q view visiting found)
    (fun k => (ms k).search q view visiting found)
  resolve : ∀ env index, K.Present env index →
    SessionM.Follows K (m.resolve env index) (fun k => (ms k).resolve env index)

variable {K : Pairing} {m : Machine} {ms : ℕ → Machine}

theorem machine_follows_exhausted : Machine.exhausted.Follows K ms where
  call _ _ _ _ := SessionM.follows_refused fun _ => ⟨_, rfl⟩
  search _ _ _ _ := SessionM.follows_refused fun _ => ⟨_, rfl⟩
  resolve _ _ _ := SessionM.follows_refused fun _ => ⟨_, rfl⟩

theorem Machine.Follows.lookup_first (machine : m.Follows K ms) (env : EnvValue) (symbol : Symbol)
    (require : Metadata) : SessionM.Follows K (m.lookupFirst env symbol require)
      (fun k => (ms k).lookupFirst env symbol require) :=
  SessionM.follows_bind (machine.search _ _ _ _) fun _ => SessionM.follows_pure _

/-- A search for a symbol finds the same in an environment on both sides, and is led
on to the same environments. -/
structure Pairing.Alike (K : Pairing) (env : EnvId) (symbol : Symbol) : Prop where
  bindings : ∀ {u w}, K.paired u w → K.ahead u →
    w.envs.newestFirst env symbol = u.envs.newestFirst env symbol
  count : ∀ {u w}, K.paired u w → K.ahead u →
    (w.envs.references env).size = (u.envs.references env).size
  crossing : ∀ {u w}, K.paired u w → K.ahead u → ∀ i,
    (w.envs.reference? env i).map (·.crossing) = (u.envs.reference? env i).map (·.crossing)
  parent : ∀ {u w}, K.paired u w → K.ahead u → w.envs.parent env = u.envs.parent env

theorem Pairing.Alike.present {symbol : Symbol} (alike : K.Alike env symbol) (index : Nat) :
    K.Present env index := by
  intro u w paired ahead absent
  have same := alike.crossing paired ahead index
  rwa [absent, Option.map_none, Option.map_eq_none_iff] at same

namespace EvalM
open SessionM

/-- Of a reference that was resolved only the crossing is looked at. -/
theorem search_references_eq (m : Machine) (q : LookupQuery) (view : EnvValue) (env : EnvId)
    (visiting : List EnvId) (count i : Nat) (found : Array Entity) :
    searchReferences m q view env visiting (count + 1) i found = (do
      let referenced ← m.resolve env i
      match ← SessionM.read fun s => (s.envs.reference? env i).map (·.crossing) with
      | none => searchReferences m q view env visiting count (i + 1) found
      | some crossing => do
        let found ← m.search q (view.cross crossing referenced) visiting found
        if q.done found then return found
        searchReferences m q view env visiting count (i + 1) found) := by
  rw [searchReferences]
  congr 1
  funext referenced s
  rw [run_bind, run_bind, run_read, run_read]
  cases s.envs.reference? env i <;> rfl

theorem search_references_follows (machine : m.Follows K ms) {q : LookupQuery} {env : EnvId}
    (alike : K.Alike env q.symbol) (view : EnvValue) (visiting : List EnvId) (count i : Nat)
    (found : Array Entity) :
    Follows K (searchReferences m q view env visiting count i found)
      (fun k => searchReferences (ms k) q view env visiting count i found) := by
  induction count generalizing i found with
  | zero => exact follows_pure _
  | succ count ih =>
    simp only [search_references_eq]
    refine follows_bind (machine.resolve env i (alike.present i)) fun referenced => ?_
    refine follows_bind (follows_read fun u w paired ahead => alike.crossing paired ahead i)
      fun c => ?_
    cases c with
    | none => exact ih _ _
    | some crossing =>
      refine follows_bind (machine.search _ _ _ _) fun found => ?_
      cases q.done found with
      | true => exact follows_pure _
      | false => exact ih _ _

theorem search_with_follows (machine : m.Follows K ms) {q : LookupQuery} {view : EnvValue}
    (alike : K.Alike (view.rebindings.standIn view.env) q.symbol) (visiting : List EnvId)
    (found : Array Entity) : Follows K (searchWith m q view visiting found)
      (fun k => searchWith (ms k) q view visiting found) := by
  unfold searchWith
  dsimp only
  split
  · exact follows_pure _
  · refine follows_bind (follows_read fun u w paired ahead => ?_) fun direct => ?_
    · unfold EnvStore.direct
      rw [alike.bindings paired ahead]
    · split
      · exact follows_pure _
      · refine follows_bind (follows_read fun u w paired ahead => alike.count paired ahead)
          fun count => ?_
        refine follows_bind (search_references_follows machine alike _ _ _ _ _) fun found => ?_
        split
        · exact follows_pure _
        · refine follows_bind (follows_read fun u w paired ahead => alike.parent paired ahead)
            fun parent => ?_
          cases parent with
          | some parent => exact machine.search _ _ _ _
          | none => exact follows_pure _

end EvalM

end Trellis
