import Trellis.Proofs.Session.Hindsight
import Trellis.Proofs.Session.Probing

/-! Whether what a session remembers is right. A result is held against an evaluation
without memory in the session as it is now. It can be wrong for two reasons only: what
it was computed from was looked up before it was there, or a reference was taken for
empty because it depended on itself. -/
namespace Trellis

open Filter

/-- What an evaluation without memory comes to: the value, and with the limit that is
set to the depth of calls nothing else but that limit can stand in the way. -/
structure Setting.Evaluates (S : Setting) (s : Session) (key : MemoKey) (value : Value) : Prop where
  freely : ∀ᶠ n in atTop, (Machine.upTo (S.uncached 0) n).ask key s = (.ok value, s)
  limited : ∀ᶠ n in atTop,
    (Machine.upTo (S.uncached S.config.maxCallDepth) n).ask key s = (.ok value, s) ∨
      ∃ e t, e.fault = .depthExceeded S.config.maxCallDepth ∧
        (Machine.upTo (S.uncached S.config.maxCallDepth) n).ask key s = (.error (.failure e), t)

/-- An evaluation without memory comes to look at something that the confinement does not
allow: it fails by whatever fault stands for that. -/
def Setting.Leaves (S : Setting) (C : Confinement) (s : Session) (key : MemoKey) : Prop :=
  ∀ fault, ∀ᶠ n in atTop, ∃ e t, e.fault = fault ∧
    (Machine.confined (S.uncached 0) C (.failure (.of fault)) n).ask key s =
      (.error (.failure e), t)

/-- What nothing stands in the way of is not left. -/
theorem not_leaves_free (S : Setting) (s : Session) (key : MemoKey) : ¬ S.Leaves .free s key := by
  intro leaves
  obtain ⟨n, ⟨e, t, same, ran⟩, e', t', same', ran'⟩ :=
    ((leaves .overflow).and (leaves .nullReceiver)).exists
  rw [confined_free] at ran ran'
  cases ran.symm.trans ran'
  cases same.symm.trans same'

namespace Review
open SessionM EvalM

/-- What is confirmed is right, or an evaluation comes to something that did not last. -/
theorem evaluates_or_leaves {S : Setting} {first last : Session} (watch : Confinement)
    {search : EnvId → Symbol → Bool} (plain : S.language.IsPlain)
    (gives : ∀ fault, let V : Review := ⟨S, first, last, watch, search, fault⟩
      V.Gives (fun k => (V.machine k).ask key) value last.depth) :
    S.Evaluates last key value ∨ S.Leaves (.lasting first last search) last key := by
  refine or_iff_not_imp_left.2 fun wrong fault => ?_
  refine (gives fault).resolve_left fun reached => wrong ?_
  have settled := settled_lasting first last search
  exact
    { freely := reached.mono fun k ran =>
        (confined_ask_ok plain settled ran (Nat.le_refl k) (.inl rfl) rfl rfl).2
      limited := reached.mono fun k ran =>
        (confined_ask (· = .depthExceeded S.config.maxCallDepth) plain settled ran
          (Nat.le_refl k) (.inr rfl) rfl rfl).2 }

end Review

/-- Whatever is asked of a session that remembers nothing, everything that it remembers
afterwards is right, except where an evaluation looks up a symbol in an environment that
has changed, or asks for a reference that is not resolved or was found to depend on
itself. -/
theorem remembered_unless_recovered {S : Setting} (plain : S.language.IsPlain) {s : Session}
    (tidy : s.Tidy) (unknown : ∀ key : MemoKey, s.memo.done[key]? = none) (rs : List Request)
    (n : Nat) :
    let t := rs.foldl (fun u r => (EvalM.perform S (.upTo S n) r u).2) s
    ∀ key value, t.memo.done[key]? = some value →
      S.Evaluates t key value ∨ S.Leaves (.lasting s t (s.envs.agrees t.envs)) t key := by
  intro t key value held
  refine Review.evaluates_or_leaves .free plain fun fault => ?_
  let V : Review := ⟨S, s, t, .free, s.envs.agrees t.envs, fault⟩
  have timely : V.Timely := fun u env symbol first ahead _ agrees =>
    EnvStore.agrees_between first.envs ahead.envs agrees
  have moves : (Machine.upTo S n).Moves (Along V.Keeps) := by
    rw [← confined_free S .exhausted n]
    exact (Review.run_hindsight (V := V) plain (Review.rooted_of_tidy tidy) timely n).1
  have keeps (rs : List Request) (u : Session) :
      V.Keeps u (rs.foldl (fun u r => (EvalM.perform S (.upTo S n) r u).2) u) := by
    induction rs generalizing u with
    | nil => exact Review.keeps_refl u
    | cons r rest ih =>
      exact Review.keeps_trans (along_moves_iff.1 (EvalM.perform_moves (S := S) moves r) u) (ih _)
  refine (keeps rs s).sound (Session.onward_refl s) (Session.onward_refl t) ?_ key value held
    t.depth
  intro key value known
  rw [unknown key] at known
  cases known

/-- After a lookup in the course of which a reference depended on itself, a property is
remembered to have found a symbol unbound: an evaluation comes to that reference. -/
theorem remembered_unless_recovered_of_cycle :
    let S := Setting.probing ⟨1⟩ ⟨1⟩ ⟨2⟩ #[] .standard
    let t := [Request.lookup (.plain ⟨1⟩) ⟨1⟩ .empty].foldl
      (fun u r => (EvalM.perform S (.upTo S 6) r u).2) .looped
    t.memo.done[MemoKey.first ⟨0⟩]? = some (.bool true) ∧
      (S.Evaluates t (.first ⟨0⟩) (.bool true) ∨
        S.Leaves (.lasting .looped t (Session.looped.envs.agrees t.envs)) t (.first ⟨0⟩)) := by
  intro S t
  have there : t = .recovered := by
    obtain ⟨found, looked⟩ := lookup_looped 0
    show (((Machine.upTo S 6).lookup (.plain ⟨1⟩) ⟨1⟩ .empty >>= fun _ => pure _) .looped).2 = _
    rw [SessionM.run_bind, show Machine.lookup _ _ _ _ _ = _ from looked]
    rfl
  have known : t.memo.done[MemoKey.first ⟨0⟩]? = some (.bool true) := by
    rw [there]
    exact Std.HashMap.getElem?_insert_self
  have tidy : Session.looped.Tidy := fun name plan known => by cases known
  exact ⟨known, remembered_unless_recovered (S := S) plain_probing tidy
    (fun _ => Std.HashMap.getElem?_empty) _ 6 _ _ known⟩

/-- What was remembered there is wrong: now that the reference is resolved the symbol is
found. -/
theorem recovery_is_remembered :
    let S := Setting.probing ⟨1⟩ ⟨1⟩ ⟨2⟩ #[] .standard
    (∃ found, S.machine.lookup (.plain ⟨1⟩) ⟨1⟩ .empty .looped = (.ok found, .recovered)) ∧
      Session.recovered.memo.done[MemoKey.first ⟨0⟩]? = some (.bool true) ∧
      ∀ n, (Machine.upTo (S.uncached S.config.maxCallDepth) (n + 3)).ask (.first ⟨0⟩) .recovered =
        (.ok (.bool false), .recovered) := by
  intro S
  refine ⟨lookup_looped 999999994, Std.HashMap.getElem?_insert_self, fun n => ?_⟩
  let U := S.uncached S.config.maxCallDepth
  let t := Session.recovered.deeper
  let reference : Reference :=
    ⟨.source (.property (.bare ⟨0⟩) ⟨1⟩), .none, .resolved (.plain ⟨2⟩)⟩
  have held : t.envs.reference? ⟨1⟩ 0 = some reference := rfl
  have resolved : (Machine.upTo U (n + 1)).resolve ⟨1⟩ 0 t = (.ok (.plain ⟨2⟩), t) :=
    resolve_with_resolved held rfl
  have beyond : (Machine.upTo U (n + 1)).search ⟨⟨1⟩, .empty, true⟩
      ((EnvValue.plain ⟨1⟩).cross .none (.plain ⟨2⟩)) [⟨1⟩] #[] t = _ :=
    search_alone (show (⟨2⟩ : EnvId) ≠ EnvId.empty by decide) (by decide) rfl rfl
  have searched : (Machine.upTo U (n + 2)).search ⟨⟨1⟩, .empty, true⟩ (.plain ⟨1⟩) [] #[] t = _ :=
    search_through (by decide) (newest_first_looped _ ⟨1⟩) rfl resolved held rfl beyond rfl
  have bound : t.envs.newestFirst ⟨2⟩ ⟨1⟩ = [⟨.bare ⟨0⟩, .empty⟩] := by
    show ((Scope.opened none none).bind ⟨1⟩ _).newestFirst ⟨1⟩ = _
    rw [Scope.newestFirst_bind, if_pos rfl, Scope.newestFirst_opened]
  exact call_unbound_anew rfl rfl (.inr (by decide)) rfl searched
    ((found_alone _ _ _).trans (congrArg List.isEmpty bound))

/-! ## Populations -/

/-- A symbol may be looked up in an environment once that is, as far as the symbol goes,
as it will be in `last`; some lookups may come earlier. -/
def Confinement.watching (early : EnvId → Symbol → Bool) (last : EnvStore) : Confinement where
  search envs env symbol := early env symbol || envs.agrees last env symbol
  resolve _ _ _ := true

/-- A population that succeeds, and makes no lookup too early but those that may be: it
comes out the same when it is stopped at each other one. -/
structure Setting.PopulatesInTime (S : Setting) (depth : Nat) (root : NodeId) (s t : Session)
    (early : EnvId → Symbol → Bool) : Prop where
  populates : populateWith S (.upTo S depth) root s = (.ok (), t)
  inTime : populateWith S (.confined S (.watching early t.envs) .exhausted depth) root s =
    (.ok (), t)

/-- What a population of a session that remembered nothing leaves remembered is right,
except where an evaluation makes a lookup that the population made too early, or asks for
a reference that is not resolved or was found to depend on itself. -/
theorem population_remembers_in_time {S : Setting} (plain : S.language.IsPlain) {s t : Session}
    (tidy : s.Tidy) (unknown : ∀ key : MemoKey, s.memo.done[key]? = none)
    (populated : S.PopulatesInTime depth root s t early) (key : MemoKey) (value : Value)
    (held : t.memo.done[key]? = some value) :
    S.Evaluates t key value ∨
      S.Leaves (.lasting s t fun env symbol => !early env symbol) t key := by
  refine Review.evaluates_or_leaves (.watching early t.envs) plain fun fault => ?_
  let V : Review := ⟨S, s, t, .watching early t.envs, fun env symbol => !early env symbol, fault⟩
  have timely : V.Timely := by
    intro u env symbol _ _ watched (late : (!early env symbol) = true)
    rw [Bool.not_eq_true'] at late
    simpa only [V, Confinement.watching, late, Bool.false_or] using watched
  have moves := (Review.run_hindsight (V := V) plain (Review.rooted_of_tidy tidy) timely depth).1
  have keeps := along_moves_iff.1 (populate_with_moves (S := S) moves root) s
  rw [show V.run depth = _ from rfl, Review.run, populated.inTime] at keeps
  refine keeps.sound (Session.onward_refl s) (Session.onward_refl t) ?_ key value held t.depth
  intro key value known
  rw [unknown key] at known
  cases known

/-- A property that was asked before the node bound another symbol is remembered rightly. -/
theorem population_remembers_in_time_of_other_symbol :
    let S := Setting.sprouting ⟨2⟩
    let t := Session.sprouted ⟨2⟩
    S.PopulatesInTime 2 ⟨0⟩ (.over none .new) t (fun _ _ => false) ∧
      t.memo.done[MemoKey.first ⟨0⟩]? = some (.bool true) ∧
      (S.Evaluates t (.first ⟨0⟩) (.bool true) ∨
        S.Leaves (.lasting (.over none .new) t fun _ _ => true) t (.first ⟨0⟩)) := by
  intro S t
  let C : Confinement := .watching (fun _ _ => false) t.envs
  let u := Session.seed.enter (some (.first ⟨0⟩))
  have bare := newest_first_seed ⟨1⟩
  have allowed : C.search Session.seed.envs ⟨1⟩ ⟨1⟩ = true := by
    refine (Bool.false_or _).trans (EnvStore.agrees_iff.2 ⟨?_, rfl, rfl⟩)
    rw [newest_first_sprouted, bare]
    rfl
  have asked : (Machine.upTo S 2).ask (.first ⟨0⟩) Session.seed = _ :=
    ask_unbound_alone (n := 0) rfl rfl (.inr (by decide)) (by decide) rfl rfl rfl
      Std.HashMap.getElem?_empty Std.HashSet.not_mem_empty
  have searched :
      (Machine.confined S C .exhausted 1).search ⟨⟨1⟩, .empty, true⟩ (.plain ⟨1⟩) [] #[] u =
        (.ok ((#[] : Array Entity) ++ u.envs.direct ⟨⟨1⟩, .empty, true⟩ (.plain ⟨1⟩) ⟨1⟩), u) :=
    search_alone_confined (n := 0) (show (⟨1⟩ : EnvId) ≠ EnvId.empty by decide) allowed rfl rfl
  have confined : (Machine.confined S C .exhausted 2).ask (.first ⟨0⟩) Session.seed =
      (.ok (.bool true), { Session.seed with memo := .unbound }) :=
    call_unbound rfl rfl (.inr (by decide)) rfl Std.HashMap.getElem?_empty Std.HashSet.not_mem_empty
      searched ((found_alone _ _ _).trans (congrArg List.isEmpty bare))
  rw [bare] at asked
  have populated : S.PopulatesInTime 2 ⟨0⟩ (.over none .new) t (fun _ _ => false) :=
    ⟨populate_sprouting rfl asked, populate_sprouting rfl confined⟩
  have tidy : (Session.over none .new).Tidy := fun name plan known => by cases known
  have known : t.memo.done[MemoKey.first ⟨0⟩]? = some (.bool true) :=
    Std.HashMap.getElem?_insert_self
  exact ⟨populated, known, population_remembers_in_time (S := S) plain_probing tidy
    (fun _ => Std.HashMap.getElem?_empty) populated _ _ known⟩

/-- A property that was asked before the node bound the very symbol is remembered to have
found it unbound. -/
theorem population_leaves_stale_result :
    let S := Setting.sprouting ⟨1⟩
    let s := Session.over none .new
    let t := Session.sprouted ⟨1⟩
    S.language.IsPlain ∧ (∀ key : MemoKey, s.memo.done[key]? = none) ∧
      (∀ env index, s.envs.reference? env index = none) ∧
      populateWith S S.machine ⟨0⟩ s = (.ok (), t) ∧
      t.memo.done[MemoKey.first ⟨0⟩]? = some (.bool true) ∧
      ∀ n, (Machine.upTo (S.uncached S.config.maxCallDepth) (n + 2)).ask (.first ⟨0⟩) t =
        (.ok (.bool false), t) := by
  intro S s t
  have asked : (Machine.upTo S (999999998 + 2)).ask (.first ⟨0⟩) Session.seed = _ :=
    ask_unbound_alone rfl rfl (.inr (by decide)) (by decide) rfl rfl rfl
      Std.HashMap.getElem?_empty Std.HashSet.not_mem_empty
  rw [newest_first_seed] at asked
  refine ⟨plain_probing, fun _ => Std.HashMap.getElem?_empty, EnvStore.reference?_new,
    populate_sprouting rfl asked, Std.HashMap.getElem?_insert_self, fun n => ?_⟩
  have again : (Machine.upTo (S.uncached S.config.maxCallDepth) (n + 2)).ask (.first ⟨0⟩) t = _ :=
    ask_unbound_alone_anew rfl rfl (.inr (by decide)) (by decide) rfl rfl rfl
  rwa [newest_first_sprouted] at again

end Trellis
