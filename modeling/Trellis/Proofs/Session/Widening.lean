import Trellis.Proofs.Session.Precedence

/-! What one more binding does to a lookup. Where a search goes does not depend on what is
bound on the way, so it comes by the same environments in the same order, however often and
in whatever light it comes by the one that has the new binding. It finds what it found
before, in the order in which it found it, and the new binding in between. -/
namespace Trellis

/-- To have fields is to have them whatever else there is. -/
theorem Metadata.contains_combine {m n required : Metadata} (has : (m.combine n).contains required)
    (k : Metadata) : (m.combine (k.combine n)).contains required := by
  simp only [contains, combine, beq_iff_eq] at has ⊢
  have wider : m.bits ||| (k.bits ||| n.bits) = k.bits ||| (m.bits ||| n.bits) := by ac_rfl
  rw [wider, BitVec.and_or_distrib_right, has]
  ext i
  simp

/-- The results `after` are the results `before` with some for the node `n` in between. What is
found for other nodes is the same, so whatever is new is for `n`. -/
structure Widened (n : NodeId) (before after : List Entity) : Prop where
  kept : before.Sublist after
  others : after.filter (·.node ≠ n) = before.filter (·.node ≠ n)

section Widened
variable {n : NodeId} {before after before' after' : List Entity}

theorem widened_refl (n : NodeId) (found : List Entity) : Widened n found found :=
  ⟨.refl found, rfl⟩

theorem widened_append (first : Widened n before after) (rest : Widened n before' after') :
    Widened n (before ++ before') (after ++ after') where
  kept := first.kept.append rest.kept
  others := by rw [List.filter_append, List.filter_append, first.others, rest.others]

/-- What is put in front for the node `n`. -/
theorem widened_front (n : NodeId) {new : List Entity} (own : ∀ e ∈ new, e.node = n)
    (found : List Entity) : Widened n found (new ++ found) where
  kept := List.sublist_append_right new found
  others := by
    rw [List.filter_append, List.filter_eq_nil_iff.2 fun e mem => by simp [own e mem]]
    rfl

end Widened

namespace EnvStore
variable {s before after : EnvStore} {env e : EnvId} {symbol : Symbol} {x : Entity}
  {metadata : Metadata} {q : LookupQuery}

section Accepted
variable (accepted : (s.addBinding env symbol x metadata).1 = .ok ())
include accepted

theorem size_addBinding : (s.addBinding env symbol x metadata).2.size = s.size := by
  rw [(addBinding_ok accepted).2.2]
  exact Array.size_modify

theorem next_addBinding (view : EnvValue) (e : EnvId) :
    (s.addBinding env symbol x metadata).2.next view e = s.next view e := by
  unfold next references parent
  rw [scope?_addBinding accepted]
  by_cases here : e = env
  · rw [if_pos here]
    cases s.scope? e <;> rfl
  · rw [if_neg here]

/-- What is bound elsewhere, or under another symbol, is as it was. -/
theorem direct_addBinding_other (apart : e ≠ env ∨ q.symbol ≠ symbol) (view : EnvValue) :
    (s.addBinding env symbol x metadata).2.direct q view e = s.direct q view e := by
  unfold direct newestFirst
  rw [scope?_addBinding accepted]
  by_cases here : e = env
  · have other : symbol ≠ q.symbol := (apart.resolve_left (not_not.2 here)).symm
    rw [if_pos here]
    cases s.scope? e with
    | none => rfl
    | some scope =>
      dsimp only [Option.map_some]
      rw [Scope.newestFirst_bind, if_neg other]
  · rw [if_neg here]

/-- The environment itself has the new binding to offer, if it has the metadata asked for, and
then what it had. -/
theorem direct_addBinding (require : Metadata) (view : EnvValue) :
    (s.addBinding env symbol x metadata).2.direct ⟨symbol, require, false⟩ view env =
      (view.offer ⟨symbol, require, false⟩ ⟨x, metadata⟩).toList ++
        s.direct ⟨symbol, require, false⟩ view env := by
  simp only [direct, Bool.false_eq_true, if_false]
  rw [newestFirst_addBinding accepted, List.filterMap_cons]
  cases view.offer ⟨symbol, require, false⟩ ⟨x, metadata⟩ <;> rfl

theorem direct_widened (require : Metadata) (view : EnvValue) (e : EnvId) :
    Widened x.node (s.direct ⟨symbol, require, false⟩ view e)
      ((s.addBinding env symbol x metadata).2.direct ⟨symbol, require, false⟩ view e) := by
  by_cases here : e = env
  · subst here
    rw [direct_addBinding accepted]
    refine widened_front x.node (fun found mem => ?_) _
    simp only [EnvValue.offer, Option.mem_toList, Option.ite_none_right_eq_some,
      Option.some.injEq] at mem
    rw [← mem.2]
    rfl
  · rw [direct_addBinding_other accepted (.inl here)]
    exact widened_refl x.node _

end Accepted

/-- Where two stores lead searches the same way, what is found in the one has to do with what
is found in the other as what their environments offer has. -/
theorem sought_related {r : List Entity → List Entity → Prop} (nothing : r [] [])
    (append : ∀ {a b c d}, r a b → r c d → r (a ++ c) (b ++ d))
    (same : ∀ view e, after.next view e = before.next view e)
    (direct : ∀ view e, r (before.direct q view e) (after.direct q view e)) (room : Nat)
    (view : EnvValue) (path : List EnvId) :
    r (before.sought q room view path) (after.sought q room view path) := by
  induction room generalizing view path with
  | zero => exact nothing
  | succ room ih =>
    by_cases ends : view.place = .empty ∨ view.place ∈ path
    · rw [show before.sought q (room + 1) view path = [] from if_pos ends,
        show after.sought q (room + 1) view path = [] from if_pos ends]
      exact nothing
    · obtain ⟨real, new⟩ := not_or.1 ends
      rw [sought_succ real new, sought_succ real new, same]
      refine append (direct view view.place) ?_
      induction before.next view view.place with
      | nil => exact nothing
      | cons beyond rest further => exact append (ih beyond _) further

end EnvStore

variable {S : Setting} {s : Session} {F : EnvId} {symbol : Symbol} {x : Entity}
  {metadata : Metadata}

/-- **One more binding only adds results.** Where all references are resolved, a lookup of
another symbol finds the same after a binding was accepted. A lookup of the symbol finds
what it found, in the same order, and between that nothing but the node that was bound. It
finds that node first if it starts in the environment of the binding, the replacements of
the view being made, and the binding brings the metadata asked for. -/
theorem lookup_after_binding (resolved : s.envs.AllResolved)
    (accepted : (s.envs.addBinding F symbol x metadata).1 = .ok ()) (view : EnvValue)
    (asked : Symbol) (require : Metadata) :
    let t : Session := { s with envs := (s.envs.addBinding F symbol x metadata).2 }
    ∃ before after : List Entity,
      (∀ depth > s.envs.size,
        (Machine.upTo S depth).lookup view asked require s = (.ok before.toArray, s) ∧
        (Machine.upTo S depth).lookup view asked require t = (.ok after.toArray, t)) ∧
      (asked ≠ symbol → after = before) ∧
      (asked = symbol → Widened x.node before after ∧
        (F = view.rebindings.standIn view.env →
          (x.info.metadata.combine metadata).contains require →
          ∃ rest, after = view.see ⟨x, metadata⟩ :: rest)) := by
  intro t
  let q : LookupQuery := ⟨asked, require, false⟩
  have still : t.envs.AllResolved := fun e i r held =>
    resolved e i r (by rwa [EnvStore.reference?_addBinding] at held)
  have size : t.envs.size = s.envs.size := EnvStore.size_addBinding accepted
  have ways := EnvStore.next_addBinding accepted
  refine ⟨s.envs.sought q (s.envs.size + 1) view [], t.envs.sought q (s.envs.size + 1) view [],
    fun depth deep => ⟨lookup_resolved resolved view asked require deep, ?_⟩,
    fun other => ?_, fun same => ?_⟩
  · rw [← size] at deep ⊢
    exact lookup_resolved still view asked require deep
  · have offers (view : EnvValue) (e : EnvId) := EnvStore.direct_addBinding_other (e := e) (q := q)
      accepted (.inr other) view
    refine (EnvStore.sought_related (r := Eq) rfl ?_ ways (fun view e => (offers view e).symm) _
      view []).symm
    rintro a _ c _ rfl rfl
    rfl
  · subst same
    refine ⟨EnvStore.sought_related (widened_refl x.node []) widened_append ways
      (EnvStore.direct_widened accepted require) _ view [], fun start brings => ?_⟩
    subst start
    have has : (view.see ⟨x, metadata⟩).info.metadata.contains require :=
      Metadata.contains_combine brings view.metadata
    have first : t.envs.direct q view view.place =
        view.see ⟨x, metadata⟩ :: s.envs.direct q view view.place :=
      (EnvStore.direct_addBinding accepted require view).trans
        (by rw [EnvValue.offer, if_pos has]; rfl)
    rw [EnvStore.sought_succ (EnvStore.real_of_accepted (EnvStore.addBinding_ok accepted).1)
      List.not_mem_nil, first]
    exact ⟨_, rfl⟩

section Plain
variable (e : EnvId) (n : NodeId)

/-- A plain view shows a bare entity as it is. -/
theorem see_plain : (EnvValue.plain e).see ⟨.bare n, .empty⟩ = .bare n := by
  simp [EnvValue.see, EnvValue.plain, Entity.bare, EntityInfo.extend, EntityInfo.empty,
    Metadata.combine_empty, Rebindings.compose_none]

theorem offer_plain (symbol : Symbol) :
    (EnvValue.plain e).offer ⟨symbol, .empty, false⟩ ⟨.bare n, .empty⟩ = some (.bare n) := by
  simp [EnvValue.offer, see_plain, Metadata.contains_empty]

end Plain

namespace EnvStore

/-- A search from the second of two environments that face each other comes by the first one
twice. -/
theorem sought_facing {envs : EnvStore} (q : LookupQuery)
    (one : envs.next (.plain ⟨1⟩) ⟨1⟩ = [.plain ⟨2⟩])
    (two : envs.next (.plain ⟨2⟩) ⟨2⟩ = [.plain ⟨1⟩, .plain ⟨1⟩]) :
    envs.sought q 4 (.plain ⟨2⟩) [] = envs.direct q (.plain ⟨2⟩) ⟨2⟩ ++
      (envs.direct q (.plain ⟨1⟩) ⟨1⟩ ++ envs.direct q (.plain ⟨1⟩) ⟨1⟩) := by
  have behind : envs.sought q 3 (.plain ⟨1⟩) [⟨2⟩] = envs.direct q (.plain ⟨1⟩) ⟨1⟩ := by
    refine (sought_succ (by decide) (by decide) 2).trans ?_
    show _ ++ (envs.next (.plain ⟨1⟩) ⟨1⟩).flatMap _ = _
    rw [one]
    exact List.append_nil _
  refine (sought_succ (by decide) List.not_mem_nil 3).trans ?_
  show _ ++ (envs.next (.plain ⟨2⟩) ⟨2⟩).flatMap (envs.sought q 3 · [⟨2⟩]) = _
  rw [two, List.flatMap_cons, List.flatMap_singleton, behind]
  rfl

theorem direct_facing (e : EnvId) : facing.direct ⟨⟨1⟩, .empty, false⟩ (.plain e) e =
    if e = ⟨2⟩ then [.bare ⟨0⟩] else [] := by
  show (facing.newestFirst e ⟨1⟩).filterMap _ = _
  rw [newest_first_facing]
  split
  · rw [List.filterMap_cons, offer_plain]
    rfl
  · rfl

end EnvStore

/-- Two environments face each other, and a binding is added to the first one. Seen from there
it comes first. The second one comes by the first twice, across its reference and by way of
its parent, and finds the new binding each time. Another symbol is bound nowhere. -/
theorem lookup_after_binding_of_facing :
    let S : Setting := ⟨.leaves #[], .standard⟩
    let s : Session := { Session.new (.new none) .standard .absent with envs := .facing }
    let x : Entity := .bare ⟨1⟩
    let t : Session := { s with envs := (s.envs.addBinding ⟨1⟩ ⟨1⟩ x .empty).2 }
    let m := Machine.upTo S 4
    s.envs.AllResolved ∧ (s.envs.addBinding ⟨1⟩ ⟨1⟩ x .empty).1 = .ok () ∧
    (∃ before rest, m.lookup (.plain ⟨1⟩) ⟨1⟩ .empty s = (.ok before.toArray, s) ∧
      m.lookup (.plain ⟨1⟩) ⟨1⟩ .empty t = (.ok (x :: rest).toArray, t) ∧
      Widened ⟨1⟩ before (x :: rest)) ∧
    m.lookup (.plain ⟨2⟩) ⟨1⟩ .empty s = (.ok #[.bare ⟨0⟩], s) ∧
    m.lookup (.plain ⟨2⟩) ⟨1⟩ .empty t = (.ok #[.bare ⟨0⟩, x, x], t) ∧
    Widened ⟨1⟩ [.bare ⟨0⟩] [.bare ⟨0⟩, x, x] ∧
    ∃ found, m.lookup (.plain ⟨2⟩) ⟨2⟩ .empty s = (.ok found, s) ∧
      m.lookup (.plain ⟨2⟩) ⟨2⟩ .empty t = (.ok found, t) := by
  intro S s x t m
  have resolved : s.envs.AllResolved := facing_resolved
  have accepted : (s.envs.addBinding ⟨1⟩ ⟨1⟩ x .empty).1 = .ok () := rfl
  have first := lookup_after_binding (S := S) resolved accepted (.plain ⟨1⟩) ⟨1⟩ .empty
  have second := lookup_after_binding (S := S) resolved accepted (.plain ⟨2⟩) ⟨1⟩ .empty
  have other := lookup_after_binding (S := S) resolved accepted (.plain ⟨2⟩) ⟨2⟩ .empty
  let q : LookupQuery := ⟨⟨1⟩, .empty, false⟩
  have old : s.envs.sought q 4 (.plain ⟨2⟩) [] = [.bare ⟨0⟩] := by
    rw [EnvStore.sought_facing q rfl rfl, EnvStore.direct_facing ⟨2⟩, EnvStore.direct_facing ⟨1⟩]
    rfl
  have new : t.envs.sought q 4 (.plain ⟨2⟩) [] = [.bare ⟨0⟩, x, x] := by
    have two : t.envs.direct q (.plain ⟨2⟩) ⟨2⟩ = [.bare ⟨0⟩] :=
      (EnvStore.direct_addBinding_other accepted (.inl (by decide)) _).trans
        (EnvStore.direct_facing ⟨2⟩)
    have one : t.envs.direct q (.plain ⟨1⟩) ⟨1⟩ = [x] :=
      (EnvStore.direct_addBinding accepted .empty _).trans
        (by rw [offer_plain, EnvStore.direct_facing ⟨1⟩]; rfl)
    rw [EnvStore.sought_facing q (EnvStore.next_addBinding accepted _ _)
      (EnvStore.next_addBinding accepted _ _), one, two]
    rfl
  have still : t.envs.AllResolved := fun e i r held =>
    resolved e i r (by rwa [EnvStore.reference?_addBinding] at held)
  have size : t.envs.size = 3 := EnvStore.size_addBinding accepted
  have before₂ : m.lookup (.plain ⟨2⟩) ⟨1⟩ .empty s = (.ok #[.bare ⟨0⟩], s) := by
    have deep : 4 > s.envs.size := by decide
    have found := lookup_resolved (S := S) resolved (.plain ⟨2⟩) ⟨1⟩ .empty deep
    exact found.trans (congrArg (fun found => (Except.ok found.toArray, s)) old)
  have after₂ : m.lookup (.plain ⟨2⟩) ⟨1⟩ .empty t = (.ok #[.bare ⟨0⟩, x, x], t) := by
    have deep : 4 > t.envs.size := by rw [size]; decide
    have found := lookup_resolved (S := S) still (.plain ⟨2⟩) ⟨1⟩ .empty deep
    rw [size] at found
    exact found.trans (congrArg (fun found => (Except.ok found.toArray, t)) new)
  refine ⟨resolved, accepted, ?_, before₂, after₂, ?_, ?_⟩
  · obtain ⟨before, after, looked, -, wider⟩ := first
    obtain ⟨atOnce, later⟩ := looked 4 (by decide)
    obtain ⟨within, front⟩ := wider rfl
    obtain ⟨rest, rfl⟩ := front rfl (Metadata.contains_empty _)
    rw [see_plain] at later within
    exact ⟨before, rest, atOnce, later, within⟩
  · obtain ⟨before, after, looked, -, wider⟩ := second
    obtain ⟨atOnce, later⟩ := looked 4 (by decide)
    have begun : before.toArray = #[.bare ⟨0⟩] :=
      Except.ok.inj (congrArg Prod.fst (atOnce.symm.trans before₂))
    have ended : after.toArray = #[.bare ⟨0⟩, x, x] :=
      Except.ok.inj (congrArg Prod.fst (later.symm.trans after₂))
    obtain rfl : before = [.bare ⟨0⟩] := congrArg Array.toList begun
    obtain rfl : after = [.bare ⟨0⟩, x, x] := congrArg Array.toList ended
    exact (wider rfl).1
  · obtain ⟨before, after, looked, equal, -⟩ := other
    obtain ⟨atOnce, later⟩ := looked 4 (by decide)
    rw [equal (by decide)] at later
    exact ⟨before.toArray, atOnce, later⟩

end Trellis
