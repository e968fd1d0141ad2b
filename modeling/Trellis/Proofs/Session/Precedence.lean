import Trellis.Proofs.Session.Searches

/-! In which order a search finds things, and in what light. Where a search does not come
back to an environment it is in the middle of, what is found from a view is put together
from what the environment itself has, the newest first, from what is found behind each of
its references, in the order they were made, and from what its parent adds; each of these
is a search of its own that starts anew. -/
namespace Trellis

/-- The environment that a view shows. -/
def EnvValue.place (view : EnvValue) : EnvId := view.rebindings.standIn view.env

/-- The replacements that a reference makes by itself. -/
def Crossing.rebindings (c : Crossing) : Rebindings := Rebindings.none.pushAll c.rebind.toList

theorem EnvValue.cross_eq (view value : EnvValue) (c : Crossing) :
    view.cross c value = ⟨value.env,
      (view.rebindings.compose value.rebindings).compose c.rebindings,
      (view.metadata.combine c.metadata).combine value.metadata⟩ := by
  unfold cross Crossing.rebindings
  cases c.rebind with
  | none => rfl
  | some p =>
    exact congrArg (EnvValue.mk _ · _) (Rebindings.compose_push _ .none p.1 p.2).symm

namespace EnvStore

/-- Where a search comes to that starts with a view while the environments on `path` are
being searched, and which ones are being searched by then. -/
inductive Comes (envs : EnvStore) : (path : List EnvId) → EnvValue → List EnvId → EnvValue → Prop
  | here : Comes envs path view path view
  | on (real : view.place ≠ .empty) (mem : beyond ∈ envs.next view view.place)
      (rest : Comes envs (view.place :: path) beyond trail there) : Comes envs path view trail there

/-- The search never comes to an environment that is being searched already. -/
def Unlooped (envs : EnvStore) (path : List EnvId) (view : EnvValue) : Prop :=
  ∀ trail there, envs.Comes path view trail there → there.place ∉ trail

variable {envs : EnvStore} {q : LookupQuery} {view beyond : EnvValue} {path shorter : List EnvId}

theorem unlooped_of_next (new : view.place ∉ path)
    (further : ∀ beyond ∈ envs.next view view.place, envs.Unlooped (view.place :: path) beyond) :
    envs.Unlooped path view := by
  intro trail there comes
  cases comes with
  | here => exact new
  | on real mem rest => exact further _ mem _ _ rest

theorem unlooped_last (last : envs.next view view.place = []) (new : view.place ∉ path) :
    envs.Unlooped path view :=
  unlooped_of_next new (last ▸ List.forall_mem_nil _)

theorem Unlooped.further (unlooped : envs.Unlooped path view) (real : view.place ≠ .empty)
    (mem : beyond ∈ envs.next view view.place) : envs.Unlooped (view.place :: path) beyond :=
  fun trail there rest => unlooped trail there (.on real mem rest)

theorem sought_nowhere (nowhere : view.place = .empty) (room : Nat) :
    envs.sought q room view path = [] := by
  cases room with
  | zero => rfl
  | succ room => exact if_pos (.inl nowhere)

theorem sought_succ (real : view.place ≠ .empty) (new : view.place ∉ path) (room : Nat) :
    envs.sought q (room + 1) view path = envs.direct q view view.place ++
      (envs.next view view.place).flatMap (envs.sought q room · (view.place :: path)) :=
  if_neg (not_or.2 ⟨real, new⟩)

/-- A search that never comes back finds no more where less is being searched. -/
theorem sought_unlooped (unlooped : envs.Unlooped path view) (within : shorter ⊆ path)
    (room : Nat) : envs.sought q room view path = envs.sought q room view shorter := by
  induction room generalizing path shorter view with
  | zero => rfl
  | succ room ih =>
    have new : view.place ∉ path := unlooped _ _ .here
    by_cases real : view.place = .empty
    · rw [sought_nowhere real, sought_nowhere real]
    · rw [sought_succ real new, sought_succ real fun mem => new (within mem)]
      refine congrArg (envs.direct q view _ ++ ·) (List.flatMap_congr fun beyond mem => ?_)
      exact ih (unlooped.further real mem) (List.cons_subset_cons _ within)

/-- What is found with room enough is put together from searches that start anew. -/
theorem sought_anew (unlooped : envs.Unlooped [] view) (real : view.place ≠ .empty) :
    envs.sought q (envs.size + 1) view [] = envs.direct q view view.place ++
      (envs.next view view.place).flatMap (envs.sought q (envs.size + 1) · []) := by
  rw [sought_succ real List.not_mem_nil]
  refine congrArg (envs.direct q view _ ++ ·) (List.flatMap_congr fun beyond mem => ?_)
  have room : envs.unvisited [view.place] < envs.size :=
    envs.unvisited_nil ▸ unvisited_cons (known_of_next mem) List.not_mem_nil
  calc envs.sought q envs.size beyond [view.place]
      = envs.sought q (envs.size + 1) beyond [view.place] := (sought_more room).symm
    _ = envs.sought q (envs.size + 1) beyond [] :=
      sought_unlooped (unlooped.further real mem) (List.nil_subset _) _

/-- What an environment itself has to offer to a search for everything. -/
theorem direct_eq (envs : EnvStore) (symbol : Symbol) (require : Metadata) (view : EnvValue)
    (e : EnvId) : envs.direct ⟨symbol, require, false⟩ view e =
      ((envs.newestFirst e symbol).map view.see).filter (·.info.metadata.contains require) := by
  rw [← List.filterMap_eq_filter, List.filterMap_map]
  rfl

/-- What is found behind the references of an environment, and then by way of its parent. -/
theorem flatMap_next (envs : EnvStore) (results : EnvValue → List Entity)
    (view : EnvValue) (e : EnvId) : (envs.next view e).flatMap results =
      ((envs.references e).toList.flatMap fun r => match r.state with
        | .resolved value => results (view.cross r.crossing value)
        | _ => []) ++
      match envs.parent e with
        | some p => results { view with env := p }
        | none => [] := by
  rw [next, List.flatMap_append]
  congr 1
  · rw [List.filterMap_eq_flatMap_toList, List.flatMap_assoc]
    refine List.flatMap_congr fun r _ => ?_
    unfold EnvValue.through
    split <;> simp [*]
  · cases envs.parent e <;> simp

end EnvStore

variable {S : Setting} {s : Session}

/-- **Results come in order.** An environment lists its bindings with the newest first and its
references in the order in which they were made. Where all references are resolved, a search
that never comes back to an environment finds the bindings of the environment itself, then
what a search behind each reference finds, then what a search of the parent finds. Each
binding is seen with the metadata and the rebindings that were gathered on the way. -/
theorem lookup_in_order (resolved : s.envs.AllResolved) (symbol : Symbol) (require : Metadata) :
    (∀ (envs : EnvStore) e entity metadata,
      (envs.addBinding e symbol entity metadata).1 = .ok () →
        (envs.addBinding e symbol entity metadata).2.newestFirst e symbol =
          ⟨entity, metadata⟩ :: envs.newestFirst e symbol) ∧
    (∀ (envs : EnvStore) e thunk crossing i, (envs.addReference e thunk crossing).1 = .ok i →
      (envs.addReference e thunk crossing).2.references e =
        (envs.references e).push ⟨thunk, crossing, .unresolved⟩) ∧
    ∃ results : EnvValue → List Entity,
      (∀ view, ∀ depth > s.envs.size,
        (Machine.upTo S depth).lookup view symbol require s = (.ok (results view).toArray, s)) ∧
      ∀ env R M E, E = R.standIn env → s.envs.Unlooped [] ⟨env, R, M⟩ →
        results ⟨env, R, M⟩ = if E = .empty then [] else
          ((s.envs.newestFirst E symbol).map fun b =>
            (⟨b.entity.node, b.entity.info.metadata.combine (M.combine b.metadata),
              b.entity.info.rebindings.compose R⟩ : Entity)).filter
                (·.info.metadata.contains require) ++
          (((s.envs.references E).toList.flatMap fun r => match r.state with
            | .resolved value => results ⟨value.env,
                (R.compose value.rebindings).compose r.crossing.rebindings,
                (M.combine r.crossing.metadata).combine value.metadata⟩
            | _ => []) ++
          match s.envs.parent E with
            | some p => results ⟨p, R, M⟩
            | none => []) := by
  refine ⟨fun _ _ _ _ => EnvStore.newestFirst_addBinding,
    fun _ _ _ _ _ => EnvStore.references_addReference,
    (s.envs.sought ⟨symbol, require, false⟩ (s.envs.size + 1) · []),
    fun view depth deep => lookup_resolved resolved view symbol require deep,
    fun env R M E here unlooped => ?_⟩
  subst here
  split
  · next nowhere =>
    exact EnvStore.sought_nowhere (show EnvValue.place ⟨env, R, M⟩ = .empty from nowhere) _
  · next real =>
    refine (EnvStore.sought_anew unlooped real).trans ?_
    rw [EnvStore.direct_eq, EnvStore.flatMap_next]
    simp only [EnvValue.cross_eq]
    rfl

/-- The first environment refers to the second one and makes the fourth one stand in for the
third behind the reference. The third is the parent of both. -/
def EnvStore.redirecting : EnvStore :=
  let redirect : Reference :=
    ⟨.source (.env (.plain ⟨2⟩)), ⟨.ofNat 1, some (⟨3⟩, ⟨4⟩)⟩, .resolved (.plain ⟨2⟩)⟩
  ⟨#[.opened none none, (Scope.opened (some ⟨3⟩) none).refer redirect, .opened (some ⟨3⟩) none,
    ((Scope.opened none none).bind ⟨1⟩ ⟨.bare ⟨0⟩, .empty⟩).bind ⟨1⟩ ⟨.bare ⟨1⟩, .empty⟩,
    (Scope.opened none none).bind ⟨1⟩ ⟨.bare ⟨2⟩, .empty⟩]⟩

theorem redirecting_resolved : EnvStore.redirecting.AllResolved := by
  intro e i r held
  obtain ⟨_ | _ | _ | _ | _ | raw⟩ := e
  case succ.zero =>
    rcases i with _ | i
    · exact ⟨_, congrArg Reference.state (Option.some.inj held).symm⟩
    · exact nomatch held
  all_goals exact nomatch (show (#[] : Array Reference)[i]? = some r from held)

theorem newest_first_redirecting :
    EnvStore.redirecting.newestFirst ⟨1⟩ ⟨1⟩ = [] ∧
    EnvStore.redirecting.newestFirst ⟨2⟩ ⟨1⟩ = [] ∧
    EnvStore.redirecting.newestFirst ⟨3⟩ ⟨1⟩ = [⟨.bare ⟨1⟩, .empty⟩, ⟨.bare ⟨0⟩, .empty⟩] ∧
    EnvStore.redirecting.newestFirst ⟨4⟩ ⟨1⟩ = [⟨.bare ⟨2⟩, .empty⟩] := by
  refine ⟨Scope.newestFirst_opened none none ⟨1⟩, Scope.newestFirst_opened none none ⟨1⟩, ?_, ?_⟩
  · show (((Scope.opened none none).bind ⟨1⟩ _).bind ⟨1⟩ _).newestFirst ⟨1⟩ = _
    rw [Scope.newestFirst_bind, if_pos rfl, Scope.newestFirst_bind, if_pos rfl,
      Scope.newestFirst_opened]
  · show ((Scope.opened none none).bind ⟨1⟩ _).newestFirst ⟨1⟩ = _
    rw [Scope.newestFirst_bind, if_pos rfl, Scope.newestFirst_opened]

/-- A binding and a reference that are added find their places. From the first environment the
stand-in is seen through the reference, before the two bindings of the parent that it stands
in for. -/
theorem lookup_in_order_of_redirecting :
    let S : Setting := ⟨.leaves #[], .standard⟩
    let s : Session := { Session.new (.new none) .standard .absent with envs := .redirecting }
    let again : EnvThunk := .source (.env (.plain ⟨2⟩))
    (s.envs.addBinding ⟨3⟩ ⟨1⟩ (.bare ⟨3⟩) .empty).2.newestFirst ⟨3⟩ ⟨1⟩ =
      [⟨.bare ⟨3⟩, .empty⟩, ⟨.bare ⟨1⟩, .empty⟩, ⟨.bare ⟨0⟩, .empty⟩] ∧
    ((s.envs.addReference ⟨1⟩ again .none).2.references ⟨1⟩).toList.map (·.state) =
      [.resolved (.plain ⟨2⟩), .unresolved] ∧
    s.envs.AllResolved ∧ s.envs.Unlooped [] (.plain ⟨1⟩) ∧
    (Machine.upTo S 6).lookup (.plain ⟨1⟩) ⟨1⟩ .empty s =
      (.ok #[⟨⟨2⟩, ⟨.ofNat 1, Rebindings.none.push ⟨3⟩ ⟨4⟩⟩⟩, .bare ⟨1⟩, .bare ⟨0⟩], s) := by
  intro S s again
  have resolved : s.envs.AllResolved := redirecting_resolved
  obtain ⟨bare₁, bare₂, bound₃, bound₄⟩ := newest_first_redirecting
  let behind (raw : Nat) : EnvValue := ⟨⟨raw⟩, Rebindings.none.push ⟨3⟩ ⟨4⟩, .ofNat 1⟩
  have fourth (path : List EnvId) (new : ⟨4⟩ ∉ path) : s.envs.Unlooped path (behind 3) :=
    EnvStore.unlooped_last rfl new
  have second (path : List EnvId) (here : ⟨2⟩ ∉ path) (new : ⟨4⟩ ∉ ⟨2⟩ :: path) :
      s.envs.Unlooped path (behind 2) :=
    EnvStore.unlooped_of_next here (List.forall_mem_singleton.2 (fourth _ new))
  have third (path : List EnvId) (new : ⟨3⟩ ∉ path) : s.envs.Unlooped path (.plain ⟨3⟩) :=
    EnvStore.unlooped_last rfl new
  have first : s.envs.Unlooped [] (.plain ⟨1⟩) :=
    EnvStore.unlooped_of_next List.not_mem_nil (List.forall_mem_cons.2
      ⟨second _ (by decide) (by decide), List.forall_mem_singleton.2 (third _ (by decide))⟩)
  obtain ⟨bound, referred, results, answered, ordered⟩ :=
    lookup_in_order (S := S) resolved ⟨1⟩ .empty
  have from₄ : results (behind 3) = [⟨⟨2⟩, ⟨.ofNat 1, Rebindings.none.push ⟨3⟩ ⟨4⟩⟩⟩] := by
    refine (ordered _ _ _ ⟨4⟩ rfl (fourth [] (by decide))).trans ?_
    rw [bound₄]
    rfl
  have from₂ : results (behind 2) = results (behind 3) := by
    refine (ordered _ _ _ ⟨2⟩ rfl (second [] (by decide) (by decide))).trans ?_
    rw [bare₂]
    rfl
  have from₃ : results (.plain ⟨3⟩) = [.bare ⟨1⟩, .bare ⟨0⟩] := by
    refine (ordered _ _ _ ⟨3⟩ rfl (third [] (by decide))).trans ?_
    rw [bound₃]
    rfl
  have from₁ : results (.plain ⟨1⟩) = results (behind 2) ++ [] ++ results (.plain ⟨3⟩) := by
    refine (ordered _ _ _ ⟨1⟩ rfl first).trans ?_
    rw [bare₁]
    rfl
  refine ⟨(bound s.envs ⟨3⟩ (.bare ⟨3⟩) .empty rfl).trans (congrArg (_ :: ·) bound₃), ?_,
    resolved, first, (answered _ 6 (by decide)).trans ?_⟩
  · rw [referred s.envs ⟨1⟩ again .none 1 rfl]
    rfl
  · rw [from₁, from₂, from₃, from₄]
    rfl

end Trellis
