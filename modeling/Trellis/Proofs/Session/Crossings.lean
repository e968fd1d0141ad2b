import Trellis.Proofs.Session.Precedence

/-! What a reference adds to a lookup is what a view may start with. An environment that has
nothing but a reference shows what is behind it, as a view shows it that has made the crossing
already. -/
namespace Trellis

/-- Whether a replacement is of the environment, or by it. -/
def Rebindings.Mentions (R : Rebindings) (e : EnvId) : Prop :=
  ∃ p ∈ R.newestFirst, p.1 = e ∨ p.2 = e

namespace Rebindings

theorem none_mentions (e : EnvId) : ¬none.Mentions e := fun ⟨_, mem, _⟩ => nomatch mem

theorem mentions_compose {R later : Rebindings} :
    (R.compose later).Mentions e ↔ R.Mentions e ∨ later.Mentions e := by
  simp only [Mentions, newestFirst_compose, List.mem_append, or_and_right, exists_or]
  exact or_comm

/-- Replacements that do not mention an environment lead there from nowhere else. -/
theorem standIn_iff {R : Rebindings} (apart : ¬R.Mentions f) : R.standIn e = f ↔ e = f := by
  unfold standIn
  cases found : R.newestFirst.lookup e with
  | none => rfl
  | some g =>
    obtain ⟨before, after, parts, -⟩ := List.lookup_eq_some_iff.1 found
    have mem : (e, g) ∈ R.newestFirst := parts ▸ List.mem_append_right _ List.mem_cons_self
    constructor
    · exact fun same => absurd ⟨_, mem, .inr same⟩ apart
    · exact fun same => absurd ⟨_, mem, .inl same⟩ apart

end Rebindings

namespace EnvStore

/-- The store with one more environment, which has nothing but a reference to `value`. -/
def withGateway (envs : EnvStore) (owner : Option NodeId) (thunk : EnvThunk) (crossing : Crossing)
    (value : EnvValue) : EnvStore :=
  let opened := envs.create none owner
  (opened.2.addReference opened.1 thunk crossing).2.setState opened.1 0 (.resolved value)

/-- Whether a parent or a reference leads to the environment, or replaces it or by it. -/
def Mentions (envs : EnvStore) (e : EnvId) : Prop :=
  ∃ f, envs.parent f = some e ∨ ∃ i r value, envs.reference? f i = some r ∧
    r.state = .resolved value ∧
    (value.env = e ∨ value.rebindings.Mentions e ∨ r.crossing.rebindings.Mentions e)

variable {envs before after : EnvStore} {q : LookupQuery} {view : EnvValue} {e gate : EnvId}
  {path path' : List EnvId} {room : Nat}

theorem next_congr (same : after.scope? e = before.scope? e) (view : EnvValue) :
    after.next view e = before.next view e := by
  simp only [next, references, parent, same]

theorem direct_congr (same : after.scope? e = before.scope? e) (q : LookupQuery)
    (view : EnvValue) : after.direct q view e = before.direct q view e := by
  simp only [direct, newestFirst, same]

/-- Two searches find the same at an environment that is the same for both, if they do so
beyond it. -/
theorem sought_congr (same : after.scope? view.place = before.scope? view.place)
    (visited : view.place ∈ path' ↔ view.place ∈ path)
    (further : ∀ beyond ∈ before.next view view.place,
      after.sought q room beyond (view.place :: path') =
        before.sought q room beyond (view.place :: path)) :
    after.sought q (room + 1) view path' = before.sought q (room + 1) view path := by
  by_cases ends : view.place = .empty ∨ view.place ∈ path
  · have ends' := ends.imp_right visited.2
    exact (if_pos ends').trans (if_pos ends).symm
  · obtain ⟨real, new⟩ := not_or.1 ends
    rw [sought_succ real (mt visited.1 new), sought_succ real new, next_congr same,
      direct_congr same, List.flatMap_congr further]

theorem sought_visited (visited : view.place ∈ path) (room : Nat) :
    envs.sought q room view path = [] := by
  cases room with
  | zero => rfl
  | succ room => exact if_pos (.inr visited)

theorem sought_unknown (unknown : envs.scope? view.place = none) (room : Nat) :
    envs.sought q room view path = [] := by
  cases room with
  | zero => rfl
  | succ room =>
    by_cases ends : view.place = .empty ∨ view.place ∈ path
    · exact if_pos ends
    · obtain ⟨real, new⟩ := not_or.1 ends
      rw [sought_succ real new]
      simp [direct, newestFirst, next, references, parent, unknown]

section Gate
variable (others : ∀ e ≠ gate, after.scope? e = before.scope? e)
include others

/-- While one environment is being searched, it makes no difference whether it is there. -/
theorem sought_behind (unknown : before.scope? gate = none) (room : Nat) (view : EnvValue)
    (path : List EnvId) :
    after.sought q room view (path ++ [gate]) = before.sought q room view path := by
  induction room generalizing view path with
  | zero => rfl
  | succ room ih =>
    by_cases there : view.place = gate
    · -- on one side it is being searched, on the other there is nothing to search
      have visited : view.place ∈ path ++ [gate] :=
        List.mem_append_right _ (List.mem_singleton.2 there)
      rw [sought_visited visited, sought_unknown (there ▸ unknown)]
    · exact sought_congr (others _ there) (by simp [there]) fun beyond _ =>
        ih beyond (view.place :: path)

/-- Nor does it where nothing leads there. -/
theorem sought_apart (new : ¬before.Mentions gate) (room : Nat) (view : EnvValue)
    (apart : view.env ≠ gate) (unmentioned : ¬view.rebindings.Mentions gate)
    (path : List EnvId) :
    after.sought q room view path = before.sought q room view path := by
  induction room generalizing view path with
  | zero => rfl
  | succ room ih =>
    have there : view.place ≠ gate := fun same =>
      apart ((Rebindings.standIn_iff unmentioned).1 same)
    refine sought_congr (others _ there) .rfl fun beyond mem => ?_
    rcases next_cases mem with ⟨i, r, value, held, known, rfl⟩ | ⟨p, held, rfl⟩
    · have free := fun leads => new ⟨_, .inr ⟨i, r, value, held, known, leads⟩⟩
      apply ih
      · exact fun same => free (.inl (by rwa [EnvValue.cross_eq] at same))
      · rw [EnvValue.cross_eq, Rebindings.mentions_compose, Rebindings.mentions_compose]
        rintro ((here | inside) | across)
        · exact unmentioned here
        · exact free (.inr (.inl inside))
        · exact free (.inr (.inr across))
    · have parted : p ≠ gate := fun same => new ⟨_, .inl (same ▸ held)⟩
      exact ih { view with env := p } parted unmentioned _

end Gate

/-! ## An environment that has nothing but a reference -/

section Gateway
variable {owner : Option NodeId} {thunk : EnvThunk} {crossing : Crossing} {value : EnvValue}

theorem scope?_gateway_others (other : e ≠ ⟨envs.size⟩) :
    (envs.withGateway owner thunk crossing value).scope? e = envs.scope? e := by
  have raw : e.raw ≠ envs.size := fun same => other (by cases e; cases same; rfl)
  have referred : ((envs.create none owner).2.addReference ⟨envs.size⟩ thunk crossing).2.scope? e =
      (envs.create none owner).2.scope? e := by
    unfold addReference
    split
    · rfl
    · exact (scope?_modify _ _ _ _).trans (if_neg other)
  calc (envs.withGateway owner thunk crossing value).scope? e
      = ((envs.create none owner).2.addReference ⟨envs.size⟩ thunk crossing).2.scope? e :=
        (scope?_modify _ _ _ _).trans (if_neg other)
    _ = (envs.create none owner).2.scope? e := referred
    _ = envs.scope? e := by rw [scope?_create, if_neg raw]

/-- It has the reference unless it is the empty environment, which refuses it. -/
theorem scope?_gateway :
    (envs.withGateway owner thunk crossing value).scope? ⟨envs.size⟩ =
      some (if (⟨envs.size⟩ : EnvId) = EnvId.empty then .opened none owner
        else (Scope.opened none owner).refer ⟨thunk, crossing, .resolved value⟩) := by
  have opened : (envs.create none owner).2.scope? ⟨envs.size⟩ = some (.opened none owner) := by
    rw [scope?_create, if_pos rfl]
    rfl
  refine ((scope?_modify _ _ _ _).trans (if_pos rfl)).trans ?_
  by_cases nowhere : (⟨envs.size⟩ : EnvId) = EnvId.empty
  · have refused : (envs.create none owner).2.refusal? ⟨envs.size⟩ = some .emptyEnv :=
      if_pos nowhere
    have referred : ((envs.create none owner).2.addReference ⟨envs.size⟩ thunk crossing).2.scope?
        ⟨envs.size⟩ = some (.opened none owner) := by
      rw [addReference, refused]
      exact opened
    rw [if_pos nowhere]
    exact (congrArg _ referred).trans rfl
  · have known : envs.size < (envs.create none owner).2.size := by simp [size, create]
    have allowed : (envs.create none owner).2.refusal? ⟨envs.size⟩ = none :=
      (if_neg nowhere).trans (if_pos known)
    have referred : ((envs.create none owner).2.addReference ⟨envs.size⟩ thunk crossing).2.scope?
        ⟨envs.size⟩ = some ((Scope.opened none owner).refer ⟨thunk, crossing, .unresolved⟩) := by
      rw [addReference, allowed]
      exact (scope?_modify _ _ _ _).trans (by rw [if_pos rfl, opened]; rfl)
    rw [if_neg nowhere]
    exact (congrArg _ referred).trans rfl

theorem gateway_resolved (resolved : envs.AllResolved) :
    (envs.withGateway owner thunk crossing value).AllResolved := by
  intro e i r held
  by_cases here : e = ⟨envs.size⟩
  · rw [here, reference?_eq, scope?_gateway, Option.bind_some] at held
    split at held
    · exact nomatch (show (#[] : Array Reference)[i]? = some r from held)
    · have among : r ∈ #[(⟨thunk, crossing, .resolved value⟩ : Reference)] :=
        Array.mem_of_getElem? held
      exact ⟨value, by rw [Array.mem_singleton.1 among]⟩
  · rw [reference?_eq, scope?_gateway_others here, ← reference?_eq] at held
    exact resolved e i r held

theorem size_gateway : (envs.withGateway owner thunk crossing value).size = envs.size + 1 := by
  simp only [withGateway, setState, addReference, create]
  split <;> simp [size]

theorem direct_gateway (view : EnvValue) :
    (envs.withGateway owner thunk crossing value).direct q view ⟨envs.size⟩ = [] := by
  have unbound : (envs.withGateway owner thunk crossing value).newestFirst ⟨envs.size⟩ q.symbol =
      [] := by
    have bare := Scope.newestFirst_opened none owner q.symbol
    simp only [newestFirst, scope?_gateway]
    split <;> exact bare
  simp [direct, unbound]

theorem next_gateway (real : (⟨envs.size⟩ : EnvId) ≠ EnvId.empty) (view : EnvValue) :
    (envs.withGateway owner thunk crossing value).next view ⟨envs.size⟩ =
      [view.cross crossing value] := by
  simp only [next, references, parent, scope?_gateway, if_neg real]
  rfl

/-- From the new environment a search goes nowhere but across the reference. -/
theorem sought_gateway (room : Nat) :
    (envs.withGateway owner thunk crossing value).sought q (room + 1) (.plain ⟨envs.size⟩) [] =
      envs.sought q room ((EnvValue.plain ⟨envs.size⟩).cross crossing value) [] := by
  let plain : EnvValue := .plain ⟨envs.size⟩
  by_cases nowhere : plain.place = .empty
  · have size : envs.size = 0 := congrArg (·.raw) nowhere
    have without (e : EnvId) : envs.scope? e = none :=
      Array.getElem?_eq_none (size.trans_le (Nat.zero_le e.raw))
    rw [sought_nowhere nowhere, sought_unknown (without _)]
  · rw [sought_succ nowhere List.not_mem_nil]
    show direct _ q plain ⟨envs.size⟩ ++ (next _ plain ⟨envs.size⟩).flatMap _ = _
    rw [direct_gateway, next_gateway nowhere, List.nil_append, List.flatMap_singleton]
    exact sought_behind (fun e => scope?_gateway_others) (scope?_next rfl) room _ []

/-- To other views it makes no difference that the environment is there, unless something
else leads to it. -/
theorem sought_past_gateway (new : ¬envs.Mentions ⟨envs.size⟩) (same : view.env = value.env)
    (unmentioned : ¬view.rebindings.Mentions ⟨envs.size⟩)
    (inside : ¬value.rebindings.Mentions ⟨envs.size⟩)
    (across : ¬crossing.rebindings.Mentions ⟨envs.size⟩) (room : Nat) :
    (envs.withGateway owner thunk crossing value).sought q room view [] =
      envs.sought q room view [] := by
  by_cases apart : view.env = ⟨envs.size⟩
  · -- the reference leads back to where it is
    have here : view.place = ⟨envs.size⟩ := (Rebindings.standIn_iff unmentioned).2 apart
    have back : (view.cross crossing value).place = ⟨envs.size⟩ := by
      rw [EnvValue.cross_eq]
      refine (Rebindings.standIn_iff ?_).2 (same.symm.trans apart)
      simp only [Rebindings.mentions_compose, not_or]
      exact ⟨⟨unmentioned, inside⟩, across⟩
    have unknown : envs.scope? view.place = none := scope?_next (congrArg (·.raw) here)
    rw [sought_unknown unknown]
    cases room with
    | zero => rfl
    | succ room =>
      by_cases nowhere : view.place = .empty
      · exact sought_nowhere nowhere _
      · rw [sought_succ nowhere List.not_mem_nil, here, direct_gateway,
          next_gateway (here ▸ nowhere), List.nil_append, List.flatMap_singleton]
        exact sought_visited (List.mem_singleton.2 back) room
  · exact sought_apart (fun e => scope?_gateway_others) new room view apart unmentioned []

end Gateway

end EnvStore

/-- A view that has made a crossing: its replacement is the last one, and its metadata joins
what the view starts with. -/
def EnvValue.extended (view : EnvValue) (crossing : Crossing) : EnvValue where
  env := view.env
  metadata := view.metadata.combine crossing.metadata
  rebindings :=
    match crossing.rebind with
    | some (old, new) => view.rebindings.push old new
    | none => view.rebindings

theorem EnvValue.plain_cross (e : EnvId) (crossing : Crossing) (value : EnvValue) :
    (EnvValue.plain e).cross crossing value = value.extended crossing := by
  simp only [plain, cross, Metadata.empty_combine, Rebindings.none_compose,
    Metadata.combine_comm crossing.metadata]
  rfl

/-- A crossing equals an extended view. Where all references are resolved, let there be one more
environment, with neither parent nor bindings, whose only reference is resolved to `value`.
A lookup from there finds what was found, before it was there, from the view that `value` is
with the crossing's replacement made after its own and the crossing's metadata joined to its
own. If the environment is new, so that nothing else mentions it, the same is still found from
that view. -/
theorem lookup_across {S : Setting} {s : Session} (resolved : s.envs.AllResolved)
    (owner : Option NodeId) (thunk : EnvThunk) (crossing : Crossing) (value : EnvValue)
    (symbol : Symbol) (require : Metadata) :
    let gate : EnvId := (s.envs.create none owner).1
    let t : Session := { s with envs := s.envs.withGateway owner thunk crossing value }
    let view : EnvValue := value.extended crossing
    ∃ found : Array Entity, ∀ depth > t.envs.size,
      (Machine.upTo S depth).lookup (.plain gate) symbol require t = (.ok found, t) ∧
      (Machine.upTo S depth).lookup view symbol require s = (.ok found, s) ∧
      (¬s.envs.Mentions gate → ¬value.rebindings.Mentions gate →
        ¬crossing.rebindings.Mentions gate →
          (Machine.upTo S depth).lookup view symbol require t = (.ok found, t)) := by
  intro gate t view
  let q : LookupQuery := ⟨symbol, require, false⟩
  have size : t.envs.size = s.envs.size + 1 := EnvStore.size_gateway
  have crossed : (EnvValue.plain gate).cross crossing value = view := EnvValue.plain_cross _ _ _
  have known : t.envs.AllResolved := EnvStore.gateway_resolved resolved
  have there : t.envs.sought q (t.envs.size + 1) (.plain gate) [] =
      s.envs.sought q (s.envs.size + 1) view [] := by
    rw [size, ← crossed]
    exact EnvStore.sought_gateway _
  have enough : s.envs.unvisited [] < s.envs.size + 1 :=
    Nat.lt_succ_of_le (Nat.le_of_eq s.envs.unvisited_nil)
  refine ⟨(s.envs.sought q (s.envs.size + 1) view []).toArray, fun depth deep => ⟨?_, ?_, ?_⟩⟩
  · rw [← there]
    exact lookup_resolved known (.plain gate) symbol require deep
  · exact lookup_resolved resolved view symbol require (by omega)
  · intro new inside across
    have unmentioned : ¬view.rebindings.Mentions gate := by
      rw [← crossed, EnvValue.cross_eq]
      simp only [Rebindings.mentions_compose, not_or]
      exact ⟨⟨Rebindings.none_mentions gate, inside⟩, across⟩
    have same : t.envs.sought q (t.envs.size + 1) view [] =
        s.envs.sought q (s.envs.size + 1) view [] := by
      have outcome : view.env = value.env := rfl
      rw [size, ← EnvStore.sought_enough enough (Nat.le_succ _)]
      exact EnvStore.sought_past_gateway new outcome unmentioned inside across _
    rw [← same]
    exact lookup_resolved known view symbol require deep

theorem redirecting_unmentioned : ¬EnvStore.redirecting.Mentions ⟨5⟩ := by
  rintro ⟨e, held | ⟨i, r, value, held, known, leads⟩⟩
  · obtain ⟨_ | _ | _ | _ | _ | raw⟩ := e <;> cases held
  · obtain ⟨_ | _ | _ | _ | _ | raw⟩ := e
    case succ.zero =>
      rcases i with _ | i
      · cases held
        cases known
        rcases leads with leads | ⟨_, mem, -⟩ | ⟨_, mem, leads⟩
        · cases leads
        · cases mem
        · cases List.mem_singleton.1 mem
          rcases leads with leads | leads <;> cases leads
      · exact nomatch held
    all_goals exact nomatch (show (#[] : Array Reference)[i]? = some r from held)

/-- The second environment is seen across a reference behind which the fourth one stands in for
its parent. -/
theorem lookup_across_of_redirecting :
    let S : Setting := ⟨.leaves #[], .standard⟩
    let s : Session := { Session.new (.new none) .standard .absent with envs := .redirecting }
    let crossing : Crossing := ⟨.ofNat 1, some (⟨3⟩, ⟨4⟩)⟩
    let value : EnvValue := .plain ⟨2⟩
    let t : Session :=
      { s with envs := s.envs.withGateway none (.source (.env value)) crossing value }
    let view : EnvValue := ⟨⟨2⟩, Rebindings.none.push ⟨3⟩ ⟨4⟩, .ofNat 1⟩
    let found : Array Entity := #[⟨⟨2⟩, ⟨.ofNat 1, Rebindings.none.push ⟨3⟩ ⟨4⟩⟩⟩]
    s.envs.AllResolved ∧ t.envs.size = 6 ∧ ¬s.envs.Mentions ⟨5⟩ ∧
      ¬value.rebindings.Mentions ⟨5⟩ ∧ ¬crossing.rebindings.Mentions ⟨5⟩ ∧
      (Machine.upTo S 7).lookup (.plain ⟨5⟩) ⟨1⟩ .empty t = (.ok found, t) ∧
      (Machine.upTo S 7).lookup view ⟨1⟩ .empty s = (.ok found, s) ∧
      (Machine.upTo S 7).lookup view ⟨1⟩ .empty t = (.ok found, t) := by
  intro S s crossing value t view found
  have resolved : s.envs.AllResolved := redirecting_resolved
  have inside : ¬value.rebindings.Mentions ⟨5⟩ := Rebindings.none_mentions _
  have across : ¬crossing.rebindings.Mentions ⟨5⟩ := by
    rintro ⟨_, mem, leads⟩
    cases List.mem_singleton.1 mem
    rcases leads with leads | leads <;> cases leads
  have size : t.envs.size = 6 := EnvStore.size_gateway
  obtain ⟨-, bare₂, -, bound₄⟩ := newest_first_redirecting
  have second : s.envs.sought ⟨⟨1⟩, .empty, false⟩ 6 view [] =
      s.envs.sought ⟨⟨1⟩, .empty, false⟩ 5 { view with env := ⟨3⟩ } [⟨2⟩] := by
    refine (EnvStore.sought_succ (by decide) List.not_mem_nil 5).trans ?_
    rw [EnvStore.direct_eq]
    show ((s.envs.newestFirst ⟨2⟩ ⟨1⟩).map _).filter _ ++ _ = _
    rw [bare₂]
    exact List.append_nil _
  have fourth : s.envs.sought ⟨⟨1⟩, .empty, false⟩ 5 { view with env := ⟨3⟩ } [⟨2⟩] =
      found.toList := by
    refine (EnvStore.sought_succ (by decide) (by decide) 4).trans ?_
    rw [EnvStore.direct_eq]
    show ((s.envs.newestFirst ⟨4⟩ ⟨1⟩).map _).filter _ ++ _ = _
    have seen : ({ view with env := ⟨3⟩ } : EnvValue).see ⟨.bare ⟨2⟩, .empty⟩ =
      ⟨⟨2⟩, ⟨.ofNat 1, Rebindings.none.push ⟨3⟩ ⟨4⟩⟩⟩ := by decide
    rw [bound₄, List.map_singleton, seen, List.filter_cons_of_pos (by decide)]
    exact List.append_nil _
  obtain ⟨results, answers⟩ := lookup_across (S := S) resolved none (.source (.env value)) crossing
    value ⟨1⟩ .empty
  obtain ⟨there, here, still⟩ := answers 7 (by rw [size]; omega)
  have outcome : (Machine.upTo S 7).lookup view ⟨1⟩ .empty s = (.ok found, s) :=
    (lookup_resolved resolved view ⟨1⟩ .empty (by decide)).trans
      (congrArg (fun found : List Entity => (Except.ok found.toArray, s)) (second.trans fourth))
  have extended : value.extended crossing = view := by decide
  rw [extended] at here still
  have same : results = found := by
    rw [outcome] at here
    cases here
    rfl
  rw [same] at there still
  exact ⟨resolved, size, redirecting_unmentioned, inside, across, there, outcome,
    still redirecting_unmentioned inside across⟩

end Trellis
