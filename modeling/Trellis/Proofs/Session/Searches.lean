import Mathlib.Data.Finset.Card
import Mathlib.Logic.Relation
import Trellis.Proofs.Scope
import Trellis.Proofs.Session.Loading

/-! What a search finds where every reference is resolved. It only reads the environments
then, and a search does not come back to an environment it is in the middle of; so it is
nested no deeper than there are environments. Nothing is lost by that: an environment
that is reached by coming back to an earlier one is reached without doing so. -/
namespace Trellis
open Relation

/-- The view through a reference, once it is resolved. -/
def EnvValue.through (view : EnvValue) (r : Reference) : Option EnvValue :=
  match r.state with
  | .resolved value => some (view.cross r.crossing value)
  | _ => none

namespace EnvStore
variable {envs : EnvStore} {q : LookupQuery} {e f g : EnvId} {visiting : List EnvId}
  {view : EnvValue} {room : Nat}

/-- The views on the environments that come after an environment, in the order in which
they are searched. -/
def next (envs : EnvStore) (view : EnvValue) (e : EnvId) : List EnvValue :=
  (envs.references e).toList.filterMap view.through ++
    (envs.parent e).toList.map ({ view with env := · })

/-- What a search for all results finds when it is nested at most `room` deep. -/
def sought (envs : EnvStore) (q : LookupQuery) : (room : Nat) → EnvValue → List EnvId → List Entity
  | 0, _, _ => []
  | room + 1, view, visiting =>
    let env := view.rebindings.standIn view.env
    if env = .empty ∨ env ∈ visiting then []
    else envs.direct q view env ++
      (envs.next view env).flatMap fun beyond => envs.sought q room beyond (env :: visiting)

/-! ## How deep a search is nested -/

/-- How many environments are not being searched. -/
def unvisited (envs : EnvStore) (visiting : List EnvId) : Nat :=
  ((Finset.range envs.size).filter fun i => (⟨i⟩ : EnvId) ∉ visiting).card

theorem unvisited_nil (envs : EnvStore) : envs.unvisited [] = envs.size := by
  simp [unvisited]

theorem unvisited_cons (known : e.raw < envs.size) (new : e ∉ visiting) :
    envs.unvisited (e :: visiting) < envs.unvisited visiting := by
  refine Finset.card_lt_card ((Finset.ssubset_iff_of_subset fun i mem => ?_).2 ⟨e.raw, ?_, ?_⟩)
  · obtain ⟨inside, free⟩ := Finset.mem_filter.1 mem
    exact Finset.mem_filter.2 ⟨inside, fun visited => free (List.mem_cons_of_mem e visited)⟩
  · exact Finset.mem_filter.2 ⟨Finset.mem_range.2 known, new⟩
  · exact fun mem => (Finset.mem_filter.1 mem).2 List.mem_cons_self

theorem known_of_reference (held : envs.reference? e i = some r) : e.raw < envs.size := by
  rw [reference?_eq] at held
  obtain ⟨scope, found, -⟩ := Option.bind_eq_some_iff.1 held
  exact (Array.getElem?_eq_some_iff.1 found).1

theorem known_of_parent (held : envs.parent e = some p) : e.raw < envs.size := by
  obtain ⟨scope, found, -⟩ := Option.bind_eq_some_iff.1 held
  exact (Array.getElem?_eq_some_iff.1 found).1

theorem cross_mem_next (held : envs.reference? e i = some r) (known : r.state = .resolved value) :
    view.cross r.crossing value ∈ envs.next view e := by
  refine List.mem_append_left _ (List.mem_filterMap.2 ⟨r, ?_, ?_⟩)
  · exact Array.mem_toList_iff.2 (Array.mem_of_getElem? held)
  · rw [EnvValue.through, known]

theorem parent_mem_next (held : envs.parent e = some p) :
    { view with env := p } ∈ envs.next view e :=
  List.mem_append_right _ (List.mem_map.2 ⟨p, by simp [held], rfl⟩)

/-- What comes after an environment is behind one of its references, or its parent. -/
theorem next_cases (mem : beyond ∈ envs.next view e) :
    (∃ i r value, envs.reference? e i = some r ∧ r.state = .resolved value ∧
      beyond = view.cross r.crossing value) ∨
    ∃ p, envs.parent e = some p ∧ beyond = { view with env := p } := by
  rcases List.mem_append.1 mem with mem | mem
  · obtain ⟨r, mem, crossed⟩ := List.mem_filterMap.1 mem
    obtain ⟨i, here⟩ := List.mem_iff_getElem?.1 mem
    unfold EnvValue.through at crossed
    split at crossed
    · next value known =>
      cases crossed
      exact .inl ⟨i, r, value, by rwa [Array.getElem?_toList] at here, known, rfl⟩
    · cases crossed
  · obtain ⟨p, held, rfl⟩ := List.mem_map.1 mem
    exact .inr ⟨p, by simpa using held, rfl⟩

theorem known_of_next (mem : beyond ∈ envs.next view e) : e.raw < envs.size := by
  rcases next_cases mem with ⟨i, r, value, held, -⟩ | ⟨p, held, -⟩
  · exact known_of_reference held
  · exact known_of_parent held

/-- More room than there are environments left makes no difference. -/
theorem sought_more (enough : envs.unvisited visiting < room) :
    envs.sought q (room + 1) view visiting = envs.sought q room view visiting := by
  induction room generalizing view visiting with
  | zero => omega
  | succ room ih =>
    rw [sought, sought]
    split
    · rfl
    · next ends =>
      refine congrArg (envs.direct q view _ ++ ·) (List.flatMap_congr fun beyond mem => ih ?_)
      exact Nat.lt_of_lt_of_le (unvisited_cons (known_of_next mem) (not_or.1 ends).2)
        (Nat.le_of_lt_succ enough)

theorem sought_enough (enough : envs.unvisited visiting < room) (more : room ≤ depth) :
    envs.sought q depth view visiting = envs.sought q room view visiting := by
  induction depth, more using Nat.le_induction with
  | base => rfl
  | succ depth more ih => rw [sought_more (Nat.lt_of_lt_of_le enough more), ih]

end EnvStore

namespace EvalM
open SessionM
variable {S : Setting} {m : Machine} {q : LookupQuery} {view : EnvValue} {e : EnvId}
  {visiting : List EnvId} {s : Session}

theorem append_found (found : Array Entity) (more rest : List Entity) :
    found ++ more ++ rest = found ++ (more ++ rest) := Array.ext' (by simp)

/-- Where references are resolved already, to search them is to search the environments
behind them one after the other. -/
theorem search_references_resolved (all : q.first = false) (resolved : s.envs.AllResolved)
    {results : EnvValue → List Entity}
    (each : ∀ i r value, s.envs.reference? e i = some r → r.state = .resolved value →
      m.resolve e i s = (.ok value, s) ∧
      ∀ found, m.search q (view.cross r.crossing value) visiting found s =
        (.ok (found ++ results (view.cross r.crossing value)), s))
    (count i : Nat) (rest : i + count = (s.envs.references e).size) (found : Array Entity) :
    searchReferences m q view e visiting count i found s =
      (.ok (found ++ (((s.envs.references e).toList.drop i).filterMap view.through).flatMap
        results), s) := by
  induction count generalizing i found with
  | zero =>
    have done : (s.envs.references e).toList.drop i = [] :=
      List.drop_eq_nil_of_le (by rw [Array.length_toList]; omega)
    simp [searchReferences, run_pure, done]
  | succ count ih =>
    have inside : i < (s.envs.references e).size := by omega
    have held : s.envs.reference? e i = some (s.envs.references e)[i] :=
      Array.getElem?_eq_getElem inside
    obtain ⟨value, known⟩ := resolved e i _ held
    obtain ⟨given, searched⟩ := each i _ value held known
    have first : (s.envs.references e).toList.drop i =
        (s.envs.references e)[i] :: (s.envs.references e).toList.drop (i + 1) := by
      rw [← Array.getElem_toList inside]
      exact List.drop_eq_getElem_cons (by simpa using inside)
    have through : view.through (s.envs.references e)[i] =
        some (view.cross (s.envs.references e)[i].crossing value) := by
      rw [EnvValue.through, known]
    rw [searchReferences, run_bind, given]
    dsimp only
    rw [run_bind, run_read, held]
    dsimp only
    rw [run_bind, searched, first, List.filterMap_cons, through]
    simp only [LookupQuery.done, all, Bool.false_and, Bool.false_eq_true, if_false]
    rw [ih (i + 1) (by omega), List.flatMap_cons, append_found]

/-- A search ends in the empty environment, and where it comes back. -/
theorem search_with_ended (ends : view.rebindings.standIn view.env = .empty ∨
    view.rebindings.standIn view.env ∈ visiting) (found : Array Entity) :
    searchWith m q view visiting found s = (.ok found, s) := by
  have ended : (decide (view.rebindings.standIn view.env = .empty) ||
      visiting.contains (view.rebindings.standIn view.env)) = true := by simpa using ends
  unfold searchWith
  simp only [ended, Bool.true_or, if_true, run_pure]

/-- A search that is to find everything goes on to everything that comes next. -/
theorem search_with_resolved (all : q.first = false) (resolved : s.envs.AllResolved)
    {results : EnvValue → List Entity} (here : view.rebindings.standIn view.env = e)
    (real : e ≠ .empty) (new : e ∉ visiting)
    (given : ∀ i r value, s.envs.reference? e i = some r → r.state = .resolved value →
      m.resolve e i s = (.ok value, s))
    (searched : ∀ beyond ∈ s.envs.next view e, ∀ found,
      m.search q beyond (e :: visiting) found s = (.ok (found ++ results beyond), s))
    (found : Array Entity) :
    searchWith m q view visiting found s =
      (.ok (found ++ (s.envs.direct q view e ++ (s.envs.next view e).flatMap results)), s) := by
  have references (found : Array Entity) := search_references_resolved all resolved
    (fun i r value held known => ⟨given i r value held known,
      searched _ (EnvStore.cross_mem_next held known)⟩) _ 0 (Nat.zero_add _) found
  unfold searchWith
  simp only [LookupQuery.done, all, here, real, List.contains_iff_mem.not.2 new, run_bind, run_read,
    Bool.false_and, decide_false, Bool.or_self, Bool.false_eq_true, if_false, references,
    List.drop_zero]
  rw [EnvStore.next, List.flatMap_append, ← List.append_assoc]
  cases top : s.envs.parent e with
  | none => simp [run_pure, append_found]
  | some p =>
    dsimp only
    rw [searched _ (EnvStore.parent_mem_next top)]
    simp [append_found]

/-- Where all references are resolved a search only reads. -/
theorem search_resolved (all : q.first = false) (resolved : s.envs.AllResolved) (depth : Nat)
    (view : EnvValue) (visiting : List EnvId) (room : s.envs.unvisited visiting < depth)
    (found : Array Entity) :
    (Machine.upTo S depth).search q view visiting found s =
      (.ok (found ++ s.envs.sought q depth view visiting), s) := by
  induction depth generalizing view visiting found with
  | zero => omega
  | succ depth ih =>
    show searchWith (.upTo S depth) q view visiting found s = _
    rw [EnvStore.sought]
    split
    · next ends =>
      rw [search_with_ended ends]
      exact congrArg (fun found => (Except.ok found, s)) (Array.ext' (by simp))
    · next ends =>
      rw [not_or] at ends
      have below (known : (view.rebindings.standIn view.env).raw < s.envs.size) :
          s.envs.unvisited (view.rebindings.standIn view.env :: visiting) < depth :=
        Nat.lt_of_lt_of_le (EnvStore.unvisited_cons known ends.2) (Nat.le_of_lt_succ room)
      refine search_with_resolved all resolved rfl ends.1 ends.2 (fun i r value held known => ?_)
        (fun beyond mem found => ih _ _ (below (EnvStore.known_of_next mem)) found) found
      obtain ⟨n, rfl⟩ : ∃ n, depth = n + 1 :=
        ⟨depth - 1, by have := below (EnvStore.known_of_reference held); omega⟩
      exact resolve_with_resolved held known

end EvalM

/-! ## What is reached -/

namespace EnvStore
variable {envs : EnvStore} {e f g : EnvId} {visiting : List EnvId} {view : EnvValue}

/-- The ways from an environment to another one: to its parent, and across its references.
None leads out of the empty environment. -/
inductive Leads (envs : EnvStore) : EnvId → EnvId → Prop
  | parent {a p : EnvId} (real : a ≠ .empty) (held : envs.parent a = some p) : envs.Leads a p
  | reference {a : EnvId} (real : a ≠ .empty) (held : envs.reference? a i = some r)
      (known : r.state = .resolved value) : envs.Leads a value.env

/-- The ways to environments that are not being searched. -/
def LeadsPast (envs : EnvStore) (visiting : List EnvId) (e f : EnvId) : Prop :=
  envs.Leads e f ∧ f ∉ visiting

/-- Whoever comes back to the beginning need not have left it so far. -/
theorem path_leaving (path : ReflTransGen (envs.LeadsPast visiting) e f) :
    f = e ∨ ∃ g, envs.LeadsPast (e :: visiting) e g ∧
      ReflTransGen (envs.LeadsPast (e :: visiting)) g f := by
  induction path with
  | refl => exact .inl rfl
  | @tail f f' _ last ih =>
    by_cases back : f' = e
    · exact .inl back
    · have on : envs.LeadsPast (e :: visiting) f f' :=
        ⟨last.1, fun mem => (List.mem_cons.1 mem).elim back last.2⟩
      rcases ih with rfl | ⟨g, first, rest⟩
      · exact .inr ⟨f', on, .refl⟩
      · exact .inr ⟨g, first, rest.tail on⟩

theorem path_narrower (path : ReflTransGen (envs.LeadsPast (e :: visiting)) g f) :
    ReflTransGen (envs.LeadsPast visiting) g f :=
  ReflTransGen.mono (fun _ _ way => ⟨way.1, fun mem => way.2 (List.mem_cons_of_mem e mem)⟩) _ _ path

theorem nowhere_of_empty (path : ReflTransGen (envs.LeadsPast visiting) .empty f) : f = .empty := by
  rcases ReflTransGen.cases_head path with rfl | ⟨g, way, -⟩
  · rfl
  · cases way.1 <;> contradiction

/-- Whether the symbol is bound to the node in the environment itself. -/
def Binds (envs : EnvStore) (e : EnvId) (symbol : Symbol) (n : NodeId) : Prop :=
  ∃ b ∈ envs.newestFirst e symbol, b.entity.node = n

/-- No reference carries rebindings, neither in its value nor across it. -/
def Straight (envs : EnvStore) : Prop :=
  ∀ e i r value, envs.reference? e i = some r → r.state = .resolved value →
    r.crossing.rebind = none ∧ value.rebindings = .none

theorem mem_direct (envs : EnvStore) (symbol : Symbol) (view : EnvValue) (e : EnvId) (n : NodeId) :
    n ∈ (envs.direct ⟨symbol, .empty, false⟩ view e).map (·.node) ↔ envs.Binds e symbol n := by
  simp [direct, EnvValue.offer, Metadata.contains_empty, EnvValue.see, Binds]

theorem leads_of_next (straight : envs.Straight) (real : e ≠ .empty)
    (plain : view.rebindings = .none) (mem : beyond ∈ envs.next view e) :
    envs.Leads e beyond.env ∧ beyond.rebindings = .none := by
  rcases next_cases mem with ⟨i, r, value, held, known, rfl⟩ | ⟨p, held, rfl⟩
  · obtain ⟨unrebound, bare⟩ := straight e i r value held known
    have way : envs.Leads e value.env := .reference real held known
    exact ⟨way, by simp [EnvValue.cross, unrebound, plain, bare, Rebindings.none_compose]⟩
  · exact ⟨.parent real held, plain⟩

theorem next_of_leads (way : envs.Leads e f) (view : EnvValue) :
    ∃ beyond ∈ envs.next view e, beyond.env = f := by
  cases way with
  | parent _ held => exact ⟨_, parent_mem_next held, rfl⟩
  | reference _ held known => exact ⟨_, cross_mem_next held known, rfl⟩

/-- What a search finds past the environments it is in the middle of. -/
theorem mem_sought (straight : envs.Straight) {symbol : Symbol} {n : NodeId} (room : Nat)
    (enough : envs.unvisited visiting < room) (plain : view.rebindings = .none) :
    n ∈ (envs.sought ⟨symbol, .empty, false⟩ room view visiting).map (·.node) ↔
      view.env ∉ visiting ∧ ∃ f ≠ .empty, ReflTransGen (envs.LeadsPast visiting) view.env f ∧
        envs.Binds f symbol n := by
  induction room generalizing view visiting with
  | zero => omega
  | succ room ih =>
    have here : view.rebindings.standIn view.env = view.env := by rw [plain]; rfl
    have below (known : view.env.raw < envs.size) (new : view.env ∉ visiting) :
        envs.unvisited (view.env :: visiting) < room :=
      Nat.lt_of_lt_of_le (unvisited_cons known new) (Nat.le_of_lt_succ enough)
    rw [sought, here]
    split
    · next ends =>
      refine ⟨fun mem => (List.not_mem_nil mem).elim, fun ⟨new, f, real, path, _⟩ => ?_⟩
      rw [or_iff_left new] at ends
      rw [ends] at path
      exact absurd (nowhere_of_empty path) real
    · next ends =>
      obtain ⟨real, new⟩ := not_or.1 ends
      have step (beyond : EnvValue) (mem : beyond ∈ envs.next view view.env) :=
        ih (below (known_of_next mem) new) (leads_of_next straight real plain mem).2
      rw [List.map_append, List.mem_append, mem_direct, List.map_flatMap, List.mem_flatMap]
      constructor
      · rintro (own | ⟨beyond, mem, found⟩)
        · exact ⟨new, view.env, real, .refl, own⟩
        · obtain ⟨past, f, there, path, bound⟩ := (step beyond mem).1 found
          have first : envs.LeadsPast visiting view.env beyond.env :=
            ⟨(leads_of_next straight real plain mem).1,
              fun visited => past (List.mem_cons_of_mem _ visited)⟩
          exact ⟨new, f, there, .head first (path_narrower path), bound⟩
      · rintro ⟨-, f, there, path, bound⟩
        rcases path_leaving path with rfl | ⟨g, ⟨way, past⟩, rest⟩
        · exact .inl bound
        · obtain ⟨beyond, mem, rfl⟩ := next_of_leads way view
          exact .inr ⟨beyond, mem, (step beyond mem).2 ⟨past, f, there, rest, bound⟩⟩

end EnvStore

variable {S : Setting} {s : Session}

/-- Where all references are resolved, a search for everything that may be nested deeply enough
succeeds. -/
theorem lookup_resolved (resolved : s.envs.AllResolved) (view : EnvValue) (symbol : Symbol)
    (require : Metadata) (deep : depth > s.envs.size) :
    (Machine.upTo S depth).lookup view symbol require s =
      (.ok (s.envs.sought ⟨symbol, require, false⟩ (s.envs.size + 1) view []).toArray, s) := by
  have room : s.envs.unvisited [] < s.envs.size + 1 :=
    Nat.lt_succ_of_le (Nat.le_of_eq s.envs.unvisited_nil)
  have answered := EvalM.search_resolved (S := S) (q := ⟨symbol, require, false⟩) rfl resolved
    depth view [] (Nat.lt_of_lt_of_le room deep) #[]
  rw [EnvStore.sought_enough room deep] at answered
  exact answered.trans (congrArg (fun found => (Except.ok found, s)) (Array.ext' (by simp)))

/-- Where all references are resolved and none of them rebinds anything, a search ends however
the environments lead back to one another, and it finds the nodes that the symbol is bound
to in any environment that is reached. -/
theorem lookup_finds_reachable (resolved : s.envs.AllResolved) (straight : s.envs.Straight)
    (view : EnvValue) (plain : view.rebindings = .none) (symbol : Symbol) :
    ∃ found : Array Entity,
      (∀ depth > s.envs.size,
        (Machine.upTo S depth).lookup view symbol .empty s = (.ok found, s)) ∧
      ∀ n, (∃ x ∈ found, x.node = n) ↔
        ∃ e ≠ .empty, ReflTransGen s.envs.Leads view.env e ∧ s.envs.Binds e symbol n := by
  have room : s.envs.unvisited [] < s.envs.size + 1 := by
    rw [EnvStore.unvisited_nil]
    exact Nat.lt_succ_self _
  let found := s.envs.sought ⟨symbol, .empty, false⟩ (s.envs.size + 1) view []
  have listed (n : NodeId) : n ∈ found.map (·.node) ↔ view.env ∉ [] ∧ ∃ f ≠ .empty,
      ReflTransGen (s.envs.LeadsPast []) view.env f ∧ s.envs.Binds f symbol n :=
    EnvStore.mem_sought straight _ room plain
  have anywhere : s.envs.LeadsPast [] = s.envs.Leads := by
    funext e f
    simp [EnvStore.LeadsPast]
  refine ⟨found.toArray, fun depth deep => lookup_resolved resolved view symbol .empty deep,
    fun n => ?_⟩
  rw [anywhere] at listed
  simpa [found] using listed n

/-- A resolved reference to an environment. -/
def Reference.to (env : EnvId) : Reference :=
  ⟨.source (.env (.plain env)), .none, .resolved (.plain env)⟩

/-- Two environments that refer to each other; the symbol is bound in the second one, whose
parent is the first. -/
def EnvStore.facing : EnvStore :=
  ⟨#[.opened none none, (Scope.opened none none).refer (.to ⟨2⟩),
    ((Scope.opened (some ⟨1⟩) none).refer (.to ⟨1⟩)).bind ⟨1⟩ ⟨.bare ⟨0⟩, .empty⟩]⟩

theorem reference?_facing (held : EnvStore.facing.reference? e i = some r) :
    ∃ env, r = .to env := by
  obtain ⟨_ | _ | _ | raw⟩ := e
  · exact nomatch (show (#[] : Array Reference)[i]? = some r from held)
  · rcases i with _ | i
    · exact ⟨⟨2⟩, (Option.some.inj held).symm⟩
    · exact nomatch held
  · rcases i with _ | i
    · exact ⟨⟨1⟩, (Option.some.inj held).symm⟩
    · exact nomatch held
  · exact nomatch (show (#[] : Array Reference)[i]? = some r from held)

theorem facing_resolved : EnvStore.facing.AllResolved := fun _ _ _ held => by
  obtain ⟨env, rfl⟩ := reference?_facing held
  exact ⟨_, rfl⟩

theorem newest_first_facing (e : EnvId) :
    EnvStore.facing.newestFirst e ⟨1⟩ = if e = ⟨2⟩ then [⟨.bare ⟨0⟩, .empty⟩] else [] := by
  obtain ⟨_ | _ | _ | raw⟩ := e
  · exact Scope.newestFirst_opened none none ⟨1⟩
  · exact Scope.newestFirst_opened none none ⟨1⟩
  · refine (Scope.newestFirst_bind _ ⟨1⟩ ⟨1⟩ _).trans ?_
    rw [if_pos rfl]
    exact congrArg (_ :: ·) (Scope.newestFirst_opened (some ⟨1⟩) none ⟨1⟩)
  · simp [EnvStore.newestFirst, EnvStore.scope?, EnvStore.facing]

theorem binds_facing : EnvStore.facing.Binds e ⟨1⟩ n ↔ e = ⟨2⟩ ∧ n = ⟨0⟩ := by
  rw [EnvStore.Binds, newest_first_facing]
  split
  · next there => simp [there, Entity.bare, eq_comm]
  · next elsewhere => simp [elsewhere]

/-- Where two environments refer to each other a search of the first one ends, and finds
exactly the node that is bound in the second. -/
theorem lookup_finds_reachable_of_facing :
    let S : Setting := ⟨.leaves #[], .standard⟩
    let s : Session := { Session.new (.new none) .standard .absent with envs := .facing }
    s.envs.AllResolved ∧ s.envs.Straight ∧
    ∃ found : Array Entity,
      (Machine.upTo S 4).lookup (.plain ⟨1⟩) ⟨1⟩ .empty s = (.ok found, s) ∧
      ∀ n, (∃ x ∈ found, x.node = n) ↔ n = ⟨0⟩ := by
  intro S s
  have resolved : s.envs.AllResolved := facing_resolved
  have straight : s.envs.Straight := fun e i r value held known => by
    obtain ⟨env, rfl⟩ := reference?_facing held
    cases known
    exact ⟨rfl, rfl⟩
  obtain ⟨found, answered, exactly⟩ :=
    lookup_finds_reachable (S := S) resolved straight (.plain ⟨1⟩) rfl ⟨1⟩
  have held : s.envs.reference? ⟨1⟩ 0 = some (.to ⟨2⟩) := rfl
  have way : s.envs.Leads ⟨1⟩ (EnvValue.plain ⟨2⟩).env := .reference (by decide) held rfl
  refine ⟨resolved, straight, found, answered 4 (by decide), fun n => (exactly n).trans ⟨?_, ?_⟩⟩
  · rintro ⟨e, -, -, bound⟩
    exact (binds_facing.1 bound).2
  · exact fun here => ⟨⟨2⟩, by decide, .single way, binds_facing.2 ⟨rfl, here⟩⟩

end Trellis
