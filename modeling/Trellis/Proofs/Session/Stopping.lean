import Trellis.Proofs.Session.Probing
import Trellis.Proofs.Session.Searches

/-! Searches that stop at the first result. Until something is found they do the same as a
search for all results; then that one goes on alone, and all it does is to add further
results, or to fail. So the first result is the head of all of them, whatever becomes of
the references behind it. -/
namespace Trellis

/-- Machines of which each one searches by way of the one before. Nothing is said about
how they call properties and resolve references. -/
structure Machine.Searches (machine : Nat → Machine) : Prop where
  ends : ∀ q view visiting found, (machine 0).search q view visiting found = throw .exhausted
  nests : ∀ n, (machine (n + 1)).search = EvalM.searchWith (machine n)

theorem Machine.up_to_searches (S : Setting) : Machine.Searches (Machine.upTo S) where
  ends _ _ _ _ := rfl
  nests _ := rfl

namespace EvalM
open SessionM

/-- Whatever an action gives starts with what was found before. -/
def Appends (found : Array Entity) (act : EvalM (Array Entity)) : Prop :=
  ∀ s all t, act s = (.ok all, t) → found.toList <+: all.toList

/-- How a search that stops at the first result compares with one that does not. As long
as nothing is found they do the same; once something is found it comes first in whatever
the other search gives. -/
inductive Heads : Except (Interrupt PropertyError) (Array Entity) × Session →
    Except (Interrupt PropertyError) (Array Entity) × Session → Prop
  | failed (e : Interrupt PropertyError) (t : Session) : Heads (.error e, t) (.error e, t)
  | nothing (t : Session) : Heads (.ok #[], t) (.ok #[], t)
  | found (head : first[0]? = some x)
      (leads : ∀ l u, all = (.ok l, u) → l[0]? = some x) : Heads (.ok first, t) all

section Appends
variable {m : Machine} {q : LookupQuery} {found more : Array Entity} {visiting : List EnvId}

theorem appends_refl (found : Array Entity) : Appends found (pure found) := by
  intro s all t ran
  cases ran
  exact List.prefix_refl _

theorem appends_trans {act : EvalM (Array Entity)} (first : found.toList <+: more.toList)
    (rest : Appends more act) : Appends found act :=
  fun s all t ran => first.trans (rest s all t ran)

theorem appends_bind {act : EvalM α} {next : α → EvalM (Array Entity)}
    (rest : ∀ s x t, act s = (.ok x, t) → Appends found (next x)) :
    Appends found (act >>= next) := by
  intro s all t ran
  obtain ⟨x, u, first, last⟩ := bind_ok ran
  exact rest s x u first u all t last

/-- What comes first goes on coming first when more is added. -/
theorem head_of_appends {act : EvalM (Array Entity)} (appends : Appends found act)
    (head : found[0]? = some x) (ran : act s = (.ok all, t)) : all[0]? = some x := by
  obtain ⟨rest, eq⟩ := appends s all t ran
  rw [← Array.getElem?_toList] at head ⊢
  rw [← eq, List.getElem?_append_left (List.getElem?_eq_some_iff.1 head).1]
  exact head

variable (searches : ∀ view visiting found, Appends found (m.search q view visiting found))
include searches

theorem search_references_appends (view : EnvValue) (env : EnvId) (visiting : List EnvId)
    (count i : Nat) (found : Array Entity) :
    Appends found (searchReferences m q view env visiting count i found) := by
  induction count generalizing i found with
  | zero => exact appends_refl found
  | succ count ih =>
    rw [searchReferences]
    refine appends_bind fun _ referenced _ _ => appends_bind fun _ r _ _ => ?_
    cases r with
    | none => exact ih _ _
    | some reference =>
      refine appends_bind fun s more t ran => ?_
      refine appends_trans (searches _ _ found s more t ran) ?_
      split
      · exact appends_refl more
      · exact ih _ _

end Appends

/-- What a search does in an environment after its own bindings and its references. -/
def searchParent (m : Machine) (q : LookupQuery) (view : EnvValue) (env : EnvId)
    (visiting : List EnvId) (found : Array Entity) : EvalM (Array Entity) := do
  match ← SessionM.read fun s => s.envs.parent env with
  | some parent => m.search q { view with env := parent } visiting found
  | none => return found

/-- What a search does in an environment after its own bindings. -/
def searchBeyond (m : Machine) (q : LookupQuery) (view : EnvValue) (env : EnvId)
    (visiting : List EnvId) (found : Array Entity) : EvalM (Array Entity) := do
  let count ← SessionM.read fun s => (s.envs.references env).size
  let found ← searchReferences m q view env visiting count 0 found
  if q.done found then return found else searchParent m q view env visiting found

theorem search_with_eq (m : Machine) (q : LookupQuery) (view : EnvValue) (visiting : List EnvId)
    (found : Array Entity) (s : Session) :
    searchWith m q view visiting found s =
      let env := view.rebindings.standIn view.env
      if env = .empty || visiting.contains env || q.done found then (.ok found, s)
      else if q.done (found ++ s.envs.direct q view env) then
        (.ok (found ++ s.envs.direct q view env), s)
      else searchBeyond m q view env (env :: visiting) (found ++ s.envs.direct q view env) s := by
  unfold searchWith
  dsimp only
  split
  · rfl
  · rw [run_bind, run_read]
    dsimp only
    split <;> rfl

section Appends
variable {m : Machine} {q : LookupQuery}
  (searches : ∀ view visiting found, Appends found (m.search q view visiting found))
include searches

theorem search_parent_appends (view : EnvValue) (env : EnvId) (visiting : List EnvId)
    (found : Array Entity) : Appends found (searchParent m q view env visiting found) := by
  refine appends_bind fun _ top _ _ => ?_
  cases top with
  | none => exact appends_refl found
  | some parent => exact searches _ _ _

theorem search_beyond_appends (view : EnvValue) (env : EnvId) (visiting : List EnvId)
    (found : Array Entity) : Appends found (searchBeyond m q view env visiting found) := by
  refine appends_bind fun _ count _ _ => appends_bind fun s more t ran => ?_
  refine appends_trans (search_references_appends searches _ _ _ _ _ found s more t ran) ?_
  split
  · exact appends_refl more
  · exact search_parent_appends searches _ _ _ more

theorem search_with_appends (view : EnvValue) (visiting : List EnvId) (found : Array Entity) :
    Appends found (searchWith m q view visiting found) := by
  intro s all t ran
  rw [search_with_eq] at ran
  dsimp only at ran
  have more : found.toList <+:
      (found ++ s.envs.direct q view (view.rebindings.standIn view.env)).toList := by
    rw [Array.toList_appendList]
    exact List.prefix_append _ _
  split at ran
  · cases ran
    exact List.prefix_refl _
  · split at ran
    · cases ran
      exact more
    · exact more.trans (search_beyond_appends searches _ _ _ _ s all t ran)

end Appends

/-! ## The first result is the head of all of them -/

/-- The first thing an environment itself has to offer is the head of all it has. -/
theorem direct_first (envs : EnvStore) (symbol : Symbol) (require : Metadata)
    (view : EnvValue) (env : EnvId) :
    envs.direct ⟨symbol, require, true⟩ view env =
      (envs.direct ⟨symbol, require, false⟩ view env).head?.toList := by
  unfold EnvStore.direct
  rw [if_pos rfl, if_neg Bool.false_ne_true, List.head?_filterMap]
  rfl

section Heads
variable {symbol : Symbol} {require : Metadata} {m : Machine} {s : Session}

/-- Both searches do the same thing first. -/
theorem heads_bind {act : EvalM α} {next next' : α → EvalM (Array Entity)}
    (rest : ∀ x t, Heads (next x t) (next' x t)) :
    Heads ((act >>= next) s) ((act >>= next') s) := by
  rw [run_bind, run_bind]
  rcases act s with ⟨e | x, t⟩
  · exact .failed e t
  · exact rest x t

/-- A search that found something is done if one result is enough, and otherwise goes on to
add to it. -/
theorem heads_then {act act' : EvalM (Array Entity)}
    {next next' : Array Entity → EvalM (Array Entity)}
    (before : Heads (act s) (act' s)) (rest : ∀ t, Heads (next #[] t) (next' #[] t))
    (adds : ∀ found, Appends found (next' found)) :
    Heads
      ((act >>= fun found => if LookupQuery.done ⟨symbol, require, true⟩ found
        then pure found else next found) s)
      ((act' >>= fun found => if LookupQuery.done ⟨symbol, require, false⟩ found
        then pure found else next' found) s) := by
  rw [run_bind, run_bind]
  generalize act s = one at before ⊢
  generalize act' s = every at before ⊢
  cases before with
  | failed e t => exact .failed e t
  | nothing t => exact rest t
  | @found first x every t head leads =>
    have some_ : LookupQuery.done ⟨symbol, require, true⟩ first = true := by
      simp [LookupQuery.done, Array.ne_empty_of_size_pos (Array.getElem?_eq_some_iff.1 head).1]
    simp only [some_, if_true]
    refine .found head fun l u ran => ?_
    rcases every with ⟨e | found, v⟩
    · cases ran
    · exact head_of_appends (adds found) (leads found v rfl) ran

variable
  (searches : ∀ view visiting s, Heads (m.search ⟨symbol, require, true⟩ view visiting #[] s)
    (m.search ⟨symbol, require, false⟩ view visiting #[] s))
  (adds : ∀ view visiting found, Appends found
    (m.search ⟨symbol, require, false⟩ view visiting found))
include searches

theorem search_parent_heads (view : EnvValue) (env : EnvId) (visiting : List EnvId) (s : Session) :
    Heads (searchParent m ⟨symbol, require, true⟩ view env visiting #[] s)
      (searchParent m ⟨symbol, require, false⟩ view env visiting #[] s) := by
  refine heads_bind fun top t => ?_
  cases top with
  | none => exact .nothing t
  | some parent => exact searches _ _ t

include adds

theorem search_references_heads (view : EnvValue) (env : EnvId) (visiting : List EnvId)
    (count i : Nat) (s : Session) :
    Heads (searchReferences m ⟨symbol, require, true⟩ view env visiting count i #[] s)
      (searchReferences m ⟨symbol, require, false⟩ view env visiting count i #[] s) := by
  induction count generalizing i s with
  | zero => exact .nothing s
  | succ count ih =>
    rw [searchReferences, searchReferences]
    refine heads_bind fun referenced t => heads_bind fun r u => ?_
    cases r with
    | none => exact ih (i + 1) u
    | some reference =>
      exact heads_then (searches _ _ u) (ih (i + 1)) fun found =>
        search_references_appends adds _ _ _ _ _ found

theorem search_beyond_heads (view : EnvValue) (env : EnvId) (visiting : List EnvId) (s : Session) :
    Heads (searchBeyond m ⟨symbol, require, true⟩ view env visiting #[] s)
      (searchBeyond m ⟨symbol, require, false⟩ view env visiting #[] s) :=
  heads_bind fun count t => heads_then (search_references_heads searches adds _ _ _ count 0 t)
    (search_parent_heads searches _ _ _) fun found => search_parent_appends adds _ _ _ found

theorem search_with_heads (view : EnvValue) (visiting : List EnvId) (s : Session) :
    Heads (searchWith m ⟨symbol, require, true⟩ view visiting #[] s)
      (searchWith m ⟨symbol, require, false⟩ view visiting #[] s) := by
  have none_ (first : Bool) : LookupQuery.done ⟨symbol, require, first⟩ #[] = false :=
    Bool.and_false first
  rw [search_with_eq, search_with_eq]
  simp only [none_, Bool.or_false]
  by_cases ends : (decide (view.rebindings.standIn view.env = .empty) ||
      visiting.contains (view.rebindings.standIn view.env)) = true
  · rw [if_pos ends, if_pos ends]
    exact .nothing s
  · rw [if_neg ends, if_neg ends, direct_first]
    cases own : s.envs.direct ⟨symbol, require, false⟩ view (view.rebindings.standIn view.env) with
    | nil =>
      have still : (#[] : Array Entity) ++ ([] : List Entity) = #[] := rfl
      simp only [List.head?_nil, Option.toList_none, still, none_, Bool.false_eq_true, if_false]
      exact search_beyond_heads searches adds _ _ _ s
    | cons x rest =>
      refine .found (x := x) (by simp) fun l u ran => ?_
      exact head_of_appends (search_beyond_appends adds _ _ _ _) (by simp) ran

end Heads

/-- Machines that search by way of one another search for the first result as they search
for all of them. -/
theorem searches_heads {machine : Nat → Machine} (searches : Machine.Searches machine)
    (symbol : Symbol) (require : Metadata) (depth : Nat) :
    (∀ view visiting found, Appends found
      ((machine depth).search ⟨symbol, require, false⟩ view visiting found)) ∧
    ∀ view visiting s, Heads ((machine depth).search ⟨symbol, require, true⟩ view visiting #[] s)
      ((machine depth).search ⟨symbol, require, false⟩ view visiting #[] s) := by
  induction depth with
  | zero =>
    refine ⟨fun _ _ _ s all t ran => ?_, fun _ _ s => ?_⟩
    · rw [searches.ends] at ran
      cases ran
    · rw [searches.ends, searches.ends]
      exact .failed _ s
  | succ depth ih =>
    rw [searches.nests]
    exact ⟨search_with_appends ih.1, search_with_heads ih.2 ih.1⟩

end EvalM

/-- **The first result is the head of all results.** Whatever resolving a reference does to
the session, where a search for all results succeeds the search for the first one succeeds
with the head of them, and a failure of the search for the first one is also one of the
search for all. -/
theorem lookup_first_heads_lookup {machine : Nat → Machine} (searches : Machine.Searches machine)
    (depth : Nat) (view : EnvValue) (symbol : Symbol) (require : Metadata) (s : Session) :
    (∀ all t, (machine depth).lookup view symbol require s = (.ok all, t) →
      ∃ u, (machine depth).lookupFirst view symbol require s = (.ok all[0]?, u)) ∧
    ∀ e t, (machine depth).lookupFirst view symbol require s = (.error e, t) →
      (machine depth).lookup view symbol require s = (.error e, t) := by
  have heads := (EvalM.searches_heads searches symbol require depth).2 view [] s
  unfold Machine.lookup Machine.lookupFirst
  rw [SessionM.run_bind]
  generalize (machine depth).search ⟨symbol, require, true⟩ view [] #[] s = one at heads ⊢
  generalize (machine depth).search ⟨symbol, require, false⟩ view [] #[] s = every at heads ⊢
  cases heads with
  | failed e t =>
    refine ⟨fun _ _ ran => (nomatch ran), fun e' u failed => ?_⟩
    cases failed
    rfl
  | nothing t =>
    refine ⟨fun all u ran => ?_, fun _ _ failed => (nomatch failed)⟩
    cases ran
    exact ⟨t, rfl⟩
  | @found first x every t head leads =>
    refine ⟨fun all u ran => ⟨t, ?_⟩, fun _ _ failed => (nomatch failed)⟩
    rw [leads all u ran, ← head]
    rfl

/-- Two environments that refer to each other are searched to the end; the reference of
another environment cannot be resolved. -/
theorem lookup_first_heads_lookup_of_references :
    let S : Setting := ⟨.leaves #[], .standard⟩
    let start : Session := Session.new (.new none) .standard .absent
    let broken : Reference := ⟨.custom (.done (.error (.of .nullReceiver))), .none, .unresolved⟩
    let s : Session := { start with envs := .facing }
    let t : Session := { start with envs :=
      ⟨#[.opened none none, (Scope.opened none none).refer broken]⟩ }
    let m := Machine.upTo S 4
    (∃ all u, m.lookup (.plain ⟨1⟩) ⟨1⟩ .empty s = (.ok all, s) ∧
      m.lookupFirst (.plain ⟨1⟩) ⟨1⟩ .empty s = (.ok all[0]?, u)) ∧
    ∃ e u, m.lookupFirst (.plain ⟨1⟩) ⟨1⟩ .empty t = (.error e, u) ∧
      m.lookup (.plain ⟨1⟩) ⟨1⟩ .empty t = (.error e, u) := by
  intro S start broken s t m
  have agrees := lookup_first_heads_lookup (Machine.up_to_searches S) 4 (.plain ⟨1⟩) ⟨1⟩ .empty
  have resolved : s.envs.AllResolved := facing_resolved
  have answered := lookup_resolved (S := S) resolved (.plain ⟨1⟩) ⟨1⟩ .empty
    (show 4 > s.envs.size by decide)
  obtain ⟨u, first⟩ := (agrees s).1 _ _ answered
  obtain ⟨after, refused⟩ : ∃ after, (Machine.upTo S 3).resolve ⟨1⟩ 0 t =
      (.error (.failure (.of .nullReceiver)), after) := ⟨_, rfl⟩
  have bare : t.envs.newestFirst ⟨1⟩ ⟨1⟩ = [] := Scope.newestFirst_opened none none ⟨1⟩
  have searched (q : LookupQuery) (same : q.symbol = ⟨1⟩) : m.search q (.plain ⟨1⟩) [] #[] t =
      (.error (.failure (.of .nullReceiver)), after) :=
    search_with_refused (by decide) (same ▸ bare) rfl refused
  have failed : m.lookupFirst (.plain ⟨1⟩) ⟨1⟩ .empty t =
      (.error (.failure (.of .nullReceiver)), after) := by
    unfold Machine.lookupFirst
    rw [SessionM.run_bind, searched _ rfl]
  exact ⟨⟨_, u, answered, first⟩, _, _, failed, (agrees t).2 _ _ failed⟩

end Trellis
