import Trellis.Proofs.Solver.Solutions
import Trellis.Proofs.Solver.Watching

/-! Candidates only shrink. Whatever is answered, every change that a record of the search shows
leaves a variable with some of the candidates of each earlier table on the path, in their order;
so propagation can tell by counting whether anything has changed. -/
namespace Trellis
namespace Solver

/-- The tables on a path, the present one first: from the table that the search started with on,
each step gave one variable its next candidates, and each table is within those before it. -/
structure OnPath (start : Candidates V) (past : List (Candidates V)) (c : Candidates V) : Prop where
  started : past.getLast? = some start
  present : past.head? = some c
  steps : past.IsChain fun d c => ∃ v next listed, d = c.put v next listed
  shrinking : past.Pairwise Candidates.Within
  tidy : c.Tidy

/-- Of every list that the variable had on the path, the next one is what remains. -/
structure Change.Shrinks (start : Candidates V) (change : Change V) : Prop where
  path : OnPath start change.path change.table
  distinct : change.next.Nodup
  remains : ∀ c ∈ change.path, ∀ earlier ∈ c.get? change.var, change.next.Sublist earlier
  /-- The list does not grow, and counting tells whether it changes. -/
  counted : ∀ now ∈ change.table.get? change.var,
    change.next.length ≤ now.length ∧ (change.next.length = now.length → change.next = now)

structure Record.Shrinks (start : Candidates V) (r : Record V) : Prop where
  changes : ∀ change ∈ r.changes, change.Shrinks start
  filled : ∀ c ∈ r.labelled, ∀ v, c.get? v ≠ some []

variable {V : Type} {start c : Candidates V} {past : List (Candidates V)} {v : VarId}
  {next : List V}

theorem OnPath.within (path : OnPath start past c) (mem : d ∈ past) : c.Within d := by
  obtain ⟨earlier, rfl⟩ := List.head?_eq_some_iff.1 path.present
  rcases List.mem_cons.1 mem with rfl | before
  · exact .refl d
  · exact (List.pairwise_cons.1 path.shrinking).1 d before

/-- Whether the variable had candidates in the table or not, it may be given these. -/
structure Remains (c : Candidates V) (v : VarId) (next : List V) : Prop where
  distinct : next.Nodup
  less : ∀ now, c.get? v = some now → next.Sublist now

theorem remains_of_sublist (tidy : c.Tidy) (held : c.get? v = some now)
    (less : next.Sublist now) : Remains c v next where
  distinct := (tidy.distinct v now held).sublist less
  less _ found := Option.some.inj (held.symm.trans found) ▸ less

theorem remains_of_free (free : c.get? v = none) (distinct : next.Nodup) : Remains c v next :=
  ⟨distinct, fun _ held => nomatch free.symm.trans held⟩

/-- What is left of the present list is left of every earlier one. -/
theorem OnPath.shrinks (path : OnPath start past c) (remains : Remains c v next) :
    Change.Shrinks start ⟨past, c, v, next⟩ where
  path := path
  distinct := remains.distinct
  remains d mem earlier held := by
    obtain ⟨now, found, sub⟩ := (path.within mem).left v earlier held
    exact (remains.less now found).trans sub
  counted now held := ⟨(remains.less now held).length_le, (remains.less now held).eq_of_length⟩

theorem OnPath.put (path : OnPath start past c) (listed : v ∈ c.vars) (filled : next ≠ [])
    (remains : Remains c v next) :
    OnPath start (c.put v next listed :: past) (c.put v next listed) where
  started := by rw [List.getLast?_cons, path.started, Option.getD_some]
  present := rfl
  steps := by
    obtain ⟨earlier, rfl⟩ := List.head?_eq_some_iff.1 path.present
    exact .cons_cons ⟨v, next, listed, rfl⟩ path.steps
  tidy := path.tidy.put listed filled remains.distinct
  shrinking := List.pairwise_cons.2 ⟨fun _ mem =>
    (Candidates.put_within listed remains.less).trans (path.within mem), path.shrinking⟩

/-- The path goes on with the table, if there is one. -/
def GoesOn (start : Candidates V) (table : Option (Candidates V))
    (later : List (Candidates V)) : Prop :=
  ∀ d, table = some d → OnPath start later d

theorem OnPath.goes_on (path : OnPath start past c) : GoesOn start (some c) past := by
  rintro _ ⟨⟩
  exact path

theorem goes_nowhere (later : List (Candidates V)) : GoesOn start none later := nofun

variable [DecidableEq V] [Hashable V]

namespace Watched

/-! ## What the record shows -/

variable {post : α → List (Candidates V) → Prop}

/-- After these tables the watched search does what `act` does, and what it adds to the record
shrinks. The result and the path are then as `post` says. -/
def Follows (start : Candidates V) (past : List (Candidates V)) (watched : WatchM σ ε V α)
    (act : SearchM σ ε V α) (post : α → List (Candidates V) → Prop) : Prop :=
  ∀ r s, r.path = past → r.Shrinks start →
    ∃ r', watched (r, s) = ((act s).1, r', (act s).2) ∧ r'.Shrinks start ∧
      ∀ x, (act s).1 = .ok x → post x r'.path

theorem follows_pure {x : α} (held : post x past) :
    Follows start past (pure x : WatchM σ ε V α) (pure x) post := by
  rintro r s rfl shrinks
  refine ⟨r, rfl, shrinks, ?_⟩
  rintro _ ⟨⟩
  exact held

theorem follows_mono {watched : WatchM σ ε V α} {act : SearchM σ ε V α}
    {weaker : α → List (Candidates V) → Prop} (follows : Follows start past watched act post)
    (implied : ∀ x later, post x later → weaker x later) :
    Follows start past watched act weaker := by
  intro r s here shrinks
  obtain ⟨r', ran, shrinks, held⟩ := follows r s here shrinks
  exact ⟨r', ran, shrinks, fun x ended => implied x _ (held x ended)⟩

theorem watch_bind_run (watched : WatchM σ ε V α) (next : α → WatchM σ ε V β)
    (r : Record V × Search σ V) :
    (watched >>= next) r = match watched r with
      | (.ok x, r') => next x r'
      | (.error halt, r') => (.error halt, r') := by
  simp only [bind, ExceptT.bind, ExceptT.mk, StateT.bind, ExceptT.bindCont]
  rcases watched r with ⟨x | halt, r'⟩ <;> rfl

theorem follows_bind {watched : WatchM σ ε V α} {act : SearchM σ ε V α}
    {next : α → WatchM σ ε V β} {next' : α → SearchM σ ε V β}
    {last : β → List (Candidates V) → Prop} (first : Follows start past watched act post)
    (rest : ∀ x later, post x later → Follows start later (next x) (next' x) last) :
    Follows start past (watched >>= next) (act >>= next') last := by
  intro r s here shrinks
  obtain ⟨r', ran, shrinks, held⟩ := first r s here shrinks
  rw [watch_bind_run, bind_run, ran]
  rcases ended : act s with ⟨halt | x, t⟩ <;> rw [ended] at held
  · exact ⟨r', rfl, shrinks, fun _ ended => nomatch ended⟩
  · exact rest x r'.path (held x rfl) r' t rfl shrinks

/-- A note is made before the search does anything. -/
theorem follows_note {change : Record V → Record V} {watched : WatchM σ ε V α}
    {act : SearchM σ ε V α}
    (noted : ∀ r, r.path = past → r.Shrinks start →
      (change r).Shrinks start ∧ (change r).path = later)
    (rest : Follows start later watched act post) :
    Follows start past (note change >>= fun _ => watched) act post := by
  intro r s here shrinks
  obtain ⟨shrinks, there⟩ := noted r here shrinks
  exact rest (change r) s there shrinks

theorem follows_path {next : List (Candidates V) → WatchM σ ε V α} {act : SearchM σ ε V α}
    (rest : Follows start past (next past) act post) :
    Follows start past (path >>= next) act post := by
  rintro r s rfl shrinks
  exact rest r s rfl shrinks

theorem follows_resume {watched : WatchM σ ε V α} {act : SearchM σ ε V α}
    (rest : Follows start later watched act post) (past : List (Candidates V)) :
    Follows start past (resume later >>= fun _ => watched) act post :=
  follows_note (fun _ _ shrinks => ⟨⟨shrinks.changes, shrinks.filled⟩, rfl⟩) rest

theorem follows_proceed {d : Candidates V} {watched : WatchM σ ε V α} {act : SearchM σ ε V α}
    (rest : Follows start (d :: past) watched act post) :
    Follows start past (proceed d >>= fun _ => watched) act post :=
  follows_note (fun _ here shrinks => ⟨⟨shrinks.changes, shrinks.filled⟩, here ▸ rfl⟩) rest

theorem follows_watch {watched : WatchM σ ε V α} {act : SearchM σ ε V α}
    (change : Change.Shrinks start ⟨past, c, v, next⟩)
    (rest : Follows start past watched act post) :
    Follows start past (watch c v next >>= fun _ => watched) act post := by
  refine follows_note (fun r here shrinks => ⟨⟨?_, shrinks.filled⟩, here⟩) rest
  exact List.forall_mem_cons.2 ⟨here ▸ change, shrinks.changes⟩

/-- Where the action gives a result, the result is as `sure` says. -/
def Yields (act : SearchM σ ε V α) (sure : α → Prop) : Prop :=
  ∀ s x, (act s).1 = .ok x → sure x

theorem yields_pure {x : α} {sure : α → Prop} (held : sure x) :
    Yields (pure x : SearchM σ ε V α) sure := by
  rintro s _ ⟨⟩
  exact held

theorem yields_bind {act : SearchM σ ε V α} {next : α → SearchM σ ε V β} {sure : α → Prop}
    {last : β → Prop} (first : Yields act sure) (rest : ∀ x, sure x → Yields (next x) last) :
    Yields (act >>= next) last := by
  intro s y ended
  rw [bind_run] at ended
  rcases ran : act s with ⟨halt | x, t⟩ <;> rw [ran] at ended
  · cases ended
  · exact rest x (first s x (by rw [ran])) t y ended

theorem yields_any (act : SearchM σ ε V α) : Yields act fun _ => True := fun _ _ _ => trivial

theorem follows_unwatched {act : SearchM σ ε V α} {sure : α → Prop} (yields : Yields act sure) :
    Follows start past (unwatched act) act fun x later => later = past ∧ sure x :=
  fun r s here shrinks => ⟨r, rfl, shrinks, fun x ended => ⟨here, yields s x ended⟩⟩

/-- The path goes on with the other variables as they were; and if there is no table, it is what
it was. -/
theorem follows_narrow (path : OnPath start past c) (remains : Remains c v next) :
    Follows start past (narrow c v next : WatchM σ ε V (Effect c)) (pure (Solver.narrow c v next))
      fun effect later => GoesOn start effect.table later ∧
        (∀ d, effect.table = some d → ∀ w, w ≠ v → d.get? w = c.get? w) ∧
        (effect.table = none → later = past) := by
  refine follows_watch (path.shrinks remains) ?_
  rcases narrow_cases c v next with ⟨emptied, -⟩ | same | ⟨listed, tighter, put, filled⟩
  · rw [emptied]
    exact follows_pure ⟨goes_nowhere past, nofun, fun _ => rfl⟩
  · rw [same]
    refine follows_pure ⟨path.goes_on, fun d table w _ => ?_, nofun⟩
    cases table
    rfl
  · rw [put]
    refine follows_proceed (follows_pure ⟨(path.put listed filled remains).goes_on,
      fun d table w other => ?_, nofun⟩)
    cases table
    rw [Candidates.get?_put, if_neg other.symm]

theorem follows_narrowed (path : OnPath start past c) (remains : Remains c v next) :
    Follows start past (narrow c v next : WatchM σ ε V (Effect c)) (pure (Solver.narrow c v next))
      fun effect later => GoesOn start effect.table later :=
  follows_mono (follows_narrow path remains) fun _ _ held => held.1

theorem follows_narrow_both (path : OnPath start past c) (apart : a ≠ b) (left : Remains c a xs)
    (right : Remains c b ys) :
    Follows start past (narrowBoth c a xs b ys : WatchM σ ε V (Effect c))
      (pure (match Solver.narrow c a xs with
        | .unchanged => Solver.narrow c b ys
        | .tightened d tighter => (Solver.narrow d b ys).after tighter
        | .emptied v => .emptied v))
      fun effect later => GoesOn start effect.table later := by
  have one_by_one : (pure (match Solver.narrow c a xs with
        | .unchanged => Solver.narrow c b ys
        | .tightened d tighter => (Solver.narrow d b ys).after tighter
        | .emptied v => .emptied v) : SearchM σ ε V (Effect c)) =
      pure (Solver.narrow c a xs) >>= fun effect => match effect with
        | .unchanged => pure (Solver.narrow c b ys)
        | .tightened d tighter => pure (Solver.narrow d b ys) >>= fun e => pure (e.after tighter)
        | .emptied v => pure (.emptied v) := by
    rw [pure_bind]
    cases Solver.narrow c a xs <;> rfl
  rw [one_by_one]
  refine follows_bind (follows_narrow path left) fun effect later ⟨on, others, still⟩ => ?_
  cases effect with
  | unchanged => exact follows_narrowed (on c rfl) right
  | tightened d tighter =>
    have right : Remains d b ys := ⟨right.distinct, fun now held =>
      right.less now ((others d rfl b apart.symm).symm.trans held)⟩
    refine follows_bind (follows_narrowed (on d rfl) right) fun effect later on => ?_
    refine follows_pure ?_
    rwa [effect_after_table]
  | emptied v =>
    obtain rfl := still rfl
    exact follows_watch (path.shrinks right) (follows_pure (goes_nowhere later))

theorem keep_if_yields (test : α → SearchM σ ε V Bool) (xs : List α) :
    Yields (keepIf test xs) fun kept => kept.Sublist xs := by
  induction xs with
  | nil => exact yields_pure (.refl _)
  | cons x rest ih =>
    refine yields_bind (yields_any _) fun pass _ => yields_bind ih fun kept less => ?_
    cases pass with
    | true => exact yields_pure (less.cons_cons x)
    | false => exact yields_pure (less.cons x)

section Search
variable (oracle : Oracle σ ε V) (limit : Nat)

/-- Both sides of a relation keep some of their candidates, whatever is answered. -/
theorem supported_yields (relation : Option PredId) (xs ys : List V) :
    Yields (supported oracle relation xs ys) fun kept =>
      kept.1.Sublist xs ∧ kept.2.Sublist ys := by
  cases relation with
  | none => exact yields_pure ⟨List.filter_sublist, List.filter_sublist⟩
  | some p =>
    exact yields_bind (keep_if_yields _ xs) fun kept less =>
      yields_bind (keep_if_yields _ ys) fun others fewer => yields_pure ⟨less, fewer⟩

theorem follows_apply_bind (path : OnPath start past c) (apart : a ≠ b) (relation : Option PredId) :
    Follows start past (applyBind oracle c a b relation) (Solver.applyBind oracle c a b relation)
      fun effect later => GoesOn start effect.table later := by
  unfold applyBind Solver.applyBind
  cases left : c.get? a with
  | none =>
    cases right : c.get? b with
    | none => exact follows_pure path.goes_on
    | some ys =>
      cases relation with
      | some p => exact follows_pure path.goes_on
      | none =>
        exact follows_narrowed path (remains_of_free left (path.tidy.distinct b ys right))
  | some xs =>
    cases right : c.get? b with
    | none =>
      cases relation with
      | some p => exact follows_pure path.goes_on
      | none =>
        exact follows_narrowed path (remains_of_free right (path.tidy.distinct a xs left))
    | some ys =>
      refine follows_bind (follows_unwatched (supported_yields oracle relation xs ys)) ?_
      rintro kept _ ⟨rfl, less, fewer⟩
      exact follows_narrow_both path apart (remains_of_sublist path.tidy left less)
        (remains_of_sublist path.tidy right fewer)

/-- Candidates that pass a test are put in the place of those that were tested. -/
theorem follows_tested (path : OnPath start past c) (held : c.get? v = some current)
    (test : V → SearchM σ ε V Bool) :
    Follows start past (unwatched (keepIf test current) >>= narrow c v)
      (keepIf test current >>= fun kept => pure (Solver.narrow c v kept))
      fun effect later => GoesOn start effect.table later := by
  refine follows_bind (follows_unwatched (keep_if_yields test current)) ?_
  rintro kept _ ⟨rfl, less⟩
  exact follows_narrowed path (remains_of_sublist path.tidy held less)

theorem follows_apply_atom (path : OnPath start past c) (a : Atom V) :
    Follows start past (applyAtom oracle c a) (Solver.applyAtom oracle c a)
      fun effect later => GoesOn start effect.table later := by
  cases a with
  | domain v values origin =>
    simp only [applyAtom, Solver.applyAtom]
    cases held : c.get? v with
    | none => exact follows_narrowed path (remains_of_free held (nodup_eraseDups values))
    | some current =>
      exact follows_narrowed path (remains_of_sublist path.tidy held List.filter_sublist)
  | predicate v p origin =>
    simp only [applyAtom, Solver.applyAtom]
    cases held : c.get? v with
    | none => exact follows_pure path.goes_on
    | some current => exact follows_tested path held _
  | bind a b relation origin =>
    simp only [applyAtom, Solver.applyAtom]
    split
    · cases relation with
      | none => exact follows_pure path.goes_on
      | some p =>
        cases held : c.get? a with
        | none => exact follows_pure path.goes_on
        | some current => exact follows_tested path held _
    · next apart => exact follows_apply_bind oracle path apart relation

theorem follows_round (path : OnPath start past c) (atoms : List (Atom V)) :
    Follows start past (round oracle atoms c) (Solver.round oracle atoms c)
      fun result later => GoesOn start result.table later := by
  induction atoms generalizing past c with
  | nil => exact follows_pure path.goes_on
  | cons a rest ih =>
    rw [round, Solver.round]
    refine follows_bind (follows_apply_atom oracle path a) fun effect later on => ?_
    cases effect with
    | unchanged => exact ih (on c rfl)
    | tightened d tighter =>
      refine follows_bind (ih (on d rfl)) fun result later on => follows_pure ?_
      rwa [round_after_table]
    | emptied v =>
      exact follows_bind (follows_unwatched (yields_any _)) fun _ later _ =>
        follows_pure (goes_nowhere later)

theorem follows_propagate {past : List (Candidates V)} {c : Candidates V}
    (path : OnPath start past c) (atoms : List (Atom V)) :
    Follows start past (propagate oracle atoms c) (Solver.propagate oracle atoms c)
      fun found later => GoesOn start (found.map Subtype.val) later := by
  rw [propagate, Solver.propagate]
  refine follows_bind (follows_round oracle path atoms) fun result later on => ?_
  cases result with
  | settled => exact follows_pure on
  | dead => exact follows_pure on
  | moved d tighter =>
    refine follows_bind (follows_propagate (on d rfl) atoms) fun found later on => follows_pure ?_
    rwa [Option.map_map]
termination_by (c.free, c.total)
decreasing_by exact tighter.decreases

/-- Alternatives are tried one after the other, each of them from tables of its own. -/
theorem follows_find_some {look : α → WatchM σ ε V (Option β)}
    {look' : α → SearchM σ ε V (Option β)} {xs : List α}
    (looks : ∀ x ∈ xs, ∀ past, Follows start past (look x) (look' x) fun _ _ => True)
    (past : List (Candidates V)) :
    Follows start past (xs.findSomeM? look) (xs.findSomeM? look') fun _ _ => True := by
  induction xs generalizing past with
  | nil => exact follows_pure trivial
  | cons x xs ih =>
    obtain ⟨here, rest⟩ := List.forall_mem_cons.1 looks
    refine follows_bind (here past) fun found later _ => ?_
    cases found with
    | none => exact ih rest later
    | some y => exact follows_pure trivial

theorem follows_try_each {f : α → β → WatchM σ ε V (ForInStep β)}
    {f' : α → β → SearchM σ ε V (ForInStep β)}
    (each : ∀ x acc past, Follows start past (f x acc) (f' x acc) fun _ _ => True) (xs : List α)
    (acc : β) (past : List (Candidates V)) :
    Follows start past (tryEach f xs acc) (tryEach f' xs acc) fun _ _ => True := by
  induction xs generalizing acc past with
  | nil => exact follows_pure trivial
  | cons x xs ih =>
    refine follows_bind (each x acc past) fun step later _ => ?_
    cases step with
    | done acc => exact follows_pure trivial
    | yield acc => exact ih acc later

theorem follows_label {past : List (Candidates V)} {c : Candidates V} (path : OnPath start past c)
    (atoms : List (Atom V)) (vars : List VarId) :
    Follows start past (label oracle limit atoms vars c) (Solver.label oracle limit atoms vars c)
      fun _ _ => True := by
  rw [label, Solver.label]
  refine follows_note (fun r here shrinks => ⟨⟨shrinks.changes, ?_⟩, here⟩) ?_
  · exact List.forall_mem_cons.2 ⟨fun v empty => path.tidy.filled v [] empty rfl, shrinks.filled⟩
  cases undecided? c vars with
  | none => exact follows_pure trivial
  | some u =>
    refine follows_bind (follows_unwatched (yields_any _)) ?_
    rintro ⟨⟩ past ⟨rfl, -⟩
    refine follows_path (follows_find_some (fun value listed => follows_resume ?_) past)
    have fixes : Remains c u.var [value] :=
      remains_of_sublist path.tidy u.held (List.singleton_sublist.2 listed)
    refine follows_watch (path.shrinks fixes) (follows_proceed ?_)
    have fixed := path.put (Candidates.mem_vars u.held) (List.cons_ne_nil value []) fixes
    refine follows_bind (follows_propagate oracle fixed atoms) fun propagated later on => ?_
    rcases propagated with _ | ⟨d, reached⟩
    · exact follows_pure trivial
    · exact follows_label (on d rfl) atoms vars
termination_by (c.free, c.total)
decreasing_by exact (u.tighter reached).decreases

theorem follows_complete {b : Branch V} (path : OnPath start past b.candidates) :
    Follows start past (complete oracle limit b) (Solver.complete oracle limit b)
      fun _ _ => True := by
  unfold complete Solver.complete
  cases b.vars.find? fun v => (b.candidates.get? v).isNone with
  | some v =>
    exact follows_bind (follows_unwatched (yields_any _)) fun _ _ _ => follows_pure trivial
  | none => exact follows_label oracle limit path b.atoms b.vars

/-- A visit of a branch goes on with the path that led to it. -/
def Visits (start : Candidates V) (visit : Branch V → β → WatchM σ ε V (ForInStep β))
    (visit' : Branch V → β → SearchM σ ε V (ForInStep β)) : Prop :=
  ∀ past b acc, OnPath start past b.candidates →
    Follows start past (visit b acc) (visit' b acc) fun _ _ => True

variable {visit : Branch V → β → WatchM σ ε V (ForInStep β)}
  {visit' : Branch V → β → SearchM σ ε V (ForInStep β)}

theorem follows_explore (visits : Visits start visit visit') (pending : List (Equation V))
    (b : Branch V) (acc : β) : ∀ past, OnPath start past b.candidates →
      Follows start past (explore oracle limit visit pending b acc)
        (Solver.explore oracle limit visit' pending b acc) fun _ _ => True := by
  induction pending, b, acc using Solver.explore.induct with
  | case1 b acc =>
    intro past path
    rw [explore, Solver.explore]
    exact visits past b acc path
  | case2 b acc rest ih =>
    intro past path
    rw [explore, Solver.explore]
    exact ih past path
  | case3 b acc rest =>
    intro past path
    rw [explore, Solver.explore]
    exact follows_bind (follows_unwatched (yields_any _)) fun _ _ _ => follows_pure trivial
  | case4 b acc rest =>
    intro past path
    rw [explore, Solver.explore]
    exact follows_bind (follows_unwatched (yields_any _)) fun _ _ _ => follows_pure trivial
  | case5 b acc a rest atoms ih =>
    intro past path
    rw [explore, Solver.explore]
    refine follows_bind (follows_propagate oracle path atoms) fun propagated later on => ?_
    rcases propagated with _ | ⟨candidates, reached⟩
    · exact follows_pure trivial
    · exact ih candidates later (on candidates rfl)
  | case6 b acc es rest ih =>
    intro past path
    rw [explore, Solver.explore]
    exact ih past path
  | case7 b acc e rest ih =>
    intro past path
    rw [explore, Solver.explore]
    exact ih past path
  | case8 b acc es rest several one ih =>
    intro past path
    rw [explore, Solver.explore]
    · refine follows_bind (follows_unwatched (yields_any _)) ?_
      rintro ⟨⟩ past ⟨rfl, -⟩
      -- whatever tables an alternative leaves, the next one has those of the fork
      refine follows_path (follows_try_each (fun e acc => follows_resume ?_) _ acc past)
      exact ih acc e.1 e.2 past path
    all_goals first | exact several | exact one

theorem follows_walk (e : Equation V) (bound : List (VarId × V))
    (visits : Visits (e.start bound).candidates visit visit') (acc : β) :
    Follows (e.start bound).candidates [] (walk oracle limit visit e bound acc)
      (Solver.explore oracle limit visit' [e] (e.start bound) acc) fun _ _ => True := by
  let first := (e.start bound).candidates
  have path : OnPath first [first] first :=
    ⟨rfl, rfl, .singleton first, List.pairwise_singleton _ _, start_tidy e bound⟩
  exact follows_proceed (follows_explore oracle limit visits [e] (e.start bound) acc _ path)

theorem visits_first :
    Visits start (visitFirst oracle limit) (Equation.visitFirst oracle limit) := by
  intro past b found path
  refine follows_bind (follows_complete oracle limit path) fun completed later _ => ?_
  cases completed <;> exact follows_pure trivial

theorem visits_all : Visits start (visitAll oracle limit) (Equation.visitAll oracle limit) := by
  intro past b seen path
  refine follows_bind (follows_complete oracle limit path) fun completed later _ => ?_
  cases completed <;> exact follows_pure trivial

theorem follows_solve (e : Equation V) (bound : List (VarId × V)) :
    Follows (e.start bound).candidates [] (solve oracle limit e bound)
      (Equation.solveM oracle limit e bound) fun _ _ => True := by
  refine follows_bind (follows_walk oracle limit e bound (visits_first oracle limit) none)
    fun found later _ => ?_
  cases found.value with
  | some values => exact follows_pure trivial
  | none => exact follows_mono (follows_unwatched (yields_any _)) fun _ _ _ => trivial

theorem follows_satisfiable (e : Equation V) (bound : List (VarId × V)) :
    Follows (e.start bound).candidates [] (satisfiable oracle limit e bound)
      (Equation.satisfiableM oracle limit e bound) fun _ _ => True :=
  follows_bind (follows_walk oracle limit e bound (visits_all oracle limit) _) fun _ _ _ =>
    follows_pure trivial

end Search
end Watched
end Solver

namespace Equation
open Solver
variable [DecidableEq V] [Hashable V]

/-- **Candidates only shrink.** A record of a solve, or of asking for the candidates, shows each
change of candidates along each path through atoms, forks and labellings, and has no influence on
the result. A path begins with the table that the search starts with. Whatever the oracle answers,
each step on it replaces the list of one variable, and a table is within those before it. The list
that a variable is given has no value twice and is a sublist of every list that the variable had
there; it is not longer than the present one, and as long only if it is the same. Labelling never
begins on a table with an empty list. -/
theorem candidates_only_shrink (oracle : Oracle σ ε V) (config : SolverConfig) (e : Equation V)
    (bound : List (VarId × V)) (world : σ) :
    let solved := Watched.solve oracle config.maxBranches e bound (⟨[], [], []⟩, .start world)
    let asked := Watched.satisfiable oracle config.maxBranches e bound (⟨[], [], []⟩, .start world)
    (solved.1, solved.2.2) = solveM oracle config.maxBranches e bound (.start world) ∧
      (asked.1, asked.2.2) = satisfiableM oracle config.maxBranches e bound (.start world) ∧
      ∀ record ∈ [solved.2.1, asked.2.1],
        (∀ change ∈ record.changes, change.Shrinks (e.start bound).candidates) ∧
        ∀ c ∈ record.labelled, ∀ v, c.get? v ≠ some [] := by
  have nothing : (⟨[], [], []⟩ : Record V).Shrinks (e.start bound).candidates := ⟨nofun, nofun⟩
  obtain ⟨solving, solved, shrinks, -⟩ :=
    Watched.follows_solve oracle config.maxBranches e bound _ (.start world) rfl nothing
  obtain ⟨asking, asked, shrinks', -⟩ :=
    Watched.follows_satisfiable oracle config.maxBranches e bound _ (.start world) rfl nothing
  dsimp only
  rw [solved, asked]
  exact ⟨rfl, rfl, List.forall_mem_cons.2 ⟨⟨shrinks.changes, shrinks.filled⟩,
    List.forall_mem_singleton.2 ⟨shrinks'.changes, shrinks'.filled⟩⟩⟩

end Equation
end Trellis
