import Trellis.Solver

/-! The solver taken apart into what it computes and what it does on the way: it puts
questions, pays for further branches, notes why a way was given up, and comes to the end
of a way. An engine says how each of these is done. The solver is the search over one
engine; with another one the same search counts its leaves, or asks everything afresh.
What two engines have in common two searches have in common: a relation between
programs that sequencing keeps need only be shown for what an engine does. -/
namespace Trellis

/-- The questions that the propagation of an atom can ask. -/
def Atom.Asks : Atom V → Solver.Query V → Prop
  | .predicate _ p _, .unary asked _ => asked = p
  | .bind _ _ (some p) _, .binary asked _ _ => asked = p
  | _, _ => False

namespace Solver

/-- What a search does besides computing. -/
structure Engine (m : Type → Type) (V : Type) where
  ask : Query V → m Bool
  charge : Nat → m Unit
  giveUp : Inconsistency → m Unit
  /-- Done where a way ends: it died, or everything on it is decided. -/
  leaf : m Unit

namespace Engine

section Search
variable [Monad m] [DecidableEq V] (E : Engine m V)

def supported (relation : Option PredId) (xs ys : List V) : m (List V × List V) :=
  match relation with
  | none =>
    let kept := xs.filter (ys.contains ·)
    pure (kept, ys.filter (kept.contains ·))
  | some p => do
    let kept ← keepIf (fun x => ys.anyM fun y => E.ask (.binary p x y)) xs
    return (kept, ← keepIf (fun y => kept.anyM fun x => E.ask (.binary p x y)) ys)

def applyBind (c : Candidates V) (a b : VarId) (relation : Option PredId) : m (Effect c) :=
  match c.get? a, c.get? b with
  | none, none => pure .unchanged
  | none, some ys => pure (if relation.isSome then .unchanged else narrow c a ys)
  | some xs, none => pure (if relation.isSome then .unchanged else narrow c b xs)
  | some xs, some ys => do
    let (xs, ys) ← E.supported relation xs ys
    return match narrow c a xs with
      | .unchanged => narrow c b ys
      | .tightened d tighter => (narrow d b ys).after tighter
      | .emptied v => .emptied v

def applyAtom (c : Candidates V) : Atom V → m (Effect c)
  | .domain v values _ =>
    pure <| narrow c v <| match c.get? v with
      | none => values.eraseDups
      | some current => current.filter (values.contains ·)
  | .predicate v p _ =>
    match c.get? v with
    | none => pure .unchanged
    | some current => do return narrow c v (← keepIf (fun x => E.ask (.unary p x)) current)
  | .bind a b relation _ =>
    if a = b then
      match relation, c.get? a with
      | some p, some current => do
        return narrow c a (← keepIf (fun x => E.ask (.binary p x x)) current)
      | _, _ => pure .unchanged
    else E.applyBind c a b relation

def round : List (Atom V) → (c : Candidates V) → m (Round c)
  | [], _ => pure .settled
  | a :: rest, c => do
    match ← E.applyAtom c a with
    | .unchanged => round rest c
    | .tightened d tighter => return (← round rest d).after tighter
    | .emptied v =>
      E.giveUp (.emptyDomain v a.origin)
      return .dead

def propagate (atoms : List (Atom V)) (c : Candidates V) : m (Option (From c)) := do
  match ← E.round atoms c with
  | .settled => return some ⟨c, .inl rfl⟩
  | .dead => return none
  | .moved d tighter =>
    return (← propagate atoms d).map fun ⟨e, reached⟩ =>
      ⟨e, .inr (reached.elim (fun same => same ▸ tighter) (·.trans tighter))⟩
termination_by (c.free, c.total)
decreasing_by exact tighter.decreases

def label (atoms : List (Atom V)) (vars : List VarId) (c : Candidates V) :
    m (Option (Candidates V)) :=
  match undecided? c vars with
  | none => do
    E.leaf
    return some c
  | some u => do
    E.charge (u.values.length - 1)
    u.values.findSomeM? fun value => do
      match ← E.propagate atoms (c.put u.var [value] (Candidates.mem_vars u.held)) with
      | none => do
        E.leaf
        return none
      | some ⟨d, _⟩ => label atoms vars d
termination_by (c.free, c.total)
decreasing_by
  rename_i reached
  exact (u.tighter reached).decreases

def complete (b : Branch V) : m (Option (Candidates V)) := do
  match b.vars.find? fun v => (b.candidates.get? v).isNone with
  | some v =>
    E.giveUp (.unconstrained v ((b.atoms.find? (·.mentions v)).bind Atom.origin))
    E.leaf
    return none
  | none => E.label b.atoms b.vars b.candidates

def explore (visit : Branch V → β → m (ForInStep β)) (pending : List (Equation V))
    (b : Branch V) (acc : β) : m (ForInStep β) :=
  match pending with
  | [] => visit b acc
  | .always :: rest => explore visit rest b acc
  | .never :: _ | .or [] :: _ => do
    E.giveUp .contradiction
    E.leaf
    return .yield acc
  | .atom a :: rest => do
    let atoms := b.atoms ++ [a]
    match ← E.propagate atoms b.candidates with
    | none => do
      E.leaf
      return .yield acc
    | some ⟨candidates, _⟩ => explore visit rest ⟨atoms, candidates⟩ acc
  | .and es :: rest => explore visit (es ++ rest) b acc
  | .or [e] :: rest => explore visit (e :: rest) b acc
  | .or es :: rest => do
    E.charge (es.length - 1)
    tryEach (fun ⟨e, _⟩ acc => explore visit (e :: rest) b acc) es.attach acc
termination_by Equation.sizeAll pending
decreasing_by
  all_goals simp only [Equation.sizeAll, Equation.sizeAll_append, Equation.size]
  any_goals omega
  have := Equation.size_le_of_mem ‹_ ∈ es›
  omega

def visitFirst (b : Branch V) (found : Option (Assignment V)) :
    m (ForInStep (Option (Assignment V))) := do
  match ← E.complete b with
  | none => return .yield found
  | some c => return .done (some (Equation.assignment b c))

/-- The first assignment that satisfies the equation. -/
def first (e : Equation V) (bound : List (VarId × V)) : m (Option (Assignment V)) := do
  return (← E.explore E.visitFirst [e] (e.start bound) none).value

def visitAll (b : Branch V) (seen : Bool × Candidates V) :
    m (ForInStep (Bool × Candidates V)) := do
  match ← E.complete b with
  | none => return .yield seen
  | some _ => return .yield (true, Equation.gather b seen.2)

/-- The candidates of every variable, if something satisfies the equation. -/
def satisfiable (e : Equation V) (bound : List (VarId × V)) : m (Option (Domains V)) := do
  let walked ← E.explore E.visitAll [e] (e.start bound) (false, .unknown e.vars)
  let (any, seen) := walked.value
  return if any then
    some (seen.vars.filterMap fun v => (seen.get? v).map (v, ·))
  else none

end Search

/-! ## The solver's own engine -/

section Solver
variable [DecidableEq V] [Hashable V]

/-- Find the first assignment, or say why there is none. -/
def solve (E : Engine (SearchM σ ε V) V) (e : Equation V) (bound : List (VarId × V)) :
    SearchM σ ε V (Outcome V) := do
  match ← E.first e bound with
  | some values => return .solved values
  | none => return .failed ((← get).failure.getD .contradiction)

/-- Questions are put to an oracle unless they are answered already, branches are paid for
from a budget, and nothing is done where a way ends. -/
def standard (oracle : Oracle σ ε V) (limit : Nat) : Engine (SearchM σ ε V) V where
  ask := Solver.ask oracle
  charge := Solver.charge limit
  giveUp := Solver.giveUp
  leaf := pure ()

variable (oracle : Oracle σ ε V) (limit : Nat)

theorem round_standard (atoms : List (Atom V)) (c : Candidates V) :
    (standard oracle limit).round atoms c = Solver.round oracle atoms c := by
  induction atoms generalizing c with
  | nil => rfl
  | cons a rest ih =>
    rw [round, Solver.round]
    refine bind_congr fun effect => ?_
    cases effect with
    | unchanged => exact ih c
    | tightened d tighter => exact congrArg (· >>= _) (ih d)
    | emptied v => rfl

theorem propagate_standard (atoms : List (Atom V)) (c : Candidates V) :
    (standard oracle limit).propagate atoms c = Solver.propagate oracle atoms c := by
  rw [propagate, Solver.propagate, round_standard]
  refine bind_congr fun result => ?_
  cases result with
  | settled => rfl
  | dead => rfl
  | moved d tighter => exact congrArg (· >>= _) (propagate_standard atoms d)
termination_by (c.free, c.total)
decreasing_by exact tighter.decreases

theorem label_standard (atoms : List (Atom V)) (vars : List VarId) (c : Candidates V) :
    (standard oracle limit).label atoms vars c = Solver.label oracle limit atoms vars c := by
  rw [label, Solver.label]
  cases undecided? c vars with
  | none => exact pure_bind _ _
  | some u =>
    refine bind_congr fun _ => congrArg (List.findSomeM? · u.values) (funext fun value => ?_)
    rw [propagate_standard]
    refine bind_congr fun propagated => ?_
    rcases propagated with _ | ⟨d, reached⟩
    · exact pure_bind _ _
    · exact label_standard atoms vars d
termination_by (c.free, c.total)
decreasing_by exact (u.tighter reached).decreases

theorem complete_standard (b : Branch V) :
    (standard oracle limit).complete b = Solver.complete oracle limit b := by
  unfold complete Solver.complete
  cases b.vars.find? fun v => (b.candidates.get? v).isNone with
  | some v => exact bind_congr fun _ => pure_bind _ _
  | none => exact label_standard oracle limit b.atoms b.vars b.candidates

theorem explore_standard (visit : Branch V → β → SearchM σ ε V (ForInStep β))
    (pending : List (Equation V)) (b : Branch V) (acc : β) :
    (standard oracle limit).explore visit pending b acc =
      Solver.explore oracle limit visit pending b acc := by
  induction pending, b, acc using Solver.explore.induct with
  | case1 b acc => rw [explore, Solver.explore]
  | case2 b acc rest ih => rw [explore, Solver.explore, ih]
  | case3 b acc rest =>
    rw [explore, Solver.explore]
    exact bind_congr fun _ => pure_bind _ _
  | case4 b acc rest =>
    rw [explore, Solver.explore]
    exact bind_congr fun _ => pure_bind _ _
  | case5 b acc a rest atoms ih =>
    rw [explore, Solver.explore, propagate_standard]
    refine bind_congr fun propagated => ?_
    rcases propagated with _ | ⟨candidates, reached⟩
    · exact pure_bind _ _
    · exact ih candidates
  | case6 b acc es rest ih => rw [explore, Solver.explore, ih]
  | case7 b acc e rest ih => rw [explore, Solver.explore, ih]
  | case8 b acc es rest several one ih =>
    rw [explore, Solver.explore]
    · refine bind_congr fun _ => ?_
      congr 1
      funext e acc
      exact ih acc e.1 e.2
    all_goals first | exact several | exact one

theorem walk_first_standard (e : Equation V) (b : Branch V) (found : Option (Assignment V)) :
    (standard oracle limit).explore (standard oracle limit).visitFirst [e] b found =
      Solver.explore oracle limit (Equation.visitFirst oracle limit) [e] b found := by
  have visits : (standard oracle limit).visitFirst = Equation.visitFirst oracle limit := by
    funext b found
    exact congrArg (· >>= _) (complete_standard oracle limit b)
  rw [visits, explore_standard]

/-- The solver is the search over its own engine. -/
theorem solve_standard (e : Equation V) (bound : List (VarId × V)) :
    (standard oracle limit).solve e bound = Equation.solveM oracle limit e bound := by
  rw [solve, first, walk_first_standard, bind_assoc, Equation.solveM]
  exact bind_congr fun walked => pure_bind _ _

/-- A run of the search is a run of its walk. -/
theorem solve_run (E : Engine (SearchM σ ε V) V) (e : Equation V) (bound : List (VarId × V))
    (s : Search σ V) :
    E.solve e bound s = match E.explore E.visitFirst [e] (e.start bound) none s with
      | (.error halt, t) => (.error halt, t)
      | (.ok walked, t) => (.ok (match walked.value with
        | some values => .solved values
        | none => .failed (t.failure.getD .contradiction)), t) := by
  rw [solve, first, bind_assoc, bind_run]
  rcases E.explore E.visitFirst [e] (e.start bound) none s with ⟨halt | walked, t⟩
  · rfl
  · simp only [pure_bind]
    cases walked.value <;> rfl

theorem satisfiable_standard (e : Equation V) (bound : List (VarId × V)) :
    (standard oracle limit).satisfiable e bound = Equation.satisfiableM oracle limit e bound := by
  have visits : (standard oracle limit).visitAll = Equation.visitAll oracle limit := by
    funext b found
    exact congrArg (· >>= _) (complete_standard oracle limit b)
  rw [satisfiable, visits, explore_standard]
  rfl

end Solver

/-! ## What is kept along a search -/

section Related
variable [Monad m] [Monad m']

/-- A relation between programs that sequencing keeps. -/
structure Sequential (R : ∀ α : Type, m α → m' α → Prop) : Prop where
  pure : ∀ {α : Type} (x : α), R α (pure x) (pure x)
  bind : ∀ {α β : Type} {act : m α} {act' : m' α} {next : α → m β} {next' : α → m' β},
    R α act act' → (∀ x, R β (next x) (next' x)) → R β (act >>= next) (act' >>= next')

variable {R : ∀ α : Type, m α → m' α → Prop} (seq : Sequential R)
include seq

theorem Sequential.keep_if {test : α → m Bool} {test' : α → m' Bool}
    (tests : ∀ x, R Bool (test x) (test' x)) (xs : List α) :
    R (List α) (keepIf test xs) (keepIf test' xs) := by
  induction xs with
  | nil => exact seq.pure _
  | cons x xs ih =>
    exact seq.bind (tests x) fun _ => seq.bind ih fun _ => seq.pure _

theorem Sequential.any {test : α → m Bool} {test' : α → m' Bool}
    (tests : ∀ x, R Bool (test x) (test' x)) (xs : List α) :
    R Bool (xs.anyM test) (xs.anyM test') := by
  induction xs with
  | nil => exact seq.pure _
  | cons x xs ih =>
    apply seq.bind (tests x)
    intro pass
    cases pass with
    | true => exact seq.pure _
    | false => exact ih

theorem Sequential.find_some {look : α → m (Option β)} {look' : α → m' (Option β)}
    (looks : ∀ x, R (Option β) (look x) (look' x)) (xs : List α) :
    R (Option β) (xs.findSomeM? look) (xs.findSomeM? look') := by
  induction xs with
  | nil => exact seq.pure _
  | cons x xs ih =>
    apply seq.bind (looks x)
    intro found
    cases found with
    | none => exact ih
    | some y => exact seq.pure _

theorem Sequential.try_each {f : α → β → m (ForInStep β)} {f' : α → β → m' (ForInStep β)}
    {xs : List α} (steps : ∀ x ∈ xs, ∀ acc, R (ForInStep β) (f x acc) (f' x acc)) (acc : β) :
    R (ForInStep β) (tryEach f xs acc) (tryEach f' xs acc) := by
  induction xs generalizing acc with
  | nil => exact seq.pure _
  | cons x xs ih =>
    apply seq.bind (steps x List.mem_cons_self acc)
    intro step
    cases step with
    | done acc => exact seq.pure _
    | yield acc => exact ih (fun y mem => steps y (List.mem_cons_of_mem x mem)) acc

omit seq

/-- Engines that do related things where they propagate, questions apart. -/
structure Propagates (R : ∀ α : Type, m α → m' α → Prop) (E : Engine m V) (E' : Engine m' V) :
    Prop extends Sequential R where
  giveUp : ∀ why, R Unit (E.giveUp why) (E'.giveUp why)

/-- Engines that do related things, questions apart. -/
structure Related (R : ∀ α : Type, m α → m' α → Prop) (E : Engine m V) (E' : Engine m' V) :
    Prop extends Propagates R E E' where
  charge : ∀ extra, R Unit (E.charge extra) (E'.charge extra)
  leaf : R Unit E.leaf E'.leaf

/-- What these atoms ask is answered by related programs. -/
def Answers (R : ∀ α : Type, m α → m' α → Prop) (E : Engine m V) (E' : Engine m' V)
    (atoms : List (Atom V)) : Prop :=
  ∀ a ∈ atoms, ∀ q, a.Asks q → R Bool (E.ask q) (E'.ask q)

variable [DecidableEq V] {E : Engine m V} {E' : Engine m' V}

theorem supported_related (seq : Sequential R) {relation : Option PredId} (xs ys : List V)
    (asks : ∀ p, relation = some p → ∀ x y,
      R Bool (E.ask (.binary p x y)) (E'.ask (.binary p x y))) :
    R _ (E.supported relation xs ys) (E'.supported relation xs ys) := by
  cases relation with
  | none => exact seq.pure _
  | some p =>
    have asks := asks p rfl
    apply seq.bind (seq.keep_if (fun x => seq.any (asks x) ys) xs)
    intro left
    exact seq.bind (seq.keep_if (fun y => seq.any (fun x => asks x y) left) ys) fun _ => seq.pure _

theorem apply_atom_related (seq : Sequential R) (c : Candidates V) (a : Atom V)
    (asks : ∀ q, a.Asks q → R Bool (E.ask q) (E'.ask q)) :
    R _ (E.applyAtom c a) (E'.applyAtom c a) := by
  cases a with
  | domain v values origin => exact seq.pure _
  | predicate v p origin =>
    simp only [applyAtom]
    cases c.get? v with
    | none => exact seq.pure _
    | some current =>
      exact seq.bind (seq.keep_if (fun x => asks (.unary p x) rfl) current) fun _ => seq.pure _
  | bind a b relation origin =>
    have asks : ∀ p, relation = some p → ∀ x y,
        R Bool (E.ask (.binary p x y)) (E'.ask (.binary p x y)) := by
      rintro p rfl x y
      exact asks _ rfl
    simp only [applyAtom]
    split
    · cases relation with
      | none => exact seq.pure _
      | some p =>
        cases c.get? a with
        | none => exact seq.pure _
        | some current =>
          exact seq.bind (seq.keep_if (fun x => asks p rfl x x) current) fun _ => seq.pure _
    · unfold applyBind
      cases c.get? a with
      | none => cases c.get? b <;> exact seq.pure _
      | some xs =>
        cases c.get? b with
        | none => exact seq.pure _
        | some ys => exact seq.bind (supported_related seq xs ys asks) fun _ => seq.pure _

theorem round_related (related : Propagates R E E') {atoms : List (Atom V)}
    (asks : Answers R E E' atoms) (c : Candidates V) :
    R _ (E.round atoms c) (E'.round atoms c) := by
  induction atoms generalizing c with
  | nil => exact related.pure _
  | cons a rest ih =>
    have later := ih fun b mem => asks b (List.mem_cons_of_mem a mem)
    apply related.bind (apply_atom_related related.toSequential c a (asks a List.mem_cons_self))
    intro effect
    cases effect with
    | unchanged => exact later c
    | tightened d tighter => exact related.bind (later d) fun _ => related.pure _
    | emptied v => exact related.bind (related.giveUp _) fun _ => related.pure _

theorem propagate_related (related : Propagates R E E') {atoms : List (Atom V)}
    (asks : Answers R E E' atoms) (c : Candidates V) :
    R _ (E.propagate atoms c) (E'.propagate atoms c) := by
  rw [propagate, propagate]
  apply related.bind (round_related related asks c)
  intro result
  cases result with
  | settled => exact related.pure _
  | dead => exact related.pure _
  | moved d tighter =>
    exact related.bind (propagate_related related asks d) fun _ => related.pure _
termination_by (c.free, c.total)
decreasing_by exact tighter.decreases

theorem label_related (related : Related R E E') {atoms : List (Atom V)}
    (asks : Answers R E E' atoms) (vars : List VarId) (c : Candidates V) :
    R _ (E.label atoms vars c) (E'.label atoms vars c) := by
  rw [label, label]
  cases undecided? c vars with
  | none => exact related.bind related.leaf fun _ => related.pure _
  | some u =>
    apply related.bind (related.charge _)
    intro _
    apply related.find_some
    intro value
    apply related.bind (propagate_related related.toPropagates asks _)
    intro propagated
    rcases propagated with _ | ⟨d, reached⟩
    · exact related.bind related.leaf fun _ => related.pure _
    · exact label_related related asks vars d
termination_by (c.free, c.total)
decreasing_by exact (u.tighter reached).decreases

theorem complete_related (related : Related R E E') {b : Branch V}
    (asks : Answers R E E' b.atoms) : R _ (E.complete b) (E'.complete b) := by
  unfold complete
  cases b.vars.find? fun v => (b.candidates.get? v).isNone with
  | some v =>
    exact related.bind (related.giveUp _) fun _ => related.bind related.leaf fun _ => related.pure _
  | none => exact label_related related asks b.vars b.candidates

/-- The search asks about the atoms of the branch and about those still to come. -/
theorem explore_related (related : Related R E E') {visit : Branch V → β → m (ForInStep β)}
    {visit' : Branch V → β → m' (ForInStep β)}
    (visits : ∀ b acc, Answers R E E' b.atoms → R _ (visit b acc) (visit' b acc))
    (pending : List (Equation V)) (b : Branch V) (acc : β)
    (asks : Answers R E E' (b.atoms ++ pending.flatMap Equation.atoms)) :
    R _ (E.explore visit pending b acc) (E'.explore visit' pending b acc) := by
  induction pending, b, acc using Solver.explore.induct with
  | case1 b acc =>
    rw [explore, explore]
    exact visits b acc (by simpa using asks)
  | case2 b acc rest ih =>
    rw [explore, explore]
    exact ih (by simpa [Equation.atoms] using asks)
  | case3 b acc rest =>
    rw [explore, explore]
    exact related.bind (related.giveUp _) fun _ => related.bind related.leaf fun _ => related.pure _
  | case4 b acc rest =>
    rw [explore, explore]
    exact related.bind (related.giveUp _) fun _ => related.bind related.leaf fun _ => related.pure _
  | case5 b acc a rest atoms ih =>
    have asks : Answers R E E' (atoms ++ rest.flatMap Equation.atoms) := by
      simpa [atoms, Equation.atoms] using asks
    rw [explore, explore]
    apply related.bind
      (propagate_related related.toPropagates (fun a mem => asks a (List.mem_append_left _ mem))
        b.candidates)
    intro propagated
    rcases propagated with _ | ⟨candidates, reached⟩
    · exact related.bind related.leaf fun _ => related.pure _
    · exact ih candidates asks
  | case6 b acc es rest ih =>
    rw [explore, explore]
    exact ih (by simpa [Equation.atoms] using asks)
  | case7 b acc e rest ih =>
    rw [explore, explore]
    exact ih (by simpa [Equation.atoms] using asks)
  | case8 b acc es rest several one ih =>
    rw [explore, explore]
    · apply related.bind (related.charge _)
      intro _
      apply related.try_each
      rintro e - acc
      apply ih acc e.1 e.2
      intro a among
      apply asks a
      simp only [List.mem_append, List.flatMap_cons, Equation.atoms, List.mem_flatMap] at among ⊢
      rcases among with before | here | later
      · exact .inl before
      · exact .inr (.inl ⟨e.1, e.2, here⟩)
      · exact .inr (.inr later)
    all_goals first | exact several | exact one

theorem visit_first_related (related : Related R E E') {b : Branch V}
    (asks : Answers R E E' b.atoms) (found : Option (Assignment V)) :
    R _ (E.visitFirst b found) (E'.visitFirst b found) := by
  apply related.bind (complete_related related asks)
  intro completed
  cases completed <;> exact related.pure _

theorem visit_all_related (related : Related R E E') {b : Branch V}
    (asks : Answers R E E' b.atoms) (seen : Bool × Candidates V) :
    R _ (E.visitAll b seen) (E'.visitAll b seen) := by
  apply related.bind (complete_related related asks)
  intro completed
  cases completed <;> exact related.pure _

/-- The walk for the first assignment. -/
theorem walk_first_related (related : Related R E E') (e : Equation V)
    (asks : Answers R E E' e.atoms) (bound : List (VarId × V)) :
    R _ (E.explore E.visitFirst [e] (e.start bound) none)
      (E'.explore E'.visitFirst [e] (e.start bound) none) :=
  explore_related related (fun _ found asks => visit_first_related related asks found) [e] _ none
    (by simpa [Equation.start] using asks)

theorem first_related (related : Related R E E') (e : Equation V) (asks : Answers R E E' e.atoms)
    (bound : List (VarId × V)) : R _ (E.first e bound) (E'.first e bound) :=
  related.bind (walk_first_related related e asks bound) fun _ => related.pure _

theorem satisfiable_related (related : Related R E E') (e : Equation V)
    (asks : Answers R E E' e.atoms) (bound : List (VarId × V)) :
    R _ (E.satisfiable e bound) (E'.satisfiable e bound) :=
  related.bind (explore_related related (fun _ seen asks => visit_all_related related asks seen)
    [e] _ _ (by simpa [Equation.start] using asks)) fun _ => related.pure _

end Related
end Engine
end Solver
end Trellis
