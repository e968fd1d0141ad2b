import Trellis.Solver

/-! The search under watch. A record is kept of the tables on the path that the search is on,
of every change of candidates, with the tables that there were on the path until then, and of the
tables that labelling began with. The record is nothing that the search looks at. -/
namespace Trellis
namespace Solver

/-- In a table, which the ones before it on the path led to, a variable is given its next
candidates. -/
structure Change (V : Type) where
  /-- The tables on the path so far, the present one first. -/
  path : List (Candidates V)
  table : Candidates V
  var : VarId
  next : List V

/-- What is noted of a search. -/
structure Record (V : Type) where
  /-- The tables on the path that the search is on, the present one first. -/
  path : List (Candidates V)
  /-- The changes on all paths so far. -/
  changes : List (Change V)
  /-- The tables that labelling began with. -/
  labelled : List (Candidates V)

/-- A search with a record of it. -/
abbrev WatchM (σ ε V : Type) [DecidableEq V] [Hashable V] :=
  ExceptT (Halt ε) (StateM (Record V × Search σ V))

variable [DecidableEq V] [Hashable V]

namespace Watched

/-- What the search does without regard to the tables. -/
def unwatched (act : SearchM σ ε V α) : WatchM σ ε V α := fun (r, s) =>
  let (x, t) := act s
  (x, r, t)

def note (change : Record V → Record V) : WatchM σ ε V Unit := fun (r, s) => (.ok (), change r, s)

/-- The tables on the path, the present one first. -/
def path : WatchM σ ε V (List (Candidates V)) := fun (r, s) => (.ok r.path, r, s)

/-- Go on with a path that has these tables. -/
def resume (path : List (Candidates V)) : WatchM σ ε V Unit := note ({ · with path })

/-- Go on with another table. -/
def proceed (d : Candidates V) : WatchM σ ε V Unit := note fun r => { r with path := d :: r.path }

/-- In this table the variable is about to get these candidates. -/
def watch (c : Candidates V) (v : VarId) (next : List V) : WatchM σ ε V Unit := note fun r =>
  { r with changes := ⟨r.path, c, v, next⟩ :: r.changes }

def narrow (c : Candidates V) (v : VarId) (next : List V) : WatchM σ ε V (Effect c) := do
  watch c v next
  match Solver.narrow c v next with
  | .unchanged => return .unchanged
  | .tightened d tighter => do
    proceed d
    return .tightened d tighter
  | .emptied v => return .emptied v

/-- Both variables get their candidates, also where the first one has none left. -/
def narrowBoth (c : Candidates V) (a : VarId) (xs : List V) (b : VarId) (ys : List V) :
    WatchM σ ε V (Effect c) := do
  match ← narrow c a xs with
  | .unchanged => narrow c b ys
  | .tightened d tighter => return (← narrow d b ys).after tighter
  | .emptied v => do
    watch c b ys
    return .emptied v

section Search
variable (oracle : Oracle σ ε V) (limit : Nat)

def applyBind (c : Candidates V) (a b : VarId) (relation : Option PredId) :
    WatchM σ ε V (Effect c) :=
  match c.get? a, c.get? b with
  | none, none => pure .unchanged
  | none, some ys => if relation.isSome then pure .unchanged else narrow c a ys
  | some xs, none => if relation.isSome then pure .unchanged else narrow c b xs
  | some xs, some ys => do
    let (xs, ys) ← unwatched (supported oracle relation xs ys)
    narrowBoth c a xs b ys

def applyAtom (c : Candidates V) : Atom V → WatchM σ ε V (Effect c)
  | .domain v values _ =>
    narrow c v <| match c.get? v with
      | none => values.eraseDups
      | some current => current.filter (values.contains ·)
  | .predicate v p _ =>
    match c.get? v with
    | none => pure .unchanged
    | some current => do
      narrow c v (← unwatched (keepIf (fun x => ask oracle (.unary p x)) current))
  | .bind a b relation _ =>
    if a = b then
      match relation, c.get? a with
      | some p, some current => do
        narrow c a (← unwatched (keepIf (fun x => ask oracle (.binary p x x)) current))
      | _, _ => pure .unchanged
    else applyBind oracle c a b relation

def round : List (Atom V) → (c : Candidates V) → WatchM σ ε V (Round c)
  | [], _ => pure .settled
  | a :: rest, c => do
    match ← applyAtom oracle c a with
    | .unchanged => round rest c
    | .tightened d tighter => return (← round rest d).after tighter
    | .emptied v =>
      unwatched (giveUp (.emptyDomain v a.origin))
      return .dead

def propagate (atoms : List (Atom V)) (c : Candidates V) : WatchM σ ε V (Option (From c)) := do
  match ← round oracle atoms c with
  | .settled => return some ⟨c, .inl rfl⟩
  | .dead => return none
  | .moved d tighter =>
    return (← propagate atoms d).map fun ⟨e, reached⟩ =>
      ⟨e, .inr (reached.elim (fun same => same ▸ tighter) (·.trans tighter))⟩
termination_by (c.free, c.total)
decreasing_by exact tighter.decreases

/-- For each value that is tried the path goes on from here. -/
def label (atoms : List (Atom V)) (vars : List VarId) (c : Candidates V) :
    WatchM σ ε V (Option (Candidates V)) := do
  note fun r => { r with labelled := c :: r.labelled }
  match undecided? c vars with
  | none => return some c
  | some u => do
    unwatched (charge limit (u.values.length - 1))
    let past ← path
    u.values.findSomeM? fun value => do
      resume past
      watch c u.var [value]
      proceed (c.put u.var [value] (Candidates.mem_vars u.held))
      match ← propagate oracle atoms (c.put u.var [value] (Candidates.mem_vars u.held)) with
      | none => return none
      | some ⟨d, _⟩ => label atoms vars d
termination_by (c.free, c.total)
decreasing_by
  rename_i reached
  exact (u.tighter reached).decreases

def complete (b : Branch V) : WatchM σ ε V (Option (Candidates V)) := do
  match b.vars.find? fun v => (b.candidates.get? v).isNone with
  | some v =>
    unwatched (giveUp (.unconstrained v ((b.atoms.find? (·.mentions v)).bind Atom.origin)))
    return none
  | none => label oracle limit b.atoms b.vars b.candidates

/-- For each alternative the path goes on from the fork. -/
def explore (visit : Branch V → β → WatchM σ ε V (ForInStep β)) (pending : List (Equation V))
    (b : Branch V) (acc : β) : WatchM σ ε V (ForInStep β) :=
  match pending with
  | [] => visit b acc
  | .always :: rest => explore visit rest b acc
  | .never :: _ | .or [] :: _ => do
    unwatched (giveUp .contradiction)
    return .yield acc
  | .atom a :: rest => do
    let atoms := b.atoms ++ [a]
    match ← propagate oracle atoms b.candidates with
    | none => return .yield acc
    | some ⟨candidates, _⟩ => explore visit rest ⟨atoms, candidates⟩ acc
  | .and es :: rest => explore visit (es ++ rest) b acc
  | .or [e] :: rest => explore visit (e :: rest) b acc
  | .or es :: rest => do
    unwatched (charge limit (es.length - 1))
    let past ← path
    tryEach (fun ⟨e, _⟩ acc => do
      resume past
      explore visit (e :: rest) b acc) es.attach acc
termination_by Equation.sizeAll pending
decreasing_by
  all_goals simp only [Equation.sizeAll, Equation.sizeAll_append, Equation.size]
  any_goals omega
  have := Equation.size_le_of_mem ‹_ ∈ es›
  omega

def visitFirst (b : Branch V) (found : Option (Assignment V)) :
    WatchM σ ε V (ForInStep (Option (Assignment V))) := do
  match ← complete oracle limit b with
  | none => return .yield found
  | some c => return .done (some (Equation.assignment b c))

def visitAll (b : Branch V) (seen : Bool × Candidates V) :
    WatchM σ ε V (ForInStep (Bool × Candidates V)) := do
  match ← complete oracle limit b with
  | none => return .yield seen
  | some _ => return .yield (true, Equation.gather b seen.2)

/-- A walk that begins with the record of its first table. -/
def walk (visit : Branch V → β → WatchM σ ε V (ForInStep β)) (e : Equation V)
    (bound : List (VarId × V)) (acc : β) : WatchM σ ε V (ForInStep β) := do
  proceed (e.start bound).candidates
  explore oracle limit visit [e] (e.start bound) acc

/-- A solve under watch. -/
def solve (e : Equation V) (bound : List (VarId × V)) : WatchM σ ε V (Outcome V) := do
  let found ← walk oracle limit (visitFirst oracle limit) e bound none
  match found.value with
  | some values => return .solved values
  | none => unwatched do return .failed ((← get).failure.getD .contradiction)

/-- Asking for the candidates under watch. -/
def satisfiable (e : Equation V) (bound : List (VarId × V)) :
    WatchM σ ε V (Option (Domains V)) := do
  let walked ← walk oracle limit (visitAll oracle limit) e bound (false, .unknown e.vars)
  let (any, seen) := walked.value
  return if any then
    some (seen.vars.filterMap fun v => (seen.get? v).map (v, ·))
  else none

end Search

end Watched
end Solver
end Trellis
