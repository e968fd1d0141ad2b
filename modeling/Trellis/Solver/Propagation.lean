import Trellis.Solver.Basic
import Trellis.Solver.Candidates

/-! Propagation: every constraint removes the candidates it can already rule
out, again and again until none of them removes any more. A constraint that
cannot say anything yet waits. -/
namespace Trellis.Solver

variable [DecidableEq V] [Hashable V]

/-- The elements that pass an effectful test, tested from left to right. -/
def keepIf [Monad m] (test : α → m Bool) : List α → m (List α)
  | [] => pure []
  | a :: as => do
    let pass ← test a
    let rest ← keepIf test as
    return if pass then a :: rest else rest

/-- What two different variables keep of their candidates: each side the ones
that some candidate of the other supports, the second side being measured
against what the first kept. Without a relation the values have to be equal. -/
def supported (oracle : Oracle σ ε V) (relation : Option PredId) (xs ys : List V) :
    SearchM σ ε V (List V × List V) :=
  match relation with
  | none =>
    let kept := xs.filter (ys.contains ·)
    pure (kept, ys.filter (kept.contains ·))
  | some p => do
    let kept ← keepIf (fun x => ys.anyM fun y => ask oracle (.binary p x y)) xs
    return (kept, ← keepIf (fun y => kept.anyM fun x => ask oracle (.binary p x y)) ys)

/-- Relate two different variables. An equality hands the candidates of one
side to the other when that has none; any other relation waits for both. -/
def applyBind (oracle : Oracle σ ε V) (c : Candidates V) (a b : VarId)
    (relation : Option PredId) : SearchM σ ε V (Effect c) :=
  match c.get? a, c.get? b with
  | none, none => pure .unchanged
  | none, some ys => pure (if relation.isSome then .unchanged else narrow c a ys)
  | some xs, none => pure (if relation.isSome then .unchanged else narrow c b xs)
  | some xs, some ys => do
    let (xs, ys) ← supported oracle relation xs ys
    return match narrow c a xs with
      | .unchanged => narrow c b ys
      | .tightened d tighter => (narrow d b ys).after tighter
      | .emptied v => .emptied v

/-- Apply one constraint to the table. -/
def applyAtom (oracle : Oracle σ ε V) (c : Candidates V) : Atom V → SearchM σ ε V (Effect c)
  | .domain v values _ =>
    pure <| narrow c v <| match c.get? v with
      | none => values.eraseDups
      | some current => current.filter (values.contains ·)
  | .predicate v p _ =>
    match c.get? v with
    | none => pure .unchanged
    | some current => do return narrow c v (← keepIf (fun x => ask oracle (.unary p x)) current)
  | .bind a b relation _ =>
    if a = b then
      match relation, c.get? a with
      | some p, some current => do
        return narrow c a (← keepIf (fun x => ask oracle (.binary p x x)) current)
      | _, _ => pure .unchanged
    else applyBind oracle c a b relation

/-- What one round over the constraints did to the table. -/
inductive Round (c : Candidates V) where
  | settled
  | moved (next : Candidates V) (tighter : next.Tighter c)
  | dead

def Round.after {c : Candidates V} (tighter : Candidates.Tighter d c) : Round d → Round c
  | settled => .moved d tighter
  | moved next h => .moved next (h.trans tighter)
  | dead => .dead

/-- Apply the constraints one after the other. A variable left without
candidates ends the round. -/
def round (oracle : Oracle σ ε V) : List (Atom V) → (c : Candidates V) →
    SearchM σ ε V (Round c)
  | [], _ => pure .settled
  | a :: rest, c => do
    match ← applyAtom oracle c a with
    | .unchanged => round oracle rest c
    | .tightened d tighter => return (← round oracle rest d).after tighter
    | .emptied v =>
      giveUp (.emptyDomain v a.origin)
      return .dead

/-- A table reached from `c`. -/
abbrev From (c : Candidates V) := { d : Candidates V // d = c ∨ d.Tighter c }

/-- Repeat rounds until one changes nothing. No table is left when a variable
lost all its candidates. -/
def propagate (oracle : Oracle σ ε V) (atoms : List (Atom V)) (c : Candidates V) :
    SearchM σ ε V (Option (From c)) := do
  match ← round oracle atoms c with
  | .settled => return some ⟨c, .inl rfl⟩
  | .dead => return none
  | .moved d tighter =>
    return (← propagate oracle atoms d).map fun ⟨e, reached⟩ =>
      ⟨e, .inr (reached.elim (fun same => same ▸ tighter) (·.trans tighter))⟩
termination_by (c.free, c.total)
decreasing_by
  exact tighter.elim (Prod.Lex.left _ _ ·) fun ⟨same, less⟩ => same ▸ Prod.Lex.right _ less

/-- A round that changes nothing is the only one. -/
theorem propagate_settled {oracle : Oracle σ ε V} {atoms : List (Atom V)} {c : Candidates V}
    (settled : round oracle atoms c = pure .settled) :
    propagate oracle atoms c = pure (some ⟨c, .inl rfl⟩) := by
  rw [propagate, settled, pure_bind]

end Trellis.Solver
