import Trellis.Proofs.Solver.Choices

/-! The solver as a function. Once it is known how every question will be
answered, propagation and labelling depend on nothing else: not on the world of
whoever answers, not on the answers kept so far, not on the budget. The functions
here say what is left, and every run of the solver that does not halt is shown
to compute them. -/
namespace Trellis.Solver

variable [DecidableEq V] (holds : Query V → Bool)

/-! ## What the solver computes -/

/-- What two different variables keep of their candidates. -/
def kept (relation : Option PredId) (xs ys : List V) : List V × List V :=
  let left := xs.filter fun x => ys.any fun y => related holds relation x y
  (left, ys.filter fun y => left.any fun x => related holds relation x y)

/-- What relating two different variables does to the table. -/
def bindEffect (c : Candidates V) (a b : VarId) (relation : Option PredId) : Effect c :=
  match c.get? a, c.get? b with
  | none, none => .unchanged
  | none, some ys => if relation.isSome then .unchanged else narrow c a ys
  | some xs, none => if relation.isSome then .unchanged else narrow c b xs
  | some xs, some ys =>
    match narrow c a (kept holds relation xs ys).1 with
    | .unchanged => narrow c b (kept holds relation xs ys).2
    | .tightened d tighter => (narrow d b (kept holds relation xs ys).2).after tighter
    | .emptied v => .emptied v

/-- What a constraint does to the table. -/
def atomEffect (c : Candidates V) : Atom V → Effect c
  | .domain v values _ =>
    narrow c v <| match c.get? v with
      | none => values.eraseDups
      | some current => current.filter (values.contains ·)
  | .predicate v p _ =>
    match c.get? v with
    | none => .unchanged
    | some current => narrow c v (current.filter fun x => holds (.unary p x))
  | .bind a b relation _ =>
    if a = b then
      match relation, c.get? a with
      | some p, some current => narrow c a (current.filter fun x => holds (.binary p x x))
      | _, _ => .unchanged
    else bindEffect holds c a b relation

/-- What one round over the constraints does to the table. -/
def sweep : List (Atom V) → (c : Candidates V) → Round c
  | [], _ => .settled
  | a :: rest, c =>
    match atomEffect holds c a with
    | .unchanged => sweep rest c
    | .tightened d tighter => (sweep rest d).after tighter
    | .emptied _ => .dead

/-- What repeated rounds leave of the table. -/
def settle (atoms : List (Atom V)) (c : Candidates V) : Option (From c) :=
  match sweep holds atoms c with
  | .settled => some ⟨c, .inl rfl⟩
  | .dead => none
  | .moved d tighter =>
    (settle atoms d).map fun ⟨e, reached⟩ =>
      ⟨e, .inr (reached.elim (fun same => same ▸ tighter) (·.trans tighter))⟩
termination_by (c.free, c.total)
decreasing_by
  exact tighter.elim (Prod.Lex.left _ _ ·) fun ⟨same, less⟩ => same ▸ Prod.Lex.right _ less

/-- The first table in which each of the variables has one candidate. -/
def labelled (atoms : List (Atom V)) (vars : List VarId) (c : Candidates V) :
    Option (Candidates V) :=
  match undecided? c vars with
  | none => some c
  | some u =>
    u.values.findSome? fun value =>
      match settle holds atoms (c.put u.var [value] (Candidates.mem_vars u.held)) with
      | none => none
      | some ⟨d, _⟩ => labelled atoms vars d
termination_by (c.free, c.total)
decreasing_by
  have fixed := c.put_narrowed u.held [value] u.several
  rename_i reached
  have tighter : d.Tighter c := reached.elim (fun same => same ▸ fixed) (·.trans fixed)
  exact tighter.elim (Prod.Lex.left _ _ ·) fun ⟨same, less⟩ => same ▸ Prod.Lex.right _ less

/-- The labelling of a branch, provided that every variable has candidates. -/
def completed (b : Branch V) : Option (Candidates V) :=
  if b.vars.any fun v => (b.candidates.get? v).isNone then none
  else labelled holds b.atoms b.vars b.candidates

/-- The branch that further constraints lead to, each propagated as it is met. -/
def collect : Branch V → List (Atom V) → Option (Branch V)
  | b, [] => some b
  | b, a :: rest =>
    match settle holds (b.atoms ++ [a]) b.candidates with
    | none => none
    | some ⟨candidates, _⟩ => collect ⟨b.atoms ++ [a], candidates⟩ rest

end Trellis.Solver
