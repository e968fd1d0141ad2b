import Trellis.Solver.Propagation
import Std.Data.HashSet

/-! The search. Alternatives are tried depth-first from left to right. The
atoms met on the way are collected, and each new one is propagated at once. A
branch that has collected all its atoms is labelled: variables that still have
several candidates are fixed one after the other, the first candidate first. -/
namespace Trellis.Solver

/-- The atoms collected on the way to here and what they leave possible. -/
structure Branch (V : Type) where
  atoms : List (Atom V)
  candidates : Candidates V

/-- The variables the collected atoms mention, in order of first appearance in
the whole equation. -/
def Branch.vars (b : Branch V) : List VarId :=
  let mentioned := Std.HashSet.ofList (b.atoms.flatMap Atom.vars)
  b.candidates.vars.filter mentioned.contains

theorem Branch.vars_eq (b : Branch V) :
    b.vars = b.candidates.vars.filter fun v => b.atoms.any (·.mentions v) := by
  refine List.filter_congr fun v _ => ?_
  rw [Std.HashSet.contains_ofList, Bool.eq_iff_iff]
  simp [Atom.mentions]

variable [DecidableEq V] [Hashable V]

/-- A variable among `vars` with several candidates. -/
structure Undecided (c : Candidates V) where
  var : VarId
  values : List V
  held : c.get? var = some values
  several : 1 < values.length

omit [DecidableEq V] [Hashable V] in
/-- Fixing an undecided variable tightens the table, and so does what follows. -/
theorem Undecided.tighter {c d : Candidates V} (u : Undecided c) {value : V}
    (reached : d = c.put u.var [value] (Candidates.mem_vars u.held) ∨
      d.Tighter (c.put u.var [value] (Candidates.mem_vars u.held))) : d.Tighter c :=
  have fixed := c.put_narrowed u.held [value] u.several
  reached.elim (fun same => same ▸ fixed) (·.trans fixed)

/-- The first undecided variable. -/
def undecided? (c : Candidates V) : List VarId → Option (Undecided c)
  | [] => none
  | v :: rest =>
    match held : c.get? v with
    | some values =>
      if several : 1 < values.length then some ⟨v, values, held, several⟩ else undecided? c rest
    | none => undecided? c rest

/-- Fix the undecided variables among `vars`. The answer is the first table
found in which each of them has a single candidate. -/
def label (oracle : Oracle σ ε V) (limit : Nat) (atoms : List (Atom V)) (vars : List VarId)
    (c : Candidates V) : SearchM σ ε V (Option (Candidates V)) :=
  match undecided? c vars with
  | none => pure (some c)
  | some u => do
    charge limit (u.values.length - 1)
    u.values.findSomeM? fun value => do
      match ← propagate oracle atoms (c.put u.var [value] (Candidates.mem_vars u.held)) with
      | none => return none
      | some ⟨d, _⟩ => label oracle limit atoms vars d
termination_by (c.free, c.total)
decreasing_by
  have fixed := c.put_narrowed u.held [value] u.several
  rename_i reached
  have tighter : d.Tighter c := reached.elim (fun same => same ▸ fixed) (·.trans fixed)
  exact tighter.elim (Prod.Lex.left _ _ ·) fun ⟨same, less⟩ => same ▸ Prod.Lex.right _ less

/-- Label a branch whose atoms are all collected. A variable that nothing ever
supplied makes the branch fail; the first atom that mentions it is blamed. -/
def complete (oracle : Oracle σ ε V) (limit : Nat) (b : Branch V) :
    SearchM σ ε V (Option (Candidates V)) := do
  match b.vars.find? fun v => (b.candidates.get? v).isNone with
  | some v =>
    giveUp (.unconstrained v ((b.atoms.find? (·.mentions v)).bind Atom.origin))
    return none
  | none => label oracle limit b.atoms b.vars b.candidates

/-- Fold over alternatives until one of them says it is done. -/
def tryEach [Monad m] (f : α → β → m (ForInStep β)) : List α → β → m (ForInStep β)
  | [], acc => return .yield acc
  | a :: as, acc => do
    match ← f a acc with
    | .done acc => return .done acc
    | .yield acc => tryEach f as acc

/-- Walk over the ways of satisfying the equations of `pending` on top of the
branch `b`, handing each branch that survived to `visit` until that is done. -/
def explore (oracle : Oracle σ ε V) (limit : Nat)
    (visit : Branch V → β → SearchM σ ε V (ForInStep β)) (pending : List (Equation V))
    (b : Branch V) (acc : β) : SearchM σ ε V (ForInStep β) :=
  match pending with
  | [] => visit b acc
  | .always :: rest => explore oracle limit visit rest b acc
  | .never :: _ | .or [] :: _ => do
    giveUp .contradiction
    return .yield acc
  | .atom a :: rest => do
    let atoms := b.atoms ++ [a]
    match ← propagate oracle atoms b.candidates with
    | none => return .yield acc
    | some ⟨candidates, _⟩ => explore oracle limit visit rest ⟨atoms, candidates⟩ acc
  | .and es :: rest => explore oracle limit visit (es ++ rest) b acc
  | .or [e] :: rest => explore oracle limit visit (e :: rest) b acc
  | .or es :: rest => do
    charge limit (es.length - 1)
    tryEach (fun ⟨e, _⟩ acc => explore oracle limit visit (e :: rest) b acc) es.attach acc
termination_by Equation.sizeAll pending
decreasing_by
  all_goals simp only [Equation.sizeAll, Equation.sizeAll_append, Equation.size]
  any_goals omega
  have := Equation.size_le_of_mem ‹_ ∈ es›
  omega

end Trellis.Solver
