import Trellis.Solver.Search

/-! Solving an equation, and asking which values its variables can take. Both
walk the same branches in the same order; solving stops at the first one that
can be labelled. -/
namespace Trellis

open Solver

/-- One value for each solved variable, in order of first appearance. -/
abbrev Assignment (V : Type) := List (VarId × V)

inductive Outcome (V : Type) where
  | solved (values : Assignment V)
  | failed (why : Inconsistency)
deriving Repr

/-- Candidates of each variable, joined over all branches that hold. -/
abbrev Domains (V : Type) := List (VarId × List V)

structure SolverConfig where
  /-- How many branches a solve may explore; zero sets no limit. -/
  maxBranches : Nat
deriving DecidableEq, Repr

namespace SolverConfig

def standard : SolverConfig := ⟨4096⟩

instance : Inhabited SolverConfig := ⟨standard⟩

end SolverConfig

namespace Equation

variable [DecidableEq V] [Hashable V]

/-- The branch a solve starts from. Bound variables have their value as only
candidate; of two values for one variable the later counts. -/
def start (e : Equation V) (bound : List (VarId × V)) : Branch V :=
  ⟨[], bound.foldl (fun c (v, value) => c.set v [value]) (.unknown e.vars)⟩

/-- The assignment a labelled branch stands for. -/
def assignment (b : Branch V) (c : Candidates V) : Assignment V :=
  b.vars.filterMap fun v => do return (v, ← (← c.get? v).head?)

/-- Keep the first assignment and stop. -/
def visitFirst (oracle : Oracle σ ε V) (limit : Nat) (b : Branch V)
    (found : Option (Assignment V)) : SearchM σ ε V (ForInStep (Option (Assignment V))) := do
  match ← complete oracle limit b with
  | none => return .yield found
  | some c => return .done (some (assignment b c))

/-- Find the first assignment that satisfies the equation. -/
def solveM (oracle : Oracle σ ε V) (limit : Nat) (e : Equation V) (bound : List (VarId × V)) :
    SearchM σ ε V (Outcome V) := do
  let found ← explore oracle limit (visitFirst oracle limit) [e] (e.start bound) none
  match found.value with
  | some values => return .solved values
  | none => return .failed ((← get).failure.getD .contradiction)

/-- Add the candidates a branch has to those gathered from earlier ones. -/
def gather (b : Branch V) (seen : Candidates V) : Candidates V :=
  b.vars.foldl (fun seen v =>
    let old := (seen.get? v).getD []
    let new := (b.candidates.get? v).getD []
    seen.set v (new.foldl (fun old x => if x ∈ old then old else old ++ [x]) old)) seen

/-- Gather the candidates of every branch that can be labelled. They are those
from before labelling, since each may belong to some labelling. -/
def visitAll (oracle : Oracle σ ε V) (limit : Nat) (b : Branch V)
    (seen : Bool × Candidates V) : SearchM σ ε V (ForInStep (Bool × Candidates V)) := do
  match ← complete oracle limit b with
  | none => return .yield seen
  | some _ => return .yield (true, gather b seen.2)

/-- Find the candidates of every variable; `none` when nothing satisfies the
equation. -/
def satisfiableM (oracle : Oracle σ ε V) (limit : Nat) (e : Equation V)
    (bound : List (VarId × V)) : SearchM σ ε V (Option (Domains V)) := do
  let walked ← explore oracle limit (visitAll oracle limit) [e] (e.start bound)
    (false, .unknown e.vars)
  let (any, seen) := walked.value
  return if any then
    some (seen.vars.filterMap fun v => (seen.get? v).map (v, ·))
  else none

/-- Solve in a world of the oracle's, which is handed back changed. -/
def solve (oracle : Oracle σ ε V) (config : SolverConfig) (e : Equation V)
    (bound : List (VarId × V)) (world : σ) : Except (Halt ε) (Outcome V) × σ :=
  let (result, s) := (solveM oracle config.maxBranches e bound).run (.start world)
  (result, s.world)

/-- Ask for the candidates in a world of the oracle's. -/
def satisfiableDomains (oracle : Oracle σ ε V) (config : SolverConfig) (e : Equation V)
    (bound : List (VarId × V)) (world : σ) : Except (Halt ε) (Option (Domains V)) × σ :=
  let (result, s) := (satisfiableM oracle config.maxBranches e bound).run (.start world)
  (result, s.world)

end Equation
end Trellis
