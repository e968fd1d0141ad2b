import Trellis.Equation
import Std.Data.HashMap

/-! The working state of a solve. Predicates are answered by an oracle that may
fail and may change a world of its own, such as an analysis session; every
question is asked at most once per solve. -/
namespace Trellis.Solver

/-- A question about values of variables. -/
inductive Query (V : Type) where
  | unary (pred : PredId) (value : V)
  | binary (pred : PredId) (a b : V)
deriving DecidableEq, Hashable, Repr

/-- Whoever answers the predicates of an equation. -/
abbrev Oracle (σ ε V : Type) := Query V → σ → Except ε Bool × σ

/-- A solve that gives no answer. An unsatisfiable equation is not among these. -/
inductive Halt (ε : Type) where
  | tooManyBranches (limit : Nat)
  | predicate (cause : ε)
deriving DecidableEq, Repr

def Halt.message (cause : ε → String) : Halt ε → String
  | tooManyBranches limit =>
    "equation explored more than " ++ toString limit ++ " branches"
  | predicate e => "predicate failed: " ++ cause e

/-- Why a way of satisfying the equation was given up. -/
inductive Inconsistency where
  /-- A constraint left the variable without candidates. -/
  | emptyDomain (var : VarId) (origin : Option Site)
  /-- Nothing ever gave the variable candidates. -/
  | unconstrained (var : VarId) (origin : Option Site)
  /-- The way led through a contradiction. -/
  | contradiction
deriving DecidableEq, Repr

namespace Inconsistency

def origin : Inconsistency → Option Site
  | emptyDomain _ o | unconstrained _ o => o
  | contradiction => none

def var : Inconsistency → Option VarId
  | emptyDomain v _ | unconstrained v _ => some v
  | contradiction => none

def message (i : Inconsistency) : String :=
  let what := match i with
    | emptyDomain v _ => "inconsistent equation: no candidate left for " ++ v.text
    | unconstrained v _ => v.text ++ " has no candidates to choose from"
    | contradiction => "equation is unsatisfiable"
  match i.origin with
  | some site => what ++ " (" ++ site.text ++ ")"
  | none => what

end Inconsistency

/-- The state of a solve: the oracle's world, the answers already known, the
number of branches charged for, and the failure met last. -/
structure Search (σ V : Type) [DecidableEq V] [Hashable V] where
  world : σ
  answers : Std.HashMap (Query V) Bool
  branches : Nat
  failure : Option Inconsistency

section
variable [DecidableEq V] [Hashable V]

abbrev SearchM (σ ε V : Type) [DecidableEq V] [Hashable V] :=
  ExceptT (Halt ε) (StateM (Search σ V))

/-- A step that halts is not followed by another one. -/
theorem bind_run (act : SearchM σ ε V α) (next : α → SearchM σ ε V β) (s : Search σ V) :
    (act >>= next) s = match act s with
      | (.ok x, s') => next x s'
      | (.error halt, s') => (.error halt, s') := by
  simp only [bind, ExceptT.bind, ExceptT.mk, StateT.bind, ExceptT.bindCont]
  rcases act s with ⟨x | halt, s'⟩ <;> rfl

/-- A solve begins with one branch to explore. -/
def Search.start (world : σ) : Search σ V := ⟨world, ∅, 1, none⟩

/-- The answer to a question. Failures are not remembered, but they end the
solve. -/
def ask (oracle : Oracle σ ε V) (q : Query V) : SearchM σ ε V Bool := fun s =>
  match s.answers[q]? with
  | some known => (.ok known, s)
  | none =>
    match oracle q s.world with
    | (.ok answer, world) => (.ok answer, { s with world, answers := s.answers.insert q answer })
    | (.error e, world) => (.error (.predicate e), { s with world })

/-- Pay for further branches. A limit of zero is none. -/
def charge (limit extra : Nat) : SearchM σ ε V Unit := fun s =>
  let s := { s with branches := s.branches + extra }
  if 0 < limit ∧ limit < s.branches then (.error (.tooManyBranches limit), s) else (.ok (), s)

/-- Remember why a branch was given up; the latest reason is reported. -/
def giveUp (why : Inconsistency) : SearchM σ ε V Unit :=
  modify ({ · with failure := some why })

end
end Trellis.Solver
