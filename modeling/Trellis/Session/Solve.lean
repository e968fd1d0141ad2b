import Trellis.Language.Constraint
import Trellis.Session.Basic

/-! Solving equations over entities. The predicates of such an equation are
properties: a filter is called on the candidate, a relation on the candidate of
the first variable with that of the second as its argument. A solve writes the
variables only when it has found values for all of them. -/
namespace Trellis

/-- Ask a property. Both kinds of question must be answered yes or no. -/
def Machine.oracle (m : Machine) (dynVars : DynVars) :
    Solver.Oracle Session (Interrupt PropertyError) Entity := fun q =>
  let answer : EvalM Value := match q with
    | .unary p x => m.call x p.prop [] dynVars
    | .binary p x y => m.call x p.prop [.entity y] dynVars
  ExceptT.run do
    match ← answer with
    | .bool b => return b
    | v => EvalM.fail (.typeMismatch "bool" v.typeName)

namespace Session

/-- The variables of an equation that hold a value already. -/
def boundVars (s : Session) (e : Equation Entity) : List (VarId × Entity) :=
  e.vars.filterMap fun v => (s.tree.value v).map (v, ·)

def assign (s : Session) (values : Assignment Entity) : Session :=
  { s with tree := values.foldl (fun t (v, x) => t.setValue v x) s.tree }

/-- Tell that an equation has no solution. -/
def reportInconsistency (s : Session) (why : Solver.Inconsistency) : Session :=
  let code := match why with
    | .unconstrained .. => .K4002
    | .emptyDomain .. | .contradiction => .K4001
  let location := match why.origin with
    | some site => .definition site
    | none => .unknown
  s.report code why.message location

end Session

/-- The failure of a solve that gave no answer. -/
def Solver.Halt.toInterrupt : Solver.Halt (Interrupt PropertyError) → Interrupt PropertyError
  | .tooManyBranches limit => .failure (.of (.tooManyBranches limit))
  | .predicate cause => cause

namespace EvalM

/-- Solve an equation and bind its variables. An equation without a solution is
reported, and answered with `false`. -/
def solve (S : Setting) (m : Machine) (e : Equation Entity) (dynVars : DynVars) : EvalM Bool :=
  fun s =>
    match e.solve (m.oracle dynVars) S.config.solver (s.boundVars e) s with
    | (.ok (.solved values), s) => (.ok true, s.assign values)
    | (.ok (.failed why), s) => (.ok false, s.reportInconsistency why)
    | (.error halt, s) => (.error halt.toInterrupt, s)

/-- The candidates of each variable, without binding any. -/
def satisfiable (S : Setting) (m : Machine) (e : Equation Entity) (dynVars : DynVars) :
    EvalM (Option (Domains Entity)) := fun s =>
  match e.satisfiableDomains (m.oracle dynVars) S.config.solver (s.boundVars e) s with
  | (.ok domains, s) => (.ok domains, s)
  | (.error halt, s) => (.error halt.toInterrupt, s)

end EvalM
end Trellis
