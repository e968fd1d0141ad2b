import Trellis.Session.Nodes
import Trellis.Session.Populate

/-! Loading units on demand. A unit that has an environment is taken as it is.
Otherwise its plan is carried out, as far as that has not been done before, and
the unit is populated. Only one unit is loaded at a time. -/
namespace Trellis

/-- The node a plan refers to, given the nodes made so far. -/
def PlanRef.node (made : List NodeId) : PlanRef → NodeId
  | planned i => made.getD i ⟨made.length + i⟩
  | existing n => n

/-- Make the nodes of a plan one after the other. -/
def Session.makeNodes (S : Setting) (s : Session) (u : UnitId) (made : List NodeId) :
    List PlannedNode → Except NodeBuildError (List NodeId) × Session
  | [] => (.ok made, s)
  | .inner kind children :: rest =>
    match s.newNode S u kind (children.map (·.node made)) with
    | .ok (n, s) => s.makeNodes S u (made ++ [n]) rest
    | .error e => (.error e, s)
  | .token kind text :: rest =>
    match s.newToken S u kind text with
    | (.ok n, s) => s.makeNodes S u (made ++ [n]) rest
    | (.error e, s) => (.error e, s)

/-- Carry out a plan in a unit. The result is the root to be. -/
def Session.carryOut (S : Setting) (s : Session) (u : UnitId) (plan : UnitPlan) :
    Except NodeBuildError NodeId × Session :=
  let (made, s) := s.makeNodes S u [] plan.nodes
  (made.map plan.root.node, s)

namespace EvalM

/-- The root of a unit, made according to the plan if there is none yet. -/
def rootOf (S : Setting) (u : UnitId) (name : String) (plan : UnitPlan) : EvalM NodeId := fun s =>
  match s.root u with
  | some root => (.ok root, s)
  | none =>
    match s.carryOut S u plan with
    | (.error e, s) => (.error (.failure (.of (.unitLoad name (some e)))), s)
    | (.ok root, s) =>
      match s.setRoot u root with
      | .ok s => (.ok root, s)
      | .error e => (.error (.failure (.of (.tree e))), s)

/-- Make and populate the unit of that name. -/
def makeUnit (S : Setting) (m : Machine) (name : Symbol) : EvalM UnitId := do
  let text ← SessionM.read fun s => s.pool.text name
  match ← SessionM.read fun s => s.plan name with
  | none => EvalM.fail (.unitLoad text none)
  | some plan => do
    let u ← match ← SessionM.read fun s => s.unitByName name with
      | some u => pure u
      | none => fun s => let (u, s) := s.newUnit text; (.ok u, s)
    let root ← rootOf S u text plan
    if !(← EvalM.node root).isPopulated then
      (populateWith S m root).mapError PopulateError.toPropertyError
    return u

/-- Find the unit of that name, or make it if units can be made now. -/
def loadUnit (S : Setting) (m : Machine) (name : Symbol) : EvalM UnitId := do
  let found ← SessionM.read fun s => do
    let u ← s.unitByName name
    let _ ← s.unitEnv u
    return u
  match found with
  | some u => return u
  | none =>
    match ← SessionM.read fun s => s.loader with
    | .ready =>
      SessionM.bracket ({ · with loader := .loading }) (makeUnit S m name)
        (fun _ s => { s with loader := .ready })
    | _ => EvalM.fail (.unitLoad (← SessionM.read fun s => s.pool.text name) none)

end EvalM
end Trellis
