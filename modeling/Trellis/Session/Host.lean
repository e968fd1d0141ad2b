import Trellis.Session.Run

/-! What a host asks of a session. -/
namespace Trellis.Host

/-- Call a property on a node as seen from its own place. -/
def call (m : Machine) (n : NodeId) (prop : PropId) (args : List Value)
    (dynVars : DynVars) : EvalM Value :=
  m.call (.bare n) prop args dynVars

/-- Make a node the root of its unit and populate it. -/
def populateUnit (S : Setting) (m : Machine) (u : UnitId) (root : NodeId) :
    SessionM AnalysisError Unit := do
  match ← SessionM.read fun s => s.setRoot u root with
  | .error e => SessionM.fail (.tree e)
  | .ok s => do
    set s
    (populateWith S m root).mapError .populate

/-- Call the property of that name on a node, if the language makes it public. -/
def callPublic (S : Setting) (m : Machine) (n : NodeId) (name : String) (args : List Value)
    (dynVars : DynVars) : SessionM AnalysisError Value := do
  match ← SessionM.read fun s => s.tree.node n with
  | .error e => SessionM.fail (.tree e)
  | .ok node =>
    match S.language.propertyByName node.kind name with
    | none => SessionM.fail (.property (.of (.dispatch (S.language.kindName node.kind) name)))
    | some prop =>
      if (S.language.property? prop).any (·.isPublic) then
        (call m n prop args dynVars).mapError .property
      else SessionM.fail (.property ((PropertyError.of (.privateProperty name)).claimedBy n prop))

/-- Find or make the unit of that name. -/
def loadUnit (S : Setting) (m : Machine) (name : String) : EvalM UnitId := do
  let name ← modifyGet fun (s : Session) =>
    let (name, pool) := s.pool.intern name
    (name, { s with pool })
  EvalM.loadUnit S m name

end Trellis.Host
