import Trellis.Session.Basic

/-! Growing the tree of a session. -/
namespace Trellis.Session

/-- Open a unit. Names need not be new; the oldest unit of a name is found. -/
def newUnit (s : Session) (name : String) : UnitId × Session :=
  let (name, pool) := s.pool.intern name
  let (u, tree) := s.tree.addUnit name
  (u, { s with pool, tree })

/-- Add a node of a concrete kind over existing children. -/
def addNode (S : Setting) (s : Session) (u : UnitId) (kind : KindId) (children : List NodeId)
    (text : Symbol) (span : Span) : Except NodeBuildError (NodeId × Session) := do
  let some info := S.language.kind? kind | throw (.unknownKind kind)
  if info.isAbstract then throw (.abstractKind info.name)
  if !info.isList && children.length != info.fields.length then
    throw (.fieldCount info.name info.fields.length children.length)
  match s.tree.addNode ⟨kind, u, children, text, span, info.logicVars.length⟩ with
  | .ok (n, tree) => return (n, { s with tree })
  | .error e => throw (.tree e)

/-- Add a node that no text stands behind. -/
def newNode (S : Setting) (s : Session) (u : UnitId) (kind : KindId) (children : List NodeId) :
    Except NodeBuildError (NodeId × Session) :=
  s.addNode S u kind children .empty .dummy

/-- Add a leaf carrying a text. The text is entered into the pool whatever
becomes of the leaf. -/
def newToken (S : Setting) (s : Session) (u : UnitId) (kind : KindId) (text : String) :
    Except NodeBuildError NodeId × Session :=
  let (symbol, pool) := s.pool.intern text
  let s := { s with pool }
  match s.addNode S u kind [] symbol .dummy with
  | .ok (n, s) => (.ok n, s)
  | .error e => (.error e, s)

def setRoot (s : Session) (u : UnitId) (root : NodeId) : Except TreeError Session :=
  (s.tree.setRoot u root).map fun tree => { s with tree }

end Trellis.Session
