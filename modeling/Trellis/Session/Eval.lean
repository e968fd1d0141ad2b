import Trellis.Session.Frame
import Trellis.Session.Solve

/-! Evaluation of expressions. An expression is taken apart here; calls and
lookups are left to the machine. -/
namespace Trellis

/-- The integers a program can compute with. -/
def inRange (n : Int) : Bool := -9223372036854775808 ≤ n && n < 9223372036854775808

namespace FrameM

/-- An integer result, unless it is out of range. -/
def checked (n : Int) : FrameM Value := if inRange n then pure (.int n) else fail .overflow

/-- Arithmetic and comparison of integers. -/
def arithmetic (op : BinaryOp) (a b : Int) : FrameM Value :=
  match op with
  | .add => checked (a + b)
  | .sub => checked (a - b)
  | .mul => checked (a * b)
  | .lt => pure (.bool (a < b))
  | _ => pure (.bool (a ≤ b))

/-- Whether a node is of a kind or of one derived from it. -/
def isA (S : Setting) (e : Entity) (kind : KindId) : FrameM Bool := do
  return S.language.isSubkind (← node e.node).kind kind

/-- Keep an entity if it is of the kind, else fail or give null. -/
def cast (S : Setting) (kind : KindId) (orRaise : Bool) : Value → FrameM Value
  | .null => pure .null
  | .entity e => do
    if ← isA S e kind then return .entity e
    else if orRaise then mismatch (S.language.kindName kind) (.entity e)
    else return .null
  | v => mismatch (S.language.kindName kind) v

/-- Whether an arm accepts a value. Null is accepted only by arms without a
kind. -/
def accepts (S : Setting) (p : ArmPattern) (v : Value) : FrameM Bool :=
  match p.kind, v with
  | none, _ => pure true
  | some kind, .entity e => isA S e kind
  | some _, _ => pure false

/-- What an arm puts into its slot. -/
def matched (p : ArmPattern) : Value → Value
  | .entity e => .entity (if p.bare then e.toBare else e)
  | v => v

/-- No arm accepts the value. -/
def noMatch (S : Setting) : Value → FrameM α
  | .entity e => do fail (.dispatch (S.language.kindName (← node e.node).kind) "match")
  | v => fail (.dispatch v.typeName "match")

mutual

/-- The equations a value stands for: an equation itself, a truth value, or
those of the elements of an array. -/
def equationsOf : Value → FrameM (List (Equation Entity))
  | .equation id => do return [← session (SessionM.read fun s => s.pool.equation id)]
  | .bool true => pure [.always]
  | .bool false => pure [.never]
  | .array ⟨items⟩ => equationsOfAll items
  | v => mismatch "equation" v

def equationsOfAll : List Value → FrameM (List (Equation Entity))
  | [] => pure []
  | v :: rest => do return (← equationsOf v) ++ (← equationsOfAll rest)

end

/-- The candidates a value lists. Null stands for no candidate. -/
def candidatesOf : List Value → FrameM (List Entity)
  | [] => pure []
  | .entity e :: rest => do return e :: (← candidatesOf rest)
  | .null :: rest => candidatesOf rest
  | v :: _ => mismatch "entity" v

end FrameM

open FrameM

mutual

def eval (S : Setting) (m : Machine) : Expr → FrameM Value
  | .lit value => pure value
  | .self => read fun f => .entity f.entity
  | .arg i => do
    match ← read fun f => f.args[i]? with
    | some value => return value
    | none => fail (.noArgument i)
  | .loc slot => read fun f => f.get slot
  | .letIn slot value body => do
    setLocal slot (← eval S m value)
    eval S m body
  | .dynVar var => do
    match ← read fun f => f.dynVars.get? var with
    | some value => return value
    | none => fail (.missingDynVar (S.language.dynVarName var))
  | .bindDynVar var value body => do
    let value ← eval S m value
    withDynVar var value (eval S m body)
  | .child e i => do
    let e ← expectEntity (← eval S m e)
    match (← node e.node).children[i]? with
    | some c => return .entity (e.sibling c)
    | none => return .null
  | .children e => do
    let e ← expectEntity (← eval S m e)
    return .array ((← node e.node).children.toArray.map fun c => .entity (e.sibling c))
  | .parent e => do
    let e ← expectEntity (← eval S m e)
    match (← node e.node).parent with
    | some p => return .entity (e.sibling p)
    | none => return .null
  | .text e => do
    let e ← expectEntity (← eval S m e)
    return .symbol (← node e.node).text
  | .metadataFlag e field => do
    let e ← expectEntity (← eval S m e)
    return .bool (e.info.metadata.field field)
  | .call receiver prop args => do
    let receiver ← expectEntity (← eval S m receiver)
    let args ← evalAll S m args
    let dynVars ← read (·.dynVars)
    session (m.call receiver prop args dynVars)
  | .nodeEnv e => do
    let e ← expectEntity (← eval S m e)
    let envs ← session (SessionM.readE fun s => s.nodeEnvs e.node)
    return .env ⟨envs.own, e.info.rebindings, .empty⟩
  | .childrenEnv e => do
    let e ← expectEntity (← eval S m e)
    let envs ← session (SessionM.readE fun s => s.nodeEnvs e.node)
    return .env ⟨envs.inner, e.info.rebindings, .empty⟩
  | .envGet env symbol first require => do
    let env ← expectEnv (← eval S m env)
    let symbol ← expectSymbol (← eval S m symbol)
    if first then
      match ← session (m.lookupFirst env symbol require) with
      | some e => return .entity e
      | none => return .null
    else return .array ((← session (m.lookup env symbol require)).map .entity)
  | .cast value kind orRaise => do cast S kind orRaise (← eval S m value)
  | .matchKind value arms => do
    let value ← eval S m value
    evalArms S m value arms
  | .ite c t e => do
    if ← expectBool (← eval S m c) then eval S m t else eval S m e
  | .binary .and lhs rhs => do
    if ← expectBool (← eval S m lhs) then return .bool (← expectBool (← eval S m rhs))
    else return .bool false
  | .binary .or lhs rhs => do
    if ← expectBool (← eval S m lhs) then return .bool true
    else return .bool (← expectBool (← eval S m rhs))
  | .binary .eq lhs rhs => do
    let a ← eval S m lhs
    let b ← eval S m rhs
    return .bool (a == b)
  | .binary .ne lhs rhs => do
    let a ← eval S m lhs
    let b ← eval S m rhs
    return .bool (a != b)
  | .binary op lhs rhs => do
    let a ← expectInt (← eval S m lhs)
    let b ← expectInt (← eval S m rhs)
    arithmetic op a b
  | .not e => do return .bool (!(← expectBool (← eval S m e)))
  | .isNull e => do return .bool (← eval S m e).isNull
  | .raise message => fail (.raised message)
  | .array items => do return .array (← evalAll S m items).toArray
  | .map items slot body => do
    let items ← expectArray (← eval S m items)
    let values ← items.toList.mapM fun item => do
      setLocal slot item
      eval S m body
    return .array values.toArray
  | .len items => do
    let items ← expectArray (← eval S m items)
    return .int items.size
  | .logicVar e i => do
    let e ← expectEntity (← eval S m e)
    match (← node e.node).vars[i]? with
    | some v => return .logicVar v
    | none => fail (.noLogicVar i)
  | .domain var values origin => do
    let v ← expectLogicVar (← eval S m var)
    let candidates ← candidatesOf (← expectArray (← eval S m values)).toList
    equation (.atom (.domain v candidates (some origin)))
  | .bind a b relation origin => do
    let a ← expectLogicVar (← eval S m a)
    let b ← expectLogicVar (← eval S m b)
    equation (.atom (.bind a b (relation.map PropId.pred) (some origin)))
  | .predicate var prop origin => do
    let v ← expectLogicVar (← eval S m var)
    equation (.atom (.predicate v prop.pred (some origin)))
  | .all items => do equation (.all (← evalEquations S m items))
  | .any items => do equation (.any (← evalEquations S m items))
  | .solve e => do
    match ← eval S m e with
    | .equation id => do
      let e ← session (SessionM.read fun s => s.pool.equation id)
      let dynVars ← read (·.dynVars)
      return .bool (← session (EvalM.solve S m e dynVars))
    | v => mismatch "equation" v
  | .logicValue var => do
    let v ← expectLogicVar (← eval S m var)
    return .entity (← session (SessionM.readE fun s => s.logicValue v))

def evalAll (S : Setting) (m : Machine) : List Expr → FrameM (List Value)
  | [] => pure []
  | e :: rest => do
    let v ← eval S m e
    return v :: (← evalAll S m rest)

/-- The equations of several operands. An operand is turned into equations
before the next one is evaluated. -/
def evalEquations (S : Setting) (m : Machine) : List Expr → FrameM (List (Equation Entity))
  | [] => pure []
  | e :: rest => do
    let es ← equationsOf (← eval S m e)
    return es ++ (← evalEquations S m rest)

/-- The first arm that accepts the value is the one evaluated. -/
def evalArms (S : Setting) (m : Machine) (value : Value) : List (ArmPattern × Expr) → FrameM Value
  | [] => noMatch S value
  | (p, body) :: rest => do
    if ← accepts S p value then
      setLocal p.slot (matched p value)
      eval S m body
    else evalArms S m value rest

end

end Trellis
