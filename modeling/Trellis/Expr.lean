import Trellis.Value

/-! The expressions that property bodies and environment specifications are
made of. -/
namespace Trellis

inductive BinaryOp where
  | add | sub | mul | eq | ne | lt | le | and | or
deriving DecidableEq, Repr

/-- What one arm of a match accepts and where it puts what it accepted. An arm
without a kind accepts everything, null included; a bare arm forgets how the
node was reached. -/
structure ArmPattern where
  kind : Option KindId
  slot : Nat
  bare : Bool
deriving DecidableEq, Repr

inductive Expr where
  | lit (value : Value)
  | self
  | arg (index : Nat)
  | loc (slot : Nat)
  | letIn (slot : Nat) (value body : Expr)
  | dynVar (var : DynVarId)
  | bindDynVar (var : DynVarId) (value body : Expr)
  | child (node : Expr) (index : Nat)
  | children (node : Expr)
  | parent (node : Expr)
  | text (node : Expr)
  | metadataFlag (entity : Expr) (field : Nat)
  | call (receiver : Expr) (prop : PropId) (args : List Expr)
  | nodeEnv (node : Expr)
  | childrenEnv (node : Expr)
  | envGet (env symbol : Expr) (first : Bool) (require : Metadata)
  | cast (value : Expr) (kind : KindId) (orRaise : Bool)
  | matchKind (value : Expr) (arms : List (ArmPattern × Expr))
  | ite (cond then_ else_ : Expr)
  | binary (op : BinaryOp) (lhs rhs : Expr)
  | not (operand : Expr)
  | isNull (operand : Expr)
  | raise (message : String)
  | array (items : List Expr)
  | map (array : Expr) (slot : Nat) (body : Expr)
  | len (array : Expr)
  | logicVar (node : Expr) (index : Nat)
  | domain (var values : Expr) (origin : Site)
  | bind (a b : Expr) (relation : Option PropId) (origin : Site)
  | predicate (var : Expr) (prop : PropId) (origin : Site)
  | all (items : List Expr)
  | any (items : List Expr)
  | solve (equation : Expr)
  | logicValue (var : Expr)
deriving Repr, Inhabited

namespace Expr

/-- Call a property of the receiver itself, without arguments. -/
def selfCall (prop : PropId) : Expr := call self prop []

/-- The direct parts of an expression, in the order they are evaluated. -/
def parts : Expr → List Expr
  | lit _ | self | arg _ | loc _ | dynVar _ | raise _ => []
  | letIn _ value body | bindDynVar _ value body => [value, body]
  | child e _ | children e | parent e | text e | metadataFlag e _ | nodeEnv e | childrenEnv e
  | cast e _ _ | not e | isNull e | len e | logicVar e _ | predicate e _ _ | solve e
  | logicValue e => [e]
  | call receiver _ args => receiver :: args
  | envGet env symbol _ _ => [env, symbol]
  | matchKind value arms => value :: arms.map (·.2)
  | ite c t e => [c, t, e]
  | binary _ lhs rhs => [lhs, rhs]
  | array items | all items | any items => items
  | map items _ body => [items, body]
  | domain var values _ => [var, values]
  | bind a b _ _ => [a, b]

mutual

/-- One more than the highest local slot an expression uses. -/
def frameSize : Expr → Nat
  | loc slot => slot + 1
  | letIn slot value body => max (slot + 1) (max value.frameSize body.frameSize)
  | map items slot body => max (slot + 1) (max items.frameSize body.frameSize)
  | matchKind value arms => max value.frameSize (frameSizeOfArms arms)
  | lit _ | self | arg _ | dynVar _ | raise _ => 0
  | child e _ | children e | parent e | text e | metadataFlag e _ | nodeEnv e | childrenEnv e
  | cast e _ _ | not e | isNull e | len e | logicVar e _ | predicate e _ _ | solve e
  | logicValue e => e.frameSize
  | bindDynVar _ a b | envGet a b _ _ | binary _ a b | domain a b _ | bind a b _ _ =>
    max a.frameSize b.frameSize
  | ite c t e => max c.frameSize (max t.frameSize e.frameSize)
  | call receiver _ args => max receiver.frameSize (frameSizeOfAll args)
  | array items | all items | any items => frameSizeOfAll items

def frameSizeOfAll : List Expr → Nat
  | [] => 0
  | e :: rest => max e.frameSize (frameSizeOfAll rest)

def frameSizeOfArms : List (ArmPattern × Expr) → Nat
  | [] => 0
  | (p, e) :: rest => max (p.slot + 1) (max e.frameSize (frameSizeOfArms rest))

end

end Expr
end Trellis
