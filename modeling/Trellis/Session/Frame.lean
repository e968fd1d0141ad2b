import Trellis.Session.Basic

/-! The frame an expression is evaluated in. Local slots keep the last value
put into them; dynamic variables are bound for the length of one evaluation. -/
namespace Trellis

structure Frame where
  entity : Entity
  args : List Value
  dynVars : DynVars
  locals : Array Value
deriving DecidableEq, Repr

namespace Frame

def new (entity : Entity) (args : List Value) (dynVars : DynVars) (size : Nat) : Frame :=
  ⟨entity, args, dynVars, Array.replicate size .null⟩

/-- The value in a slot; an unused slot holds null. -/
def get (f : Frame) (slot : Nat) : Value := f.locals.getD slot .null

/-- Put a value into a slot, after making room for it if need be. -/
def set (f : Frame) (slot : Nat) (value : Value) : Frame :=
  let room := f.locals ++ Array.replicate (slot + 1 - f.locals.size) .null
  { f with locals := room.setIfInBounds slot value }

end Frame

/-- An evaluation in a frame. -/
abbrev FrameM := ExceptT (Interrupt PropertyError) (StateT Frame (StateM Session))

namespace FrameM

/-- An operation on the session that does not concern the frame. -/
def session (act : EvalM α) : FrameM α := fun f s =>
  let (r, s) := act s
  ((r, f), s)

def fail (fault : Fault) : FrameM α := session (EvalM.fail fault)

def mismatch (expected : String) (found : Value) : FrameM α :=
  fail (.typeMismatch expected found.typeName)

def read (g : Frame → α) : FrameM α := fun f s => ((.ok (g f), f), s)

def node (n : NodeId) : FrameM Node := session (EvalM.node n)

def setLocal (slot : Nat) (value : Value) : FrameM Unit := fun f s =>
  ((.ok (), f.set slot value), s)

/-- Evaluate with a dynamic variable bound; afterwards the bindings are what
they were, however the evaluation ended. -/
def withDynVar (var : DynVarId) (value : Value) (act : FrameM α) : FrameM α := fun f s =>
  let ((r, g), s) := act { f with dynVars := f.dynVars.set var value } s
  ((r, { g with dynVars := f.dynVars }), s)

/-- Enter an equation into the pool, as a value of its own. -/
def equation (e : Equation Entity) : FrameM Value := fun f s =>
  let (id, pool) := s.pool.addEquation e
  ((.ok (.equation id), f), { s with pool })

/-- Evaluate in a frame that is no longer needed afterwards. -/
def runIn (frame : Frame) (act : FrameM α) : EvalM α := fun s =>
  let ((r, _), s) := act frame s
  (r, s)

/-! What an operator expects of its operands. -/

def expectEntity : Value → FrameM Entity
  | .entity e => pure e
  | .null => fail .nullReceiver
  | v => mismatch "entity" v

def expectBool : Value → FrameM Bool
  | .bool b => pure b
  | v => mismatch "bool" v

def expectInt : Value → FrameM Int
  | .int n => pure n
  | v => mismatch "int" v

def expectSymbol : Value → FrameM Symbol
  | .symbol s => pure s
  | v => mismatch "symbol" v

/-- An array; null has no elements. -/
def expectArray : Value → FrameM (Array Value)
  | .array items => pure items
  | .null => pure #[]
  | v => mismatch "array" v

def expectLogicVar : Value → FrameM VarId
  | .logicVar v => pure v
  | v => mismatch "logic var" v

/-- An environment; null is the empty one. -/
def expectEnv : Value → FrameM EnvValue
  | .env e => pure e
  | .null => pure .empty
  | v => mismatch "env" v

end FrameM
end Trellis
