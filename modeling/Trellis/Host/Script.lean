import Trellis.DynVars
import Trellis.Error

/-! Code that a host plugs into a language or a session. Such code acts on the
session only by asking for the session's own operations, one after the other,
and goes on with each answer; a script is the tree of all ways this can go. -/
namespace Trellis

/-- Where the environments of a reference come from. -/
inductive EnvSource where
  /-- An environment known from the start. -/
  | env (value : EnvValue)
  /-- The environment a property of an entity evaluates to. -/
  | property (entity : Entity) (prop : PropId)
  /-- The top-level environment of another unit. -/
  | unit (name : Symbol)
deriving DecidableEq, Repr

/-- What a reference adds to the context of everything found through it. -/
structure Crossing where
  metadata : Metadata
  rebind : Option (EnvId × EnvId)
deriving DecidableEq, Repr

def Crossing.none : Crossing := ⟨.empty, Option.none⟩

/-- The operations a script can ask for. -/
inductive Request where
  | call (entity : Entity) (prop : PropId) (args : List Value) (dynVars : DynVars)
  | lookup (env : EnvValue) (symbol : Symbol) (require : Metadata)
  | lookupFirst (env : EnvValue) (symbol : Symbol) (require : Metadata)
  | resolve (env : EnvId) (index : Nat)
  | nodeEnv (node : NodeId)
  | logicValue (var : VarId)
  | solve (equation : EquationId) (dynVars : DynVars)
  | populate (node : NodeId)
  | loadUnit (name : Symbol)
  | createEnv (parent : Option EnvId) (owner : Option NodeId)
  | addBinding (env : EnvId) (symbol : Symbol) (entity : Entity) (metadata : Metadata)
  | addReference (env : EnvId) (source : EnvSource) (crossing : Crossing)
  /-- Add to the counter that the host keeps in the session. -/
  | count (by_ : Int)
deriving DecidableEq, Repr

inductive Script where
  | done (result : Except PropertyError Value)
  | ask (request : Request) (next : Except PropertyError Value → Script)

namespace Script

def give (value : Value) : Script := done (.ok value)

def raise (message : String) : Script := done (.error (.of (.raised message)))

/-- Ask, and go on only with an answer. -/
def andThen (request : Request) (next : Value → Script) : Script :=
  ask request fun
    | .ok value => next value
    | .error e => done (.error e)

end Script

/-- What an external property body is told about its call. Only the dynamic
variables that the property declares are among `dynVars`. -/
structure ExternalCall where
  entity : Entity
  prop : PropId
  args : List Value
  dynVars : DynVars
  /-- The token text of the receiver. -/
  text : String

end Trellis
