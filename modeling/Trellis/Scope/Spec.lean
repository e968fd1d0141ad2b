import Trellis.Expr

/-! Declarative descriptions of the environments that a node opens and fills.
The actions of a specification run in order against an ambient environment;
opening a new one makes it ambient for the actions after it and for the
children of the node. -/
namespace Trellis

inductive EnvAction where
  /-- Replace the ambient environment, before any other action runs. -/
  | setInitialEnv (env : Expr)
  /-- Bind a value under a key, in `dest` or else in the ambient environment. -/
  | addToEnv (key value : Expr) (metadata : Metadata) (dest : Option Expr)
  /-- Open a new environment inside the ambient one. -/
  | addEnv
  /-- Refer to the environments that `through` gives for each of the nodes. -/
  | reference (nodes : Expr) (through : PropId) (metadata : Metadata)
      (rebind : Option (Expr × Expr))
  /-- Refer to the top-level environment of another unit. -/
  | referenceUnit (name : Symbol)
deriving Repr, Inhabited

namespace EnvAction

/-- Bind the node itself under `key`. -/
def bindSelf (key : Expr) : EnvAction := addToEnv key .self .empty none

/-- The expressions an action evaluates. -/
def exprs : EnvAction → List Expr
  | setInitialEnv env => [env]
  | addToEnv key value _ dest => key :: value :: dest.toList
  | reference nodes _ _ rebind =>
    match rebind with
    | some (old, new) => [nodes, old, new]
    | none => [nodes]
  | addEnv | referenceUnit _ => []

end EnvAction

structure EnvSpec where
  actions : List EnvAction
  site : Site
deriving Repr, Inhabited

namespace EnvSpec

def exprs (s : EnvSpec) : List Expr := s.actions.flatMap EnvAction.exprs

/-- The slots needed by the frame that all actions of a node share. -/
def frameSize (s : EnvSpec) : Nat := s.exprs.foldl (fun n e => max n e.frameSize) 0

end EnvSpec
end Trellis
