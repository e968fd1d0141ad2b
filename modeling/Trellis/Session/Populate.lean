import Trellis.Session.Eval

/-! Population: every node below a root runs the environment actions of its
kind, parents before children, and is given its environments. A node is
populated once; a subtree in which any node is populated already is left
alone. -/
namespace Trellis

open FrameM

/-- Operations that fail the way population does. -/
abbrev PopulateM := SessionM PopulateError

namespace PopulateM

def ofEval (act : EvalM α) : PopulateM α := act.mapError .property

def ofTree : Except TreeError α → PopulateM α
  | .ok a => pure a
  | .error e => SessionM.fail (.tree e)

end PopulateM

/-- The environment that an expression names. -/
def evalEnv (S : Setting) (m : Machine) (e : Expr) : FrameM EnvId := do
  return (← expectEnv (← eval S m e)).env

/-- The environment a node starts from: what its last action to replace the
initial environment says, wherever that action stands. -/
def initialEnv (S : Setting) (m : Machine) (ambient : EnvId) : List EnvAction → FrameM EnvId
  | [] => pure ambient
  | .setInitialEnv e :: rest => do initialEnv S m (← evalEnv S m e) rest
  | _ :: rest => initialEnv S m ambient rest

/-- Tell that a binding has no key. -/
def Session.reportNullKey (s : Session) (n : NodeId) : Session :=
  s.report .K2001 ("null key for a binding of " ++ n.text) (s.nodeLocation n)

/-- Add a binding. Without a key it is reported and left out; without a value
it is left out silently. -/
def addToEnv (S : Setting) (m : Machine) (n : NodeId) (ambient : EnvId) (key value : Expr)
    (metadata : Metadata) (dest : Option Expr) : FrameM Unit := do
  let noKey : FrameM Unit := session (modify (Session.reportNullKey · n))
  match ← eval S m key with
  | .null => noKey
  | .symbol symbol =>
    if symbol.isEmpty then noKey
    else match ← eval S m value with
      | .null => return
      | .entity e => do
        let target ← match dest with
          | none => pure ambient
          | some dest => do
            match ← eval S m dest with
            | .env target => pure target.env
            | v => mismatch "env" v
        session (EvalM.changeEnvs (·.addBinding target symbol e metadata))
      | v => mismatch "entity" v
  | v => mismatch "symbol" v

/-- The entities that references are to be made to. -/
def referenceTargets : Value → FrameM (List Entity)
  | .entity e => pure [e]
  | .null => pure []
  | .array items => pure (items.toList.filterMap Value.entity?)
  | v => mismatch "entity" v

def addReference (env : EnvId) (source : EnvSource) (crossing : Crossing) : FrameM Unit := do
  let _ ← session (EvalM.changeEnvs (·.addReference env (.source source) crossing))

/-- Run one action. The result is the ambient environment after it. -/
def runAction (S : Setting) (m : Machine) (n : NodeId) (ambient : EnvId) :
    EnvAction → FrameM EnvId
  | .setInitialEnv _ => pure ambient
  | .addToEnv key value metadata dest => do
    addToEnv S m n ambient key value metadata dest
    return ambient
  | .addEnv => session fun s =>
    let (env, envs) := s.envs.create (some ambient) (some n)
    (.ok env, { s with envs })
  | .reference nodes through metadata rebind => do
    let targets ← referenceTargets (← eval S m nodes)
    let rebind ← match rebind with
      | none => pure none
      | some (old, new) => do
        let old ← evalEnv S m old
        let new ← evalEnv S m new
        pure (some (old, new))
    targets.forM fun e => addReference ambient (.property e through) ⟨metadata, rebind⟩
    return ambient
  | .referenceUnit name => do
    addReference ambient (.unit name) .none
    return ambient

/-- Run the actions of a node. The result is its environments. -/
def runSpec (S : Setting) (m : Machine) (n : NodeId) (ambient : EnvId) (spec : EnvSpec) :
    EvalM NodeEnvs :=
  runIn (.new (.bare n) [] .none spec.frameSize) do
    let own ← initialEnv S m ambient spec.actions
    let inner ← spec.actions.foldlM (runAction S m n) own
    return ⟨own, inner⟩

/-- Populate a node and everything below it. -/
def populateNode (S : Setting) (m : Machine) (n : NodeId) (ambient : EnvId) :
    PopulateM Unit := do
  let node ← PopulateM.ofTree (← SessionM.read fun s => s.tree.node n)
  let children ← SessionM.read fun s => s.tree.childrenOf n
  let envs ← match S.language.envSpec node.kind with
    | some spec => PopulateM.ofEval (runSpec S m n ambient spec.spec)
    | none => pure ⟨ambient, ambient⟩
  let tree ← PopulateM.ofTree (← SessionM.read fun s => s.tree.setEnvs n envs)
  modify ({ · with tree })
  children.forM fun ⟨c, _⟩ => populateNode S m c envs.inner
termination_by n.raw

/-- The first node below `root` that is populated, parents before children. -/
def Tree.firstPopulated (t : Tree) (root : NodeId) : Except TreeError (Option NodeId) := do
  let _ ← t.node root
  return t.firstBelow Node.isPopulated root

/-- Open the environment that a root is populated in when nothing around it is
populated. It becomes the environment of the unit if this is the unit's root. -/
def Session.openTop (s : Session) (root : NodeId) (unit : UnitId) : EnvId × Session :=
  let (env, envs) := s.envs.create none (some root)
  let s := { s with envs }
  (env, if s.root unit = some root then s.addUnitEnv unit env else s)

/-- The environment inside the parent of a node, once that is populated. -/
def Tree.aroundEnv (t : Tree) (n : Node) : Option EnvId := do
  return (← (← t.node? (← n.parent)).envs).inner

/-- Populate a subtree. -/
def populateWith (S : Setting) (m : Machine) (root : NodeId) : PopulateM Unit := do
  match ← PopulateM.ofTree (← SessionM.read fun s => s.tree.firstPopulated root) with
  | some n =>
    modify fun s => s.report .K2003
      ("environments of " ++ n.text ++ " are already populated") (s.nodeLocation n)
    SessionM.fail (.alreadyPopulated n)
  | none =>
    let node ← PopulateM.ofTree (← SessionM.read fun s => s.tree.node root)
    let ambient ← match ← SessionM.read fun s => s.tree.aroundEnv node with
      | some env => pure env
      | none => fun s => let (env, s) := s.openTop root node.unit; (.ok env, s)
    populateNode S m root ambient

end Trellis
