import Trellis.Language.Basic
import Trellis.Scope.Store
import Trellis.Session.Config
import Trellis.Session.Memo

/-! An analysis session: the tree, the environments and everything that was
found out about them so far. Operations on a session can fail without undoing
what they did, so the state goes on after a failure. -/
namespace Trellis

/-- A node that a unit plan refers to: one it made itself, by position, or one
that exists anyway. -/
inductive PlanRef where
  | planned (index : Nat)
  | existing (node : NodeId)
deriving DecidableEq, Repr

inductive PlannedNode where
  | inner (kind : KindId) (children : List PlanRef)
  | token (kind : KindId) (text : String)
deriving DecidableEq, Repr

/-- How the tree of a unit is made when the unit is first needed. -/
structure UnitPlan where
  nodes : List PlannedNode
  root : PlanRef
deriving DecidableEq, Repr

/-- Whether units can be loaded on demand. While one is being loaded, no other
can be. -/
inductive LoaderState where
  | absent
  | ready
  | loading
deriving DecidableEq, Repr

structure Session where
  pool : Pool
  tree : Tree
  envs : EnvStore
  memo : Memo
  bag : DiagnosticBag
  /-- The top-level environments of units, each unit's first one counting. -/
  unitEnvs : List (UnitId × EnvId)
  /-- How units are made, the plan registered last counting. -/
  plans : List (Symbol × UnitPlan)
  loader : LoaderState
  /-- How many property bodies are running. -/
  depth : Nat
  /-- A number the host keeps for its own purposes. -/
  counter : Int

/-- What stays the same throughout a session. -/
structure Setting where
  language : Language
  config : EvalConfig

/-- Why an operation stopped: it failed, or it was nested too deeply to be
followed any further. Only the first is an outcome of the analysis. -/
inductive Interrupt (ε : Type) where
  | failure (cause : ε)
  | exhausted
deriving DecidableEq, Repr

abbrev SessionM (ε : Type) := ExceptT (Interrupt ε) (StateM Session)

/-- Operations that fail the way property calls do. -/
abbrev EvalM := SessionM PropertyError

namespace Session

/-- A session over nothing yet. -/
def new (pool : Pool) (bag : BagConfig) (loader : LoaderState) : Session where
  pool := pool
  tree := .empty
  envs := .new
  memo := .empty
  bag := .new bag
  unitEnvs := []
  plans := []
  loader := loader
  depth := 0
  counter := 0

/-- The oldest unit of that name. -/
def unitByName (s : Session) (name : Symbol) : Option UnitId :=
  (s.tree.units.findIdx? (·.name = name)).map (⟨·⟩)

def root (s : Session) (u : UnitId) : Option NodeId := (s.tree.units[u.raw]?).bind (·.root)

/-- The top-level environment of a unit whose population was begun. -/
def unitEnv (s : Session) (u : UnitId) : Option EnvId := s.unitEnvs.lookup u

/-- The environment a unit's population starts from. -/
def addUnitEnv (s : Session) (u : UnitId) (e : EnvId) : Session :=
  if (s.unitEnv u).isSome then s else { s with unitEnvs := s.unitEnvs ++ [(u, e)] }

def plan (s : Session) (name : Symbol) : Option UnitPlan := s.plans.lookup name

def hasPlan (s : Session) (name : Symbol) : Bool := (s.plan name).isSome

def registerPlan (s : Session) (name : Symbol) (plan : UnitPlan) : Session :=
  { s with plans := (name, plan) :: s.plans.filter (·.1 ≠ name) }

/-- The place of a node, for a report about it. -/
def nodeLocation (s : Session) (n : NodeId) : Location :=
  .node n (((s.tree.node? n).map (·.span)).getD .dummy)

def report (s : Session) (code : ErrorCode) (message : String) (location : Location) : Session :=
  { s with bag := s.bag.fail code message location }

/-- The environments population gave a node. -/
def nodeEnvs (s : Session) (n : NodeId) : Except PropertyError NodeEnvs :=
  match s.tree.node n with
  | .error e => .error (.of (.tree e))
  | .ok node =>
    match node.envs with
    | some envs => .ok envs
    | none => .error (.of (.notPopulated n))

/-- The value of a solved logic variable. -/
def logicValue (s : Session) (v : VarId) : Except PropertyError Entity :=
  match s.tree.value v with
  | some e => .ok e
  | none => .error (.of (.unboundLogicVar v))

def text (s : Session) : String :=
  "Analysis \x7b nodes: " ++ toString s.tree.size ++ ", envs: " ++ toString s.envs.size ++
    ", diagnostics: " ++ toString s.bag.size ++ ", .. \x7d"

/-- The same with the registry of units that a host with unit loading has. -/
def contextText (s : Session) : String :=
  "AnalysisContext \x7b analysis: " ++ s.text ++ ", registry: UnitRegistry \x7b providers: " ++
    toString s.plans.length ++ " \x7d, .. \x7d"

end Session

namespace SessionM

def fail (e : ε) : SessionM ε α := throw (.failure e)

/-- A step that cannot change the session. -/
def ofExcept : Except ε α → SessionM ε α
  | .ok a => pure a
  | .error e => fail e

/-- Read something off the session. -/
def read (f : Session → α) : SessionM ε α := fun s => (.ok (f s), s)

/-- Read something off the session that may not be there. -/
def readE (f : Session → Except ε α) : SessionM ε α := fun s => (ofExcept (f s)).run s

/-- Do something and report its failure under another name. -/
def mapError (f : ε → δ) (act : SessionM ε α) : SessionM δ α := fun s =>
  match act s with
  | (.ok a, s) => (.ok a, s)
  | (.error (.failure e), s) => (.error (.failure (f e)), s)
  | (.error .exhausted, s) => (.error .exhausted, s)

/-- Do something and go on whether or not it failed. -/
def attempt (act : SessionM ε α) : SessionM ε (Except ε α) := fun s =>
  match act s with
  | (.ok a, s) => (.ok (.ok a), s)
  | (.error (.failure e), s) => (.ok (.error e), s)
  | (.error .exhausted, s) => (.error .exhausted, s)

/-- Do something between two changes of the session; the second is made however
it ended. -/
def bracket (before : Session → Session) (act : SessionM ε α)
    (after : Except (Interrupt ε) α → Session → Session) : SessionM ε α := fun s =>
  let (r, s) := act (before s)
  (r, after r s)

end SessionM

namespace EvalM

def fail (fault : Fault) : EvalM α := SessionM.fail (.of fault)

def ofTree : Except TreeError α → EvalM α
  | .ok a => pure a
  | .error e => fail (.tree e)

/-- An existing node. -/
def node (n : NodeId) : EvalM Node := fun s => (ofTree (s.tree.node n)).run s

/-- Change the environment store; a refusal is a failure. -/
def changeEnvs (f : EnvStore → Except EnvError α × EnvStore) : EvalM α := fun s =>
  let (r, envs) := f s.envs
  (r.mapError fun e => .failure (.of (.env e)), { s with envs })

end EvalM

/-- What to look for: the symbol, the metadata a result must carry, and whether
one result is enough. -/
structure LookupQuery where
  symbol : Symbol
  require : Metadata
  first : Bool
deriving DecidableEq, Repr

/-- Whether nothing more needs to be found. -/
def LookupQuery.done (q : LookupQuery) (found : Array Entity) : Bool := q.first && !found.isEmpty

/-- The activities that can set each other off: calling a property, searching
an environment on behalf of the environments being searched already, and
resolving a reference. Everything else is built from these. -/
structure Machine where
  call : Entity → PropId → List Value → DynVars → EvalM Value
  search : LookupQuery → EnvValue → (visiting : List EnvId) → (found : Array Entity) →
    EvalM (Array Entity)
  resolve : EnvId → Nat → EvalM EnvValue

/-- The machine that can do nothing any more. -/
def Machine.exhausted : Machine where
  call _ _ _ _ := throw .exhausted
  search _ _ _ _ := throw .exhausted
  resolve _ _ := throw .exhausted

/-- Every entity bound to a symbol in an environment, in order of precedence. -/
def Machine.lookup (m : Machine) (env : EnvValue) (symbol : Symbol) (require : Metadata) :
    EvalM (Array Entity) :=
  m.search ⟨symbol, require, false⟩ env [] #[]

/-- The first entity bound to a symbol in an environment. -/
def Machine.lookupFirst (m : Machine) (env : EnvValue) (symbol : Symbol) (require : Metadata) :
    EvalM (Option Entity) := do
  return (← m.search ⟨symbol, require, true⟩ env [] #[])[0]?

end Trellis
