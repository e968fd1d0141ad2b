import Trellis.Session.Load
import Trellis.Session.Lookup

/-! Running scripts: each request of a script is the session's own operation of
that name, and its outcome decides how the script goes on. -/
namespace Trellis.EvalM

/-- The top-level environment of a loaded unit, or null. -/
def unitEnvValue (u : UnitId) : EvalM Value :=
  SessionM.read fun s =>
    match s.unitEnv u with
    | some env => .env (.plain env)
    | none => .null

def perform (S : Setting) (m : Machine) : Request → EvalM Value
  | .call entity prop args dynVars => m.call entity prop args dynVars
  | .lookup env symbol require => do return .array ((← m.lookup env symbol require).map .entity)
  | .lookupFirst env symbol require => do
    match ← m.lookupFirst env symbol require with
    | some e => return .entity e
    | none => return .null
  | .resolve env index => do return .env (← m.resolve env index)
  | .nodeEnv n => do return .env (.plain (← SessionM.readE fun s => s.nodeEnvs n).own)
  | .logicValue v => do return .entity (← SessionM.readE fun s => s.logicValue v)
  | .solve id dynVars => do
    let e ← SessionM.read fun s => s.pool.equation id
    return .bool (← solve S m e dynVars)
  | .populate n => do
    (populateWith S m n).mapError PopulateError.toPropertyError
    return .unit
  | .loadUnit name => do unitEnvValue (← loadUnit S m name)
  | .createEnv parent owner => fun s =>
    let (env, envs) := s.envs.create parent owner
    (.ok (.env (.plain env)), { s with envs })
  | .addBinding env symbol entity metadata => do
    changeEnvs (·.addBinding env symbol entity metadata)
    return .unit
  | .addReference env source crossing => do
    let index ← changeEnvs (·.addReference env (.source source) crossing)
    return .int index
  | .count by_ => fun s =>
    (.ok (.int (s.counter + by_)), { s with counter := s.counter + by_ })

def runScript (S : Setting) (m : Machine) : Script → EvalM Value
  | .done result => SessionM.ofExcept result
  | .ask request next => do
    let outcome ← SessionM.attempt (perform S m request)
    runScript S m (next outcome)

end Trellis.EvalM
