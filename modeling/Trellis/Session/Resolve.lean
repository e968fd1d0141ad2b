import Trellis.Session.Perform

/-! Resolving references. The environment behind a reference is produced when
it is first needed and kept from then on. While it is being produced the
reference is marked, so that a reference that depends on itself is noticed; it
then counts as empty for whoever asked, and nothing is kept. -/
namespace Trellis

/-- Tell that a reference depends on itself. -/
def Session.reportCycle (s : Session) (env : EnvId) (index : Nat) : Session :=
  let location := match s.envs.owner env with
    | some n => s.nodeLocation n
    | none => .unknown
  s.report .K2002
    ("referenced environment " ++ toString index ++ " of " ++ env.text ++ " depends on itself")
    location

namespace EvalM

/-- An environment produced by evaluation; null is the empty one. -/
def expectEnv : Value → EvalM EnvValue
  | .env e => pure e
  | .null => pure .empty
  | v => fail (.typeMismatch "env" v.typeName)

/-- Produce the environment behind a reference. -/
def force (S : Setting) (m : Machine) : EnvThunk → EvalM EnvValue
  | .source (.env value) => pure value
  | .source (.property entity prop) => do
    let value ← m.call entity prop [] .none
    (expectEnv value).mapError (·.claimedBy entity.node prop)
  | .source (.unit name) => do
    let u ← loadUnit S m name
    expectEnv (← unitEnvValue u)
  | .custom script => do expectEnv (← runScript S m script)

/-- The environment behind a reference, produced if need be. A failure leaves
the reference as it was, to be tried again. -/
def resolveWith (S : Setting) (m : Machine) (env : EnvId) (index : Nat) : EvalM EnvValue := do
  match ← SessionM.read fun s => s.envs.reference? env index with
  | none => return .empty
  | some reference =>
    match reference.state with
    | .resolved value => return value
    | .resolving =>
      modify (Session.reportCycle · env index)
      return .empty
    | .unresolved =>
      let mark (state : RefState) (s : Session) : Session :=
        { s with envs := s.envs.setState env index state }
      SessionM.bracket (mark .resolving) (force S m reference.thunk) fun
        | .ok value => mark (.resolved value)
        | .error _ => mark .unresolved

end EvalM
end Trellis
