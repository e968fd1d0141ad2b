import Trellis.Session.Call
import Trellis.Session.Resolve

/-! The machine, and the operations a host asks for. The machine is unrolled to
a depth of nesting that no analysis reaches; an analysis that did reach it
would be told so, which is not an outcome of the analysis. -/
namespace Trellis

mutual

def callTo (S : Setting) : (depth : Nat) → Entity → PropId → List Value → DynVars → EvalM Value
  | 0, _, _, _, _ => throw .exhausted
  | n + 1, entity, prop, args, dynVars =>
    EvalM.callWith S ⟨callTo S n, searchTo S n, resolveTo S n⟩ entity prop args dynVars

def searchTo (S : Setting) : (depth : Nat) → LookupQuery → EnvValue → List EnvId → Array Entity →
    EvalM (Array Entity)
  | 0, _, _, _, _ => throw .exhausted
  | n + 1, q, view, visiting, found =>
    EvalM.searchWith ⟨callTo S n, searchTo S n, resolveTo S n⟩ q view visiting found

def resolveTo (S : Setting) : (depth : Nat) → EnvId → Nat → EvalM EnvValue
  | 0, _, _ => throw .exhausted
  | n + 1, env, index =>
    EvalM.resolveWith S ⟨callTo S n, searchTo S n, resolveTo S n⟩ env index

end

/-- The machine that follows activities nested up to `depth` deep. -/
def Machine.upTo (S : Setting) (depth : Nat) : Machine :=
  ⟨callTo S depth, searchTo S depth, resolveTo S depth⟩

/-- Activities nested so deeply would not fit into any memory. -/
def nestingLimit : Nat := 1000000000

/-- The machine that a session runs on. -/
def Setting.machine (S : Setting) : Machine := .upTo S nestingLimit

end Trellis
