import Trellis.Diagnostic.Bag
import Trellis.Solver

/-! Settings of a session. -/
namespace Trellis

/-- Settings of the evaluator. -/
structure EvalConfig where
  /-- Whether results of memoized properties are remembered. -/
  memoize : Bool
  /-- How deep property calls may nest; zero sets no limit. -/
  maxCallDepth : Nat
  solver : SolverConfig
deriving DecidableEq, Repr

def EvalConfig.standard : EvalConfig := ⟨true, 10000, .standard⟩

instance : Inhabited EvalConfig := ⟨.standard⟩

/-- How a trace of the evaluation is laid out. -/
inductive TraceFormat where
  | flat | tree
deriving DecidableEq, Repr

/-- Settings of a session with everything a host can choose. -/
structure AnalysisConfig extends EvalConfig where
  diagnostics : BagConfig
  trace : Option TraceFormat
deriving DecidableEq, Repr

namespace AnalysisConfig

def standard : AnalysisConfig := ⟨.standard, .standard, none⟩

/-- Nothing is dropped from the diagnostics, and nothing is forwarded. -/
def unlimited : AnalysisConfig := { standard with diagnostics := .unlimited }

instance : Inhabited AnalysisConfig := ⟨standard⟩

end AnalysisConfig
end Trellis
