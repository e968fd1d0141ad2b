import Trellis.Language.Builder
import Trellis.Language.Check

/-! From declarations to a language: all findings are reported together, and
if none of them is an error, dispatch is resolved once and for all. -/
namespace Trellis

namespace Definition

/-- Where a call of a property on a kind leads. No node is of an abstract
kind. -/
def dispatchOf (d : Definition) (k : KindInfo) (p : PropertyInfo) : Option Dispatch :=
  if k.isAbstract then none
  else (d.mostDerived k p).map fun i =>
    if (d.implementation? i).any (·.body.isAbstract) then .missing else .runs i

def dispatchTable (d : Definition) : Array (Array (Option Dispatch)) :=
  d.kinds.map fun k => d.properties.map fun p => d.dispatchOf k p

end Definition

namespace Builder

/-- The log with everything that is to be said about the whole definition. -/
def finalLog (b : Builder) : DefinitionLog := b.definition.findings.foldl DefinitionLog.record b.log

/-- Check the definition and make it a language. -/
def build (b : Builder) : Except DefinitionError Language :=
  let (result, log) := b.finalLog.checkpoint
  result.map fun _ =>
    { b.definition with table := b.definition.dispatchTable, warnings := log.warnings }

end Builder
end Trellis
