import Trellis.Language.Basic

/-! Descriptions of a language's properties for people. -/
namespace Trellis

structure PropertyDescription where
  name : String
  owner : String
  /-- Names of parameters and of their types. -/
  params : List (String × String)
  returns : String
  dynVars : List String
  isPublic : Bool
  memoized : Bool
  /-- Whether some implementation is the host's. -/
  isExternal : Bool
  /-- Whether the first implementation is abstract. -/
  isAbstract : Bool
  /-- How many implementations override the first. -/
  overrides : Nat
deriving DecidableEq, Repr

namespace Definition

def describe (d : Definition) (p : PropId) : Option PropertyDescription := do
  let info ← d.property? p
  let first ← d.implementation? (← info.implementations.head?)
  return {
    name := info.name
    owner := ((d.kind? info.owner).map (·.name)).getD ""
    params := info.params.map fun (name, type) => (name, type.text)
    returns := info.returns.text
    dynVars := info.dynVars.filterMap fun v => (d.dynVar? v).map (·.name)
    isPublic := info.isPublic
    memoized := info.memoized
    isExternal := info.implementations.any fun i => (d.implementation? i).any (·.body.isExternal)
    isAbstract := first.body.isAbstract
    overrides := info.implementations.length - 1 }

/-- The older properties that are called in the same way. -/
def sameSignature (d : Definition) (p : PropertyInfo) : List PropertyInfo :=
  d.properties.toList.filter fun q => q.id.raw < p.id.raw && q.sameSignature p

end Definition
end Trellis
