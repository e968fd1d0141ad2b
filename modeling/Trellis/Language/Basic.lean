import Trellis.Scope.Spec
import Trellis.Host.Script
import Trellis.Diagnostic.Basic

/-! Language definitions: the kinds of nodes, the properties that can be asked
of them, dynamic variables, and the environments that nodes open. A definition
is the collection of declarations; a language is a checked definition together
with the answer, for every concrete kind and property, to which body runs. -/
namespace Trellis

/-- The body of one implementation of a property. -/
inductive Body where
  | expr (body : Expr)
  | external (run : ExternalCall → Script)
  /-- Concrete kinds have to override the property. When `runtimeCheck` is set,
  a kind that does not is found out only when the property is called on it. -/
  | abstract (runtimeCheck : Bool)
  /-- The body is still to be supplied. -/
  | pending

namespace Body

def expr? : Body → Option Expr
  | expr body => some body
  | _ => none

def isPending : Body → Bool
  | pending => true
  | _ => false

def isExternal : Body → Bool
  | external _ => true
  | _ => false

def isAbstract : Body → Bool
  | abstract _ => true
  | _ => false

/-- Whether a concrete kind left with this body is a mistake. -/
def mustOverride : Body → Bool
  | abstract runtimeCheck => !runtimeCheck
  | _ => false

end Body

structure KindInfo where
  id : KindId
  name : String
  parent : Option KindId
  isAbstract : Bool
  /-- Child fields, inherited ones first. -/
  fields : List String
  /-- A list has any number of children and no named fields. -/
  isList : Bool
  isToken : Bool
  /-- Logic variables, inherited ones first. -/
  logicVars : List String
  /-- The kind itself, then its ancestors up to the root. -/
  ancestors : List KindId
  site : Site
deriving DecidableEq, Repr, Inhabited

structure PropertyInfo where
  id : PropId
  name : String
  owner : KindId
  params : List (String × ValueType)
  returns : ValueType
  dynVars : List DynVarId
  memoized : Bool
  isPublic : Bool
  /-- The implementations, the one of the owner first. -/
  implementations : List Nat
  site : Site
deriving DecidableEq, Repr, Inhabited

namespace PropertyInfo

def paramTypes (p : PropertyInfo) : List ValueType := p.params.map (·.2)

/-- Whether two properties are called in the same way. -/
def sameSignature (p q : PropertyInfo) : Bool :=
  p.paramTypes == q.paramTypes && p.returns == q.returns && p.dynVars == q.dynVars

end PropertyInfo

/-- One body of a property, declared on the kind `owner`. -/
structure Implementation where
  prop : PropId
  owner : KindId
  body : Body
  site : Site

/-- The local slots a body needs. -/
def Implementation.frameSize (i : Implementation) : Nat := (i.body.expr?.map Expr.frameSize).getD 0

structure DynVarInfo where
  id : DynVarId
  name : String
  type : ValueType
  site : Site
deriving DecidableEq, Repr, Inhabited

/-- The boolean fields that bindings and references can carry. -/
structure MetadataInfo where
  name : String
  fields : List String
deriving DecidableEq, Repr, Inhabited

structure KindEnvSpec where
  kind : KindId
  spec : EnvSpec
deriving Repr, Inhabited

/-- Everything declared so far. A handle is the position of its entry. -/
structure Definition where
  kinds : Array KindInfo
  properties : Array PropertyInfo
  implementations : Array Implementation
  dynVars : Array DynVarInfo
  envSpecs : Array KindEnvSpec
  metadata : Option MetadataInfo

namespace Definition

def empty : Definition := ⟨#[], #[], #[], #[], #[], none⟩

def kind? (d : Definition) (k : KindId) : Option KindInfo := d.kinds[k.raw]?

def property? (d : Definition) (p : PropId) : Option PropertyInfo := d.properties[p.raw]?

def dynVar? (d : Definition) (v : DynVarId) : Option DynVarInfo := d.dynVars[v.raw]?

def implementation? (d : Definition) (i : Nat) : Option Implementation := d.implementations[i]?

/-- The name of a kind, or its handle when it has none. -/
def kindName (d : Definition) (k : KindId) : String := ((d.kind? k).map (·.name)).getD k.text

def propertyName (d : Definition) (p : PropId) : String :=
  ((d.property? p).map (·.name)).getD p.text

def dynVarName (d : Definition) (v : DynVarId) : String := ((d.dynVar? v).map (·.name)).getD v.text

def kindByName (d : Definition) (name : String) : Option KindId :=
  (d.kinds.find? (·.name == name)).map (·.id)

def ancestors (d : Definition) (k : KindId) : List KindId :=
  ((d.kind? k).map (·.ancestors)).getD []

/-- Whether `k` is `ancestor` or is derived from it. -/
def isSubkind (d : Definition) (k ancestor : KindId) : Bool := (d.ancestors k).contains ancestor

def fieldIndex (d : Definition) (k : KindId) (name : String) : Option Nat :=
  (d.kind? k).bind (·.fields.idxOf? name)

def logicVarIndex (d : Definition) (k : KindId) (name : String) : Option Nat :=
  (d.kind? k).bind (·.logicVars.idxOf? name)

/-- Metadata with the named field set. -/
def metadataFlag (d : Definition) (field : String) : Option Metadata := do
  let i ← (← d.metadata).fields.idxOf? field
  return Metadata.empty.withField i

/-- How many metadata fields are declared. -/
def metadataFields (d : Definition) : Nat := (d.metadata.map (·.fields.length)).getD 0

/-- The properties visible on a kind, in order of declaration. -/
def propertiesOf (d : Definition) (k : KindId) : List PropertyInfo :=
  d.properties.toList.filter fun p => (d.ancestors k).contains p.owner

/-- The first property of that name visible on a kind. -/
def propertyByName (d : Definition) (k : KindId) (name : String) : Option PropId :=
  ((d.propertiesOf k).find? (·.name == name)).map (·.id)

/-- The specification of the closest kind in the ancestry that has one. -/
def envSpec (d : Definition) (k : KindId) : Option KindEnvSpec :=
  (d.ancestors k).findSome? fun a => d.envSpecs.find? (·.kind = a)

/-- The owner of an implementation of some property. -/
def implementer? (d : Definition) (i : Nat) : Option KindId := (d.implementation? i).map (·.owner)

/-- The implementation that the closest kind in the ancestry declares. -/
def mostDerived (d : Definition) (k : KindInfo) (p : PropertyInfo) : Option Nat :=
  if k.ancestors.contains p.owner then
    k.ancestors.findSome? fun a => p.implementations.find? fun i => d.implementer? i == some a
  else none

end Definition

/-- What calling a property on a concrete kind leads to. -/
inductive Dispatch where
  | runs (implementation : Nat)
  /-- The property is abstract there. -/
  | missing
deriving DecidableEq, Repr, Inhabited

/-- A checked definition. The table has a row for each kind and a column for
each property. -/
structure Language extends Definition where
  table : Array (Array (Option Dispatch))
  warnings : List Diagnostic

namespace Language

def dispatch (l : Language) (k : KindId) (p : PropId) : Option Dispatch :=
  (l.table[k.raw]?).bind fun row => (row[p.raw]?).join

def text (l : Language) : String :=
  "Language \x7b kinds: " ++ toString l.kinds.size ++ ", properties: " ++
    toString l.properties.size ++ ", dynvars: " ++ toString l.dynVars.size ++ ", .. \x7d"

end Language
end Trellis
