import Trellis.Diagnostic.Definition
import Trellis.Language.Basic
import Trellis.Language.Mistake

/-! Declaring a language, one declaration at a time. A declaration is checked
before anything is recorded, so a refused one leaves the definition as it
was. -/
namespace Trellis

structure KindDecl where
  name : String
  parent : Option KindId
  fields : List String
  logicVars : List String
  isAbstract : Bool
  isList : Bool
  isToken : Bool
  site : Site

structure PropertyDecl where
  owner : KindId
  name : String
  params : List (String × ValueType)
  returns : ValueType
  dynVars : List DynVarId
  memoized : Bool
  isPublic : Bool
  body : Body
  site : Site

structure MetadataDecl where
  name : String
  fields : List (String × ValueType)
  site : Site

/-- A definition in the making and the log of what was found wrong with it. -/
structure Builder where
  definition : Definition
  log : DefinitionLog

namespace Builder

def new : Builder := ⟨.empty, .empty⟩

abbrev BuildM := ExceptT DefinitionError (StateM Builder)

/-- Record a mistake as the reason to refuse the declaration. -/
def refuse (m : Mistake) : BuildM α := fun b =>
  let (e, log) := b.log.error m.code m.message
  (.error e, { b with log })

/-- Refuse the declaration unless `ok` holds. -/
def require (ok : Bool) (m : Mistake) : BuildM Unit := if ok then pure () else refuse m

def definitionM : BuildM Definition := do return (← get).definition

/-- Run a declaration with a frame of context around it. -/
def within (message : String) (site : Site) (category : String) (act : BuildM α) : BuildM α :=
  fun b =>
    let outer := b.log.context
    let frame := ⟨message, some site, some category⟩
    let (r, b) := act { b with log := { b.log with context := outer.push frame } }
    (r, { b with log := { b.log with context := outer } })

/-- The names of `inherited` followed by `own`, which must all be new. -/
def extendNames (duplicate : String → Mistake) (inherited : List String) :
    (own : List String) → BuildM (List String)
  | [] => pure inherited
  | name :: rest => do
    require (!inherited.contains name) (duplicate name)
    extendNames duplicate (inherited ++ [name]) rest

def addKind (decl : KindDecl) : BuildM KindId := do
  let d ← definitionM
  require (!d.kinds.any (·.name == decl.name)) (.duplicateKind decl.name)
  require (!(decl.isList && !decl.fields.isEmpty)) .fieldsOnList
  let id : KindId := ⟨d.kinds.size⟩
  let (fields, logicVars, ancestors) ← match decl.parent with
    | none => pure ([], [], [])
    | some parent =>
      match d.kind? parent with
      | none => refuse (.unknownParent parent)
      | some info => do
        require (!info.isList) .derivedFromList
        pure (info.fields, info.logicVars, info.ancestors)
  let fields ← extendNames .duplicateField fields decl.fields
  let logicVars ← extendNames .duplicateLogicVar logicVars decl.logicVars
  let info : KindInfo := {
    id, name := decl.name, parent := decl.parent, isAbstract := decl.isAbstract, fields,
    isList := decl.isList, isToken := decl.isToken, logicVars, ancestors := id :: ancestors,
    site := decl.site }
  modify fun b => { b with definition := { b.definition with kinds := d.kinds.push info } }
  return id

/-- Declare a kind of nodes. -/
def kind (decl : KindDecl) : BuildM KindId :=
  within ("in kind " ++ decl.name) decl.site "kind" (addKind decl)

/-- Declare a dynamic variable. -/
def dynVar (name : String) (type : ValueType) (site : Site) : BuildM DynVarId :=
  within ("in dynamic variable " ++ name) site "dynvar" do
    let d ← definitionM
    require (!d.dynVars.any (·.name == name)) (.duplicateDynVar name)
    let id : DynVarId := ⟨d.dynVars.size⟩
    modify fun b => { b with
      definition := { b.definition with dynVars := d.dynVars.push ⟨id, name, type, site⟩ } }
    return id

/-- A type may only mention kinds that are declared. -/
def checkType : ValueType → BuildM Unit
  | .entity k => do require (k.raw < (← definitionM).kinds.size) (.unknownKindInType k)
  | .array element => checkType element
  | _ => pure ()

/-- The property that a declaration of `name` on a kind with these ancestors
overrides. Two properties of one name never meet on a kind, since neither a
second declaration on a kind nor one above an earlier one is accepted. -/
def findBase (d : Definition) (decl : PropertyDecl) (ancestors : List KindId) :
    BuildM (Option PropertyInfo) := do
  let sameName := d.properties.toList.filter (·.name == decl.name)
  sameName.forM fun p => do
    require (!p.implementations.any fun i => d.implementer? i == some decl.owner)
      (.duplicateProperty decl.name)
    require (!(d.ancestors p.owner).contains decl.owner) (.declaredBelowBase decl.name)
  return sameName.find? fun p => ancestors.contains p.owner

def addProperty (decl : PropertyDecl) : BuildM PropId := do
  let d ← definitionM
  let some owner := d.kind? decl.owner | refuse (.unknownOwner decl.owner)
  decl.dynVars.forM fun v => require (v.raw < d.dynVars.size) (.unknownDynVar v)
  decl.params.forM fun (_, type) => checkType type
  checkType decl.returns
  let base ← findBase d decl owner.ancestors
  let id := (base.map (·.id)).getD ⟨d.properties.size⟩
  let index := d.implementations.size
  let info : PropertyInfo := {
    id, name := decl.name, owner := decl.owner, params := decl.params, returns := decl.returns,
    dynVars := decl.dynVars, memoized := decl.memoized, isPublic := decl.isPublic,
    implementations := [index], site := decl.site }
  let properties ← match base with
    | some base => do
      require (base.sameSignature info) (.overrideMismatch decl.name)
      pure (d.properties.modify id.raw fun p =>
        { p with implementations := p.implementations ++ [index] })
    | none => pure (d.properties.push info)
  modify fun b => { b with definition := { b.definition with
    properties, implementations := d.implementations.push ⟨id, decl.owner, decl.body, decl.site⟩ } }
  return id

/-- Declare a property, or override one declared on an ancestor. An override
is another implementation of the same property. -/
def property (decl : PropertyDecl) : BuildM PropId := do
  let owner := (← definitionM).kindName decl.owner
  within ("in property " ++ owner ++ "." ++ decl.name) decl.site "property" (addProperty decl)

/-- Supply a body that was left open, for bodies that mention the property. -/
def setBody (prop : PropId) (owner : KindId) (body : Expr) (site : Site) : BuildM Unit :=
  within ("in body of " ++ prop.text) site "property" do
    let d ← definitionM
    let slot := (d.property? prop).bind fun p =>
      p.implementations.find? fun i => d.implementer? i == some owner
    match slot with
    | some i =>
      require ((d.implementation? i).any (·.body.isPending)) (.noPendingBody prop owner)
      modify fun b => { b with definition := { b.definition with
        implementations := d.implementations.modify i ({ · with body := .expr body }) } }
    | none => refuse (.noPendingBody prop owner)

/-- Give a kind its environment actions. Kinds derived from it that have none
of their own use these. -/
def envSpec (kind : KindId) (spec : EnvSpec) : BuildM Unit :=
  within ("in env spec of " ++ kind.text) spec.site "env_spec" do
    let d ← definitionM
    require (kind.raw < d.kinds.size) (.unknownKind kind)
    require (!d.envSpecs.any (·.kind = kind)) .duplicateEnvSpec
    modify fun b => { b with
      definition := { b.definition with envSpecs := d.envSpecs.push ⟨kind, spec⟩ } }

/-- Declare the fields of environment metadata. -/
def envMetadata (decl : MetadataDecl) : BuildM Unit :=
  within ("in metadata " ++ decl.name) decl.site "metadata" do
    let d ← definitionM
    require d.metadata.isNone .secondMetadata
    require (decl.name == "Metadata") (.metadataName decl.name)
    require (decl.fields.all (·.2 = .bool)) .metadataNotBoolean
    require (decl.fields.length ≤ Metadata.fieldCount)
      (.tooManyMetadataFields decl.fields.length Metadata.fieldCount)
    modify fun b => { b with
      definition := { b.definition with metadata := some ⟨decl.name, decl.fields.map (·.1)⟩ } }

end Builder
end Trellis
