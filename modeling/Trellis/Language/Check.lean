import Trellis.Language.Basic
import Trellis.Language.Mistake

/-! Checks of a whole definition. Every body and every environment
specification is walked once with what is in scope there: the parameters, the
local slots bound around it, and the dynamic variables, declared by the
property or bound around it. A walk only collects findings, so that one build
tells all of them. -/
namespace Trellis

namespace Definition

/-- The name of the first required variable that is not available. -/
def missingDynVar (d : Definition) (required available : List DynVarId) : Option String :=
  (required.find? (!available.contains ·)).map d.dynVarName

/-- Why a property cannot relate the values of two variables. -/
def relationProblem (d : Definition) (p : PropId) (available : List DynVarId) :
    Option ConstraintProblem :=
  match d.property? p with
  | none => some (.unknown p)
  | some info =>
    if info.paramTypes = [.entity info.owner] ∧ info.returns = .bool then
      (d.missingDynVar info.dynVars available).map (.missingDynVar info.name)
    else some (.shape info.name)

/-- Why a property cannot filter the values of a variable. -/
def predicateProblem (d : Definition) (p : PropId) (available : List DynVarId) :
    Option ConstraintProblem :=
  match d.property? p with
  | none => some (.unknown p)
  | some info =>
    if info.params = [] ∧ info.returns = .bool then
      (d.missingDynVar info.dynVars available).map (.missingDynVar info.name)
    else some (.shape info.name)

end Definition

/-- What a walk found: mistakes, and declared dynamic variables that are
needed. -/
structure Report where
  findings : List Diagnostic
  needed : List DynVarId

namespace Report

def empty : Report := ⟨[], []⟩

instance : Append Report := ⟨fun r s => ⟨r.findings ++ s.findings, r.needed ++ s.needed⟩⟩

end Report

/-- What stays the same throughout one body or specification. -/
structure CheckContext where
  definition : Definition
  /-- The kind of the receiver. -/
  owner : KindId
  params : Nat
  /-- The dynamic variables the property declares. -/
  declared : List DynVarId
  /-- How the body is called in messages. -/
  name : String
  site : Site

/-- What the expression around a point has bound. -/
structure Bound where
  locals : List Nat
  dynVars : List DynVarId

namespace CheckContext

def reportAt (site : Site) (m : Mistake) : Report :=
  ⟨[⟨m.code, .nonBlocking, m.message, .definition site⟩], []⟩

/-- A mistake unless `ok` holds. -/
def expect (c : CheckContext) (ok : Bool) (m : Mistake) : Report :=
  if ok then .empty else reportAt c.site m

def available (c : CheckContext) (b : Bound) : List DynVarId := c.declared ++ b.dynVars

/-- A need for a variable falls on its declaration only when nothing in between
binds it. -/
def need (c : CheckContext) (b : Bound) (v : DynVarId) : Report :=
  ⟨[], if c.declared.contains v && !b.dynVars.contains v then [v] else []⟩

def needAll (c : CheckContext) (b : Bound) (p : PropId) : Report :=
  match c.definition.property? p with
  | some info => info.dynVars.foldl (fun r v => r ++ c.need b v) .empty
  | none => .empty

/-- A call of a property with so many arguments. -/
def checkCall (c : CheckContext) (b : Bound) (p : PropId) (args : Nat) : Report :=
  match c.definition.property? p with
  | none => reportAt c.site (.unknownProperty p)
  | some callee =>
    callee.dynVars.foldl (fun r v => r ++
        c.expect ((c.available b).contains v)
          (.calleeNeedsDynVar callee.name (c.definition.dynVarName v) c.name) ++
        c.need b v)
      (c.expect (callee.params.length == args)
        (.argumentCount callee.name callee.params.length args))

/-- A field of the receiver itself; other nodes are known only when running. -/
def checkField (c : CheckContext) (node : Expr) (ok : KindInfo → Bool) (m : KindInfo → Mistake) :
    Report :=
  match node, c.definition.kind? c.owner with
  | .self, some owner => c.expect (ok owner) (m owner)
  | _, _ => .empty

def checkKind (c : CheckContext) (k : KindId) (m : Mistake) : Report :=
  c.expect (c.definition.kind? k).isSome m

/-- All metadata fields that are declared. -/
def declaredFields (c : CheckContext) : Metadata :=
  (List.range c.definition.metadataFields).foldl Metadata.withField .empty

mutual

def check (c : CheckContext) (b : Bound) : Expr → Report
  | .lit _ | .self | .raise _ => .empty
  | .arg i => c.expect (i < c.params) (.argumentRange i c.name c.params)
  | .loc slot => c.expect (b.locals.contains slot) (.unboundLocal slot)
  | .letIn slot value body =>
    c.check b value ++ c.check { b with locals := slot :: b.locals } body
  | .map items slot body =>
    c.check b items ++ c.check { b with locals := slot :: b.locals } body
  | .matchKind value arms => c.check b value ++ c.checkArms b arms
  | .dynVar v =>
    c.expect ((c.available b).contains v)
      (.dynVarNotAvailable (c.definition.dynVarName v) c.name) ++ c.need b v
  | .bindDynVar v value body =>
    c.check b value ++ c.expect (c.definition.dynVar? v).isSome (.unknownDynVar v) ++
      c.check { b with dynVars := v :: b.dynVars } body
  | .call receiver p args => c.check b receiver ++ c.checkAll b args ++ c.checkCall b p args.length
  | .child node i =>
    c.check b node ++
      c.checkField node (fun k => k.isList || i < k.fields.length) (fun k => .noField k.name i)
  | .logicVar node i =>
    c.check b node ++
      c.checkField node (fun k => i < k.logicVars.length) (fun k => .noLogicVar k.name i)
  | .metadataFlag entity field =>
    c.check b entity ++
      c.expect (field < c.definition.metadataFields) (.undeclaredMetadataField field)
  | .envGet env symbol _ require =>
    c.check b env ++ c.check b symbol ++
      c.expect (c.declaredFields.contains require) .undeclaredRequirement
  | .cast value k _ => c.check b value ++ c.checkKind k (.unknownKindInCast k)
  | .bind x y none _ => c.check b x ++ c.check b y
  | .bind x y (some p) origin =>
    c.check b x ++ c.check b y ++
      (match c.definition.relationProblem p (c.available b) with
        | some problem => reportAt origin (.relation problem)
        | none => .empty) ++ c.needAll b p
  | .predicate v p origin =>
    c.check b v ++
      (match c.definition.predicateProblem p (c.available b) with
        | some problem => reportAt origin (.predicate problem)
        | none => .empty) ++ c.needAll b p
  | .children e | .parent e | .text e | .nodeEnv e | .childrenEnv e | .not e | .isNull e | .len e
  | .solve e | .logicValue e => c.check b e
  | .binary _ x y | .domain x y _ => c.check b x ++ c.check b y
  | .ite x y z => c.check b x ++ c.check b y ++ c.check b z
  | .array es | .all es | .any es => c.checkAll b es

def checkAll (c : CheckContext) (b : Bound) : List Expr → Report
  | [] => .empty
  | e :: rest => c.check b e ++ c.checkAll b rest

def checkArms (c : CheckContext) (b : Bound) : List (ArmPattern × Expr) → Report
  | [] => .empty
  | (p, e) :: rest =>
    (match p.kind with
      | some k => c.checkKind k (.unknownKindInMatch k)
      | none => .empty) ++
    c.check { b with locals := p.slot :: b.locals } e ++ c.checkArms b rest

end

/-- Nothing is bound at the outside of a body. -/
def checkBody (c : CheckContext) (e : Expr) : Report := c.check ⟨[], []⟩ e

/-- The type of an expression where it is plain to see. -/
def staticType (c : CheckContext) : Expr → Option ValueType
  | .lit (.symbol _) | .text _ => some .symbol
  | .lit (.bool _) => some .bool
  | .lit (.int _) => some .int
  | .lit .unit => some .unit
  | .call _ p _ => (c.definition.property? p).map (·.returns)
  | .nodeEnv _ | .childrenEnv _ => some .env
  | _ => none

def checkReference (c : CheckContext) (through : PropId) : Report :=
  match c.definition.property? through with
  | none => reportAt c.site (.unknownProperty through)
  | some p =>
    c.expect (p.params.isEmpty && p.returns == .env) (.referenceShape p.name) ++
      c.expect p.dynVars.isEmpty (.referenceNeedsDynVars p.name)

def checkAction (c : CheckContext) : EnvAction → Report
  | .setInitialEnv env => c.checkBody env
  | .addToEnv key value _ dest =>
    c.expect ((c.staticType key).all (· == .symbol)) .keyNotSymbol ++ c.checkBody key ++
      c.checkBody value ++ (match dest with
        | some dest => c.checkBody dest
        | none => .empty)
  | .addEnv | .referenceUnit _ => .empty
  | .reference nodes through _ rebind =>
    c.checkBody nodes ++ (match rebind with
      | some (old, new) => c.checkBody old ++ c.checkBody new
      | none => .empty) ++ c.checkReference through

end CheckContext

namespace Definition

/-- What is wrong with one implementation, and which of the variables its
property declares it needs. -/
def checkImplementation (d : Definition) (i : Implementation) : Report :=
  match i.body, d.property? i.prop with
  | .expr body, some p =>
    { definition := d, owner := i.owner, params := p.params.length, declared := p.dynVars,
      name := d.kindName i.owner ++ "." ++ p.name, site := i.site : CheckContext }.checkBody body
  | _, _ => .empty

def checkEnvSpec (d : Definition) (s : KindEnvSpec) : Report :=
  let c : CheckContext := {
    definition := d, owner := s.kind, params := 0, declared := [],
    name := "env spec of " ++ d.kindName s.kind, site := s.spec.site }
  s.spec.actions.foldl (fun r action => r ++ c.checkAction action) .empty

def finding (severity : Severity) (site : Site) (m : Mistake) : Diagnostic :=
  ⟨m.code, severity, m.message, .definition site⟩

/-- One finding for each body that was never supplied. -/
def pendingBodies (d : Definition) : List Diagnostic :=
  d.implementations.toList.filterMap fun i =>
    if i.body.isPending then some (finding .nonBlocking i.site (.noBody (d.propertyName i.prop)))
    else none

/-- One finding for each concrete kind on which a property stays abstract,
unless that is to be found out when it is called. -/
def missingOverrides (d : Definition) : List Diagnostic :=
  d.kinds.toList.flatMap fun k =>
    if k.isAbstract then []
    else d.properties.toList.filterMap fun p =>
      if ((d.mostDerived k p).bind d.implementation?).any (·.body.mustOverride) then
        some (finding .nonBlocking k.site (.notOverridden k.name p.name))
      else none

/-- The variables some implementation of a property needs. -/
def neededBy (d : Definition) (p : PropertyInfo) : List DynVarId :=
  (d.implementations.toList.filter (·.prop = p.id)).flatMap fun i =>
    (d.checkImplementation i).needed

/-- A warning for each variable a property declares that none of its bodies
needs. What an external body needs cannot be told. -/
def unusedDynVars (d : Definition) : List Diagnostic :=
  d.properties.toList.flatMap fun p =>
    if p.implementations.all fun i => (d.implementation? i).any (·.body.expr?.isSome) then
      let needed := d.neededBy p
      p.dynVars.filterMap fun v =>
        if needed.contains v then none
        else some (finding .warning p.site (.unusedDynVar p.name (d.dynVarName v)))
    else []

/-- Everything wrong with a definition as a whole, and the warnings about it. -/
def findings (d : Definition) : List Diagnostic :=
  d.pendingBodies ++ d.missingOverrides ++
    d.implementations.toList.flatMap (fun i => (d.checkImplementation i).findings) ++
    d.envSpecs.toList.flatMap (fun s => (d.checkEnvSpec s).findings) ++ d.unusedDynVars

end Definition
end Trellis
