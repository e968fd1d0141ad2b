import Trellis.Diagnostic.Code
import Trellis.Value

/-! Mistakes in a language definition, as causes. -/
namespace Trellis

/-- Why a property cannot be used as a constraint of an equation. -/
inductive ConstraintProblem where
  | unknown (prop : PropId)
  /-- It does not take what it would be given, or does not answer yes or no. -/
  | shape (prop : String)
  | missingDynVar (prop dynVar : String)
deriving DecidableEq, Repr

/-- The wording where the property is to relate two variables. -/
def ConstraintProblem.relationMessage : ConstraintProblem → String
  | unknown p => "unknown property " ++ p.text
  | shape name => name ++ " cannot be used as an equality predicate: " ++
      "it must take exactly one argument of its own kind and return a boolean"
  | missingDynVar name v => "equality predicate " ++ name ++ " requires dynamic variable " ++ v ++
      ", which is not bound here"

/-- The wording where the property is to filter one variable. -/
def ConstraintProblem.predicateMessage : ConstraintProblem → String
  | unknown p => "unknown property " ++ p.text
  | shape name => name ++ " cannot be used as a predicate: " ++
      "it must take no argument and return a boolean"
  | missingDynVar name v => "predicate " ++ name ++ " requires dynamic variable " ++ v ++
      ", which is not bound here"

inductive Mistake where
  -- Declarations.
  | duplicateKind (name : String)
  | fieldsOnList
  | unknownParent (kind : KindId)
  | derivedFromList
  | duplicateField (name : String)
  | duplicateLogicVar (name : String)
  | duplicateDynVar (name : String)
  | unknownOwner (kind : KindId)
  | unknownDynVar (var : DynVarId)
  | unknownKindInType (kind : KindId)
  | duplicateProperty (name : String)
  | declaredBelowBase (name : String)
  | overrideMismatch (name : String)
  | noPendingBody (prop : PropId) (owner : KindId)
  | unknownKind (kind : KindId)
  | duplicateEnvSpec
  | secondMetadata
  | metadataName (name : String)
  | metadataNotBoolean
  | tooManyMetadataFields (count limit : Nat)
  -- Whole definitions.
  | noBody (prop : String)
  | notOverridden (kind prop : String)
  | argumentRange (index : Nat) (scope : String) (params : Nat)
  | unboundLocal (slot : Nat)
  | unknownKindInMatch (kind : KindId)
  | unknownKindInCast (kind : KindId)
  | dynVarNotAvailable (var scope : String)
  | unknownProperty (prop : PropId)
  | argumentCount (prop : String) (expected found : Nat)
  | calleeNeedsDynVar (prop var scope : String)
  | noField (kind : String) (index : Nat)
  | noLogicVar (kind : String) (index : Nat)
  | undeclaredMetadataField (field : Nat)
  | undeclaredRequirement
  | relation (problem : ConstraintProblem)
  | predicate (problem : ConstraintProblem)
  | keyNotSymbol
  | referenceShape (prop : String)
  | referenceNeedsDynVars (prop : String)
  | unusedDynVar (prop var : String)
deriving DecidableEq, Repr

namespace Mistake

def code : Mistake → ErrorCode
  | keyNotSymbol | referenceShape _ => .K1001
  | relation _ => .K1002
  | dynVarNotAvailable .. => .K1003
  | calleeNeedsDynVar .. | referenceNeedsDynVars _ => .K1004
  | secondMetadata | metadataName _ | metadataNotBoolean | tooManyMetadataFields ..
  | undeclaredMetadataField _ | undeclaredRequirement => .K1005
  | notOverridden .. => .K1006
  | overrideMismatch _ => .K1007
  | duplicateKind _ | duplicateField _ | duplicateLogicVar _ | duplicateDynVar _
  | duplicateProperty _ | declaredBelowBase _ | duplicateEnvSpec => .K1008
  | unknownParent _ | unknownOwner _ | unknownDynVar _ | unknownKindInType _ | noPendingBody ..
  | unknownKind _ | argumentRange .. | unboundLocal _ | unknownKindInMatch _
  | unknownKindInCast _ | unknownProperty _ | argumentCount .. | noField ..
  | noLogicVar .. => .K1009
  | unusedDynVar .. => .K1010
  | fieldsOnList | derivedFromList => .K1011
  | predicate _ => .K1012
  | noBody _ => .K1013

def message : Mistake → String
  | duplicateKind name => "kind " ++ name ++ " is already declared"
  | fieldsOnList => "list kinds cannot declare fields"
  | unknownParent k => "unknown parent kind " ++ k.text
  | derivedFromList => "list kinds cannot be derived from"
  | duplicateField name => "field " ++ name ++ " is already declared"
  | duplicateLogicVar name => "logic variable " ++ name ++ " is already declared"
  | duplicateDynVar name => "dynamic variable " ++ name ++ " is already declared"
  | unknownOwner k => "unknown owner kind " ++ k.text
  | unknownDynVar v => "unknown dynamic variable " ++ v.text
  | unknownKindInType k => "unknown kind " ++ k.text ++ " in type"
  | duplicateProperty name => "property " ++ name ++ " is already declared on this kind"
  | declaredBelowBase name =>
    "property " ++ name ++ " is declared on a descendant kind before its base"
  | overrideMismatch name =>
    "override of " ++ name ++ " does not match the base signature or dynamic variables"
  | noPendingBody p owner => p.text ++ " has no pending body on " ++ owner.text
  | unknownKind k => "unknown kind " ++ k.text
  | duplicateEnvSpec => "kind already has an env spec"
  | secondMetadata => "only one env metadata struct can be declared"
  | metadataName name => "env metadata struct must be named Metadata, not " ++ name
  | metadataNotBoolean => "env metadata fields must be booleans"
  | tooManyMetadataFields count limit =>
    "env metadata has " ++ toString count ++ " fields, at most " ++ toString limit ++ " are allowed"
  | noBody prop => "property " ++ prop ++ " has no body"
  | notOverridden kind prop =>
    "concrete kind " ++ kind ++ " does not override abstract property " ++ prop
  | argumentRange i scope params =>
    "argument " ++ toString i ++ " is out of range, " ++ scope ++ " takes " ++ toString params
  | unboundLocal slot => "local " ++ toString slot ++ " is not bound"
  | unknownKindInMatch k => "unknown kind " ++ k.text ++ " in match"
  | unknownKindInCast k => "unknown kind " ++ k.text ++ " in cast"
  | dynVarNotAvailable v scope =>
    "dynamic variable " ++ v ++ " is not available in " ++ scope
  | unknownProperty p => "unknown property " ++ p.text
  | argumentCount prop expected found =>
    prop ++ " takes " ++ toString expected ++ " arguments, " ++ toString found ++ " given"
  | calleeNeedsDynVar prop v scope =>
    prop ++ " requires dynamic variable " ++ v ++ ", which is not available in " ++ scope
  | noField kind i => kind ++ " has no field " ++ toString i
  | noLogicVar kind i => kind ++ " has no logic variable " ++ toString i
  | undeclaredMetadataField field => "metadata field " ++ toString field ++ " is not declared"
  | undeclaredRequirement => "lookup requires metadata fields that are not declared"
  | relation problem => problem.relationMessage
  | predicate problem => problem.predicateMessage
  | keyNotSymbol => "environment keys must be symbols"
  | referenceShape prop =>
    "referenced environments must come from a property without arguments returning an env, " ++
      prop ++ " does not"
  | referenceNeedsDynVars prop =>
    prop ++ " requires dynamic variables, which env specs cannot bind"
  | unusedDynVar prop v => prop ++ " declares dynamic variable " ++ v ++ " but never needs it"

end Mistake
end Trellis
