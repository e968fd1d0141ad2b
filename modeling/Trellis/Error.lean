import Trellis.Diagnostic.Basic
import Trellis.Diagnostic.Definition
import Trellis.Tree

/-! Everything that can go wrong once a language is defined, as causes. The
wording of each cause stands in one place, next to the code it is reported
under. -/
namespace Trellis

/-- Misuse of the environment store. -/
inductive EnvError where
  | invalidKey
  | unknownEnv (env : EnvId)
  | emptyEnv
deriving DecidableEq, Repr

def EnvError.message : EnvError → String
  | invalidKey => "cannot bind the empty symbol"
  | unknownEnv e => "unknown environment " ++ e.text
  | emptyEnv => "the empty environment cannot be modified"

/-- A node could not be created. -/
inductive NodeBuildError where
  | unknownKind (kind : KindId)
  | abstractKind (name : String)
  | fieldCount (kind : String) (expected found : Nat)
  | tree (cause : TreeError)
deriving DecidableEq, Repr

def NodeBuildError.message : NodeBuildError → String
  | unknownKind k => "unknown kind " ++ k.text
  | abstractKind name => "kind " ++ name ++ " is abstract"
  | fieldCount kind expected found =>
    "kind " ++ kind ++ " has " ++ toString expected ++ " fields, " ++ toString found ++
      " children given"
  | tree cause => cause.message

/-- What went wrong while a property was evaluated. -/
inductive Fault where
  | dispatch (kind prop : String)
  /-- Raised by the language itself or by its host. -/
  | raised (message : String)
  | noArgument (index : Nat)
  | noLogicVar (index : Nat)
  | overflow
  | arity (prop : String) (expected found : Nat)
  | missingDynVar (name : String)
  | typeMismatch (expected found : String)
  | infiniteRecursion (prop : String)
  | unboundLogicVar (var : VarId)
  | depthExceeded (limit : Nat)
  | nullReceiver
  | privateProperty (name : String)
  | tooManyBranches (limit : Nat)
  | notPopulated (node : NodeId)
  /-- No unit of that name can be had, or building it failed. -/
  | unitLoad (name : String) (cause : Option NodeBuildError)
  | tree (cause : TreeError)
  | env (cause : EnvError)
deriving DecidableEq, Repr

namespace Fault

def message : Fault → String
  | dispatch kind prop => "no implementation of " ++ prop ++ " for kind " ++ kind
  | raised message => message
  | noArgument i => "no argument " ++ toString i
  | noLogicVar i => "no logic variable " ++ toString i
  | overflow => "integer overflow"
  | arity prop expected found =>
    prop ++ " expects " ++ toString expected ++ " arguments, got " ++ toString found
  | missingDynVar name => "dynamic variable " ++ name ++ " is not bound"
  | typeMismatch expected found => "expected " ++ expected ++ ", got " ++ found
  | infiniteRecursion prop => "infinite recursion in " ++ prop
  | unboundLogicVar v => "logic variable " ++ v.text ++ " is not solved"
  | depthExceeded limit => "call depth limit of " ++ toString limit ++ " exceeded"
  | nullReceiver => "property called on null"
  | privateProperty name => name ++ " is private"
  | tooManyBranches limit => "equation needs more than " ++ toString limit ++ " branches"
  | notPopulated n => "environments of " ++ n.text ++ " are not populated"
  | unitLoad name none => "cannot load analysis unit " ++ name
  | unitLoad name (some cause) => "cannot load analysis unit " ++ name ++ ": " ++ cause.message
  | tree cause => cause.message
  | env cause => cause.message

def code : Fault → ErrorCode
  | dispatch .. => .K3001
  | raised .. | noArgument .. | noLogicVar .. | overflow | arity .. => .K3002
  | missingDynVar .. => .K3003
  | typeMismatch .. | nullReceiver | tree .. => .K3004
  | infiniteRecursion .. => .K3005
  | unboundLogicVar .. => .K3006
  | depthExceeded .. => .K3007
  | privateProperty .. => .K3008
  | unitLoad .. => .K3009
  | tooManyBranches .. => .K4003
  | notPopulated .. => .K2004
  | env .invalidKey => .K2001
  | env _ => .K3004

end Fault

/-- A failed property call, with the node and property of the innermost call
that was running. -/
structure PropertyError where
  fault : Fault
  site : Option (NodeId × PropId)
deriving DecidableEq, Repr

namespace PropertyError

/-- A failure that no call has claimed yet. -/
def of (fault : Fault) : PropertyError := ⟨fault, none⟩

/-- Claim a failure for a call, unless a call further in has done so. -/
def claimedBy (e : PropertyError) (node : NodeId) (prop : PropId) : PropertyError :=
  { e with site := e.site.or (some (node, prop)) }

def message (e : PropertyError) : String := e.fault.message

def code (e : PropertyError) : ErrorCode := e.fault.code

end PropertyError

/-- Population of a subtree failed. -/
inductive PopulateError where
  | alreadyPopulated (node : NodeId)
  | property (cause : PropertyError)
  | tree (cause : TreeError)
deriving DecidableEq, Repr

namespace PopulateError

def message : PopulateError → String
  | alreadyPopulated n => "environments of " ++ n.text ++ " are already populated"
  | property cause => cause.message
  | tree cause => cause.message

def code : PopulateError → ErrorCode
  | alreadyPopulated _ | tree (.alreadyPopulated _) => .K2003
  | property cause => cause.code
  | tree _ => .K3004

/-- The failure as it appears to an evaluation that asked for the population. -/
def toPropertyError : PopulateError → PropertyError
  | alreadyPopulated n => .of (.tree (.alreadyPopulated n))
  | property cause => cause
  | tree cause => .of (.tree cause)

end PopulateError

/-- Any failure of an operation that a host asks for. -/
inductive AnalysisError where
  | definition (cause : DefinitionError)
  | populate (cause : PopulateError)
  | property (cause : PropertyError)
  | tree (cause : TreeError)
  | nodeBuild (cause : NodeBuildError)
deriving DecidableEq, Repr

namespace AnalysisError

def message : AnalysisError → String
  | definition cause => "invalid language definition: " ++ cause.message
  | populate cause => cause.message
  | property cause => cause.message
  | tree cause => cause.message
  | nodeBuild cause => "cannot build node: " ++ cause.message

def code : AnalysisError → ErrorCode
  | definition cause => cause.code
  | populate cause => cause.code
  | property cause => cause.code
  | tree (.alreadyPopulated _) => .K2003
  | tree _ | nodeBuild _ => .K3004

/-- The failed property call behind the failure, if there is one. -/
def property? : AnalysisError → Option PropertyError
  | property cause | populate (.property cause) => some cause
  | _ => none

end AnalysisError
end Trellis
