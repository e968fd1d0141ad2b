import Trellis.Diagnostic.Basic
import Trellis.Diagnostic.Context

/-! The log kept while a language is defined. Every finding is placed at the
innermost declaration that names a site. Non-blocking errors gather until a
checkpoint turns them into one failure. -/
namespace Trellis

/-- A refused definition: the finding that decided it, what was being defined,
and the other findings reported with it. -/
structure DefinitionError where
  primary : Diagnostic
  context : List (String × Site)
  related : List Diagnostic
deriving DecidableEq, Repr

namespace DefinitionError

def code (e : DefinitionError) : ErrorCode := e.primary.code

def message (e : DefinitionError) : String := e.primary.text

def diagnostics (e : DefinitionError) : List Diagnostic := e.primary :: e.related

def hasCode (e : DefinitionError) (c : ErrorCode) : Bool := e.diagnostics.any (·.code == c)

end DefinitionError

structure DefinitionLog where
  context : ContextStack
  reported : List Diagnostic
  pending : Bool
deriving DecidableEq, Repr

namespace DefinitionLog

def empty : DefinitionLog := ⟨.empty, [], false⟩

/-- A finding placed where the log stands. -/
def place (l : DefinitionLog) (code : ErrorCode) (severity : Severity) (message : String) :
    Diagnostic :=
  ⟨code, severity, message, .definition (l.context.site.getD .caller)⟩

/-- Report a finding. An error fails at once, a non-blocking error is left for
the next checkpoint, and a warning is only recorded. -/
def report (l : DefinitionLog) (code : ErrorCode) (severity : Severity) (message : String) :
    Except DefinitionError Unit × DefinitionLog :=
  let d := l.place code severity message
  let l := { l with reported := l.reported ++ [d] }
  match severity with
  | .error => (.error ⟨d, l.context.structured, []⟩, l)
  | .nonBlocking => (.ok (), { l with pending := true })
  | .warning => (.ok (), l)

/-- Report a finding unless `ok` holds. -/
def check (l : DefinitionLog) (ok : Bool) (code : ErrorCode) (severity : Severity)
    (message : String) : Except DefinitionError Unit × DefinitionLog :=
  if ok then (.ok (), l) else l.report code severity message

/-- Make several checks, stopping at the first that fails. -/
def checkAll (l : DefinitionLog) (severity : Severity) :
    List (Bool × ErrorCode × String) → Except DefinitionError Unit × DefinitionLog
  | [] => (.ok (), l)
  | (ok, code, message) :: rest =>
    match l.check ok code severity message with
    | (.error e, l) => (.error e, l)
    | (.ok (), l) => l.checkAll severity rest

/-- Report an error and hand it back as the failure it is. -/
def error (l : DefinitionLog) (code : ErrorCode) (message : String) :
    DefinitionError × DefinitionLog :=
  let d := l.place code .error message
  (⟨d, l.context.structured, []⟩, { l with reported := l.reported ++ [d] })

/-- Take over a finding that is already placed. -/
def record (l : DefinitionLog) (d : Diagnostic) : DefinitionLog :=
  { l with reported := l.reported ++ [d], pending := l.pending || d.severity == .nonBlocking }

/-- Fail when a non-blocking error was reported since the last checkpoint. The
failure carries every error the log holds, the oldest first. -/
def checkpoint (l : DefinitionLog) : Except DefinitionError Unit × DefinitionLog :=
  if l.pending then
    let l := { l with pending := false }
    match l.reported.filter (·.isError) with
    | [] => (.ok (), l)
    | primary :: related => (.error ⟨primary, l.context.structured, related⟩, l)
  else (.ok (), l)

def warnings (l : DefinitionLog) : List Diagnostic :=
  l.reported.filter (·.severity == .warning)

end DefinitionLog
end Trellis
