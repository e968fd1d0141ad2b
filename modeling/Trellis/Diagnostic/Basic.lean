import Trellis.Diagnostic.Code
import Trellis.Handle
import Trellis.Site
import Trellis.Span

/-! Diagnostics: what was found, how serious it is, and where. -/
namespace Trellis

/-- A place in a language definition, a place in an analysed program, or no
known place. -/
inductive Location where
  | definition (site : Site)
  | node (node : NodeId) (span : Span)
  | unknown
deriving DecidableEq, Hashable, Repr

def Location.text : Location → String
  | definition site => site.text
  | .node n span => n.text ++ " at " ++ span.text
  | unknown => "<unknown location>"

structure Diagnostic where
  code : ErrorCode
  severity : Severity
  message : String
  location : Location
deriving DecidableEq, Hashable, Repr

namespace Diagnostic

def isError (d : Diagnostic) : Bool := d.severity.isError

def text (d : Diagnostic) : String :=
  d.location.text ++ ": " ++ d.severity.text ++ "[" ++ d.code.text ++ "]: " ++ d.message

end Diagnostic
end Trellis
