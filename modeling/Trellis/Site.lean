/-! Places inside a language definition, as opposed to places in a program
written in that language. -/
namespace Trellis

/-- Where a declaration or a constraint was written. A declaration that names
no place of its own belongs to whoever made it, the `caller`. -/
inductive Site where
  | caller
  | at (file : String) (line column : Nat)
deriving DecidableEq, Hashable, Repr, Inhabited

namespace Site

/-- The form used inside messages. -/
def text : Site → String
  | caller => "<caller>"
  | .at file line _ => "File \"" ++ file ++ "\", line " ++ toString line

/-- The form other tools read: file, line and column between colons. -/
def parsable : Site → String
  | caller => "<caller>"
  | .at file line column => file ++ ":" ++ toString line ++ ":" ++ toString column

end Site
end Trellis
