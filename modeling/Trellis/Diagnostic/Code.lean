/-! The classification of diagnostics: a code says what went wrong and in
which phase, a severity says what it stops. -/
namespace Trellis

/-- `K1` codes concern the definition of a language, `K2` population, `K3`
evaluation and `K4` solving. -/
inductive ErrorCode where
  | K1001 | K1002 | K1003 | K1004 | K1005 | K1006 | K1007 | K1008 | K1009 | K1010
  | K1011 | K1012 | K1013
  | K2001 | K2002 | K2003 | K2004
  | K3001 | K3002 | K3003 | K3004 | K3005 | K3006 | K3007 | K3008 | K3009
  | K4001 | K4002 | K4003
deriving DecidableEq, Hashable, Repr

namespace ErrorCode

/-- All codes in order of their numbers. -/
def all : List ErrorCode :=
  [K1001, K1002, K1003, K1004, K1005, K1006, K1007, K1008, K1009, K1010, K1011, K1012, K1013,
   K2001, K2002, K2003, K2004,
   K3001, K3002, K3003, K3004, K3005, K3006, K3007, K3008, K3009,
   K4001, K4002, K4003]

def text : ErrorCode → String
  | K1001 => "K1001" | K1002 => "K1002" | K1003 => "K1003" | K1004 => "K1004"
  | K1005 => "K1005" | K1006 => "K1006" | K1007 => "K1007" | K1008 => "K1008"
  | K1009 => "K1009" | K1010 => "K1010" | K1011 => "K1011" | K1012 => "K1012"
  | K1013 => "K1013"
  | K2001 => "K2001" | K2002 => "K2002" | K2003 => "K2003" | K2004 => "K2004"
  | K3001 => "K3001" | K3002 => "K3002" | K3003 => "K3003" | K3004 => "K3004"
  | K3005 => "K3005" | K3006 => "K3006" | K3007 => "K3007" | K3008 => "K3008"
  | K3009 => "K3009"
  | K4001 => "K4001" | K4002 => "K4002" | K4003 => "K4003"

def ofText? (text : String) : Option ErrorCode := all.find? (·.text == text)

/-- Whether the code concerns the definition of a language. -/
def isDefinition : ErrorCode → Bool
  | K1001 | K1002 | K1003 | K1004 | K1005 | K1006 | K1007 | K1008 | K1009 | K1010
  | K1011 | K1012 | K1013 => true
  | _ => false

theorem mem_all (c : ErrorCode) : c ∈ all := by cases c <;> simp [all]

end ErrorCode

/-- An `error` stops at once; a `nonBlocking` error lets its phase look for
further ones and stops it at the end; a `warning` stops nothing. -/
inductive Severity where
  | warning | error | nonBlocking
deriving DecidableEq, Hashable, Repr

namespace Severity

def isError : Severity → Bool
  | warning => false
  | error | nonBlocking => true

/-- Readers are not told the two kinds of error apart. -/
def text : Severity → String
  | warning => "warning"
  | error | nonBlocking => "error"

end Severity
end Trellis
