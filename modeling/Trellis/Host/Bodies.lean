import Trellis.Host.Script

/-! Ready-made host code: bodies for external properties, and scripts that
produce the environments of references. -/
namespace Trellis

/-- Why a text is not the numeral of an integer that programs can compute
with. -/
inductive NumeralError where
  | empty
  | invalidDigit
  | tooLarge
  | tooSmall
deriving DecidableEq, Repr

def NumeralError.message : NumeralError → String
  | empty => "cannot parse integer from empty string"
  | invalidDigit => "invalid digit found in string"
  | tooLarge => "number too large to fit in target type"
  | tooSmall => "number too small to fit in target type"

namespace Numeral

def digit? (c : Char) : Option Nat :=
  if '0' ≤ c ∧ c ≤ '9' then some (c.toNat - '0'.toNat) else none

/-- The digits of a number that is not negative, after those that gave `n`. -/
def positive (n : Int) : List Char → Except NumeralError Int
  | [] => .ok n
  | c :: rest =>
    match digit? c with
    | none => .error .invalidDigit
    | some d =>
      let n := n * 10 + d
      if n < 2 ^ 63 then positive n rest else .error .tooLarge

/-- The digits of a negative number, after those that gave `n`. -/
def negative (n : Int) : List Char → Except NumeralError Int
  | [] => .ok n
  | c :: rest =>
    match digit? c with
    | none => .error .invalidDigit
    | some d =>
      let n := n * 10 - d
      if -(2 ^ 63) ≤ n then negative n rest else .error .tooSmall

/-- Read a numeral: an optional sign and decimal digits. Digits are taken from
the left, so of two faults the one further left is reported. -/
def parse : List Char → Except NumeralError Int
  | [] => .error .empty
  | ['+'] | ['-'] => .error .invalidDigit
  | '+' :: digits => positive 0 digits
  | '-' :: digits => negative 0 digits
  | digits => positive 0 digits

end Numeral

namespace ExternalBody

/-- The integer that the receiver's token text is the numeral of. -/
def parseInteger (c : ExternalCall) : Script :=
  match Numeral.parse c.text.toList with
  | .ok n => .give (.int n)
  | .error e => .raise e.message

def const (value : Value) (_ : ExternalCall) : Script := .give value

def raise (message : String) (_ : ExternalCall) : Script := .raise message

/-- All arguments. -/
def args (c : ExternalCall) : Script := .give (.array c.args.toArray)

/-- One argument, or null. -/
def arg (i : Nat) (c : ExternalCall) : Script := .give (c.args.getD i .null)

/-- The dynamic variables that are visible, each with its value. -/
def dynVars (c : ExternalCall) : Script :=
  .give (.array (c.dynVars.bindings.toArray.map fun (v, x) => .array #[.int v.raw, x]))

def entity (c : ExternalCall) : Script := .give (.entity c.entity)

/-- Count the call. -/
def count (_ : ExternalCall) : Script := .andThen (.count 1) .give

/-- Call another property of the receiver. -/
def call (prop : PropId) (args : List Value) (c : ExternalCall) : Script :=
  .andThen (.call c.entity prop args c.dynVars) .give

/-- Look a symbol up where the receiver stands. -/
def lookup (symbol : Symbol) (c : ExternalCall) : Script :=
  .andThen (.nodeEnv c.entity.node) fun
    | .env env => .andThen (.lookup env symbol .empty) .give
    | _ => .give .null

/-- Bind the receiver. -/
def addBinding (env : EnvId) (symbol : Symbol) (c : ExternalCall) : Script :=
  .andThen (.addBinding env symbol c.entity .empty) .give

def populate (node : NodeId) (_ : ExternalCall) : Script := .andThen (.populate node) .give

def loadUnit (name : Symbol) (_ : ExternalCall) : Script := .andThen (.loadUnit name) .give

end ExternalBody

namespace Script

/-- Count, then give an environment. -/
def countThen (env : EnvValue) : Script := andThen (.count 1) fun _ => give (.env env)

/-- Count, and fail until the count has reached `n`. -/
def raiseUntil (n : Int) (env : EnvValue) : Script :=
  andThen (.count 1) fun
    | .int c => if c < n then raise ("attempt " ++ toString c) else give (.env env)
    | _ => give (.env env)

/-- Look a symbol up and count what was found, then give an environment. -/
def lookupThen (from_ : EnvValue) (symbol : Symbol) (env : EnvValue) : Script :=
  andThen (.lookup from_ symbol .empty) fun found =>
    andThen (.count ((found.array?.getD #[]).size)) fun _ => give (.env env)

end Script
end Trellis
