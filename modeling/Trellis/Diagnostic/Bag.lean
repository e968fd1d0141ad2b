import Trellis.Diagnostic.Basic
import Std.Data.HashSet

/-! The collector of diagnostics about an analysed program. It can drop
repetitions, and it can stop keeping errors once there are enough of them, so
that one broken unit does not flood its reader. -/
namespace Trellis

structure BagConfig where
  /-- How many errors are kept; zero keeps them all. -/
  errorLimit : Nat
  /-- Whether findings are also handed on to a tracing facility. -/
  forward : Bool
  deduplicate : Bool
deriving DecidableEq, Repr

namespace BagConfig

def standard : BagConfig := ⟨100, true, true⟩

def unlimited : BagConfig := ⟨0, false, false⟩

instance : Inhabited BagConfig := ⟨standard⟩

end BagConfig

/-- The findings kept since the bag was last emptied, oldest first, with the
number of errors among them and the number of errors refused. `seen` answers
quickly whether a finding is among those kept. -/
structure DiagnosticBag where
  config : BagConfig
  kept : Array Diagnostic
  seen : Std.HashSet Diagnostic
  errorCount : Nat
  dropped : Nat
  mem_seen : ∀ d, d ∈ seen ↔ d ∈ kept

namespace DiagnosticBag

def new (config : BagConfig) : DiagnosticBag := ⟨config, #[], ∅, 0, 0, by simp⟩

instance : Inhabited DiagnosticBag := ⟨new default⟩

def limitReached (b : DiagnosticBag) : Bool :=
  0 < b.config.errorLimit && b.config.errorLimit ≤ b.errorCount

def hasErrors (b : DiagnosticBag) : Bool := 0 < b.errorCount

def size (b : DiagnosticBag) : Nat := b.kept.size

def isEmpty (b : DiagnosticBag) : Bool := b.kept.isEmpty

/-- Keep a finding. -/
def keep (b : DiagnosticBag) (d : Diagnostic) : DiagnosticBag where
  config := b.config
  kept := b.kept.push d
  seen := b.seen.insert d
  errorCount := if d.isError then b.errorCount + 1 else b.errorCount
  dropped := b.dropped
  mem_seen e := by
    rw [Std.HashSet.mem_insert, Array.mem_push, b.mem_seen, beq_iff_eq, eq_comm, or_comm]

/-- Take a finding in. The limit is tested first: an error beyond it counts as
dropped even when it repeats one that was kept. -/
def report (b : DiagnosticBag) (d : Diagnostic) : DiagnosticBag :=
  if d.isError && b.limitReached then { b with dropped := b.dropped + 1 }
  else if b.config.deduplicate && b.seen.contains d then b
  else b.keep d

def fail (b : DiagnosticBag) (code : ErrorCode) (message : String) (location : Location) :
    DiagnosticBag :=
  b.report ⟨code, .error, message, location⟩

def warn (b : DiagnosticBag) (code : ErrorCode) (message : String) (location : Location) :
    DiagnosticBag :=
  b.report ⟨code, .warning, message, location⟩

def countByCode (b : DiagnosticBag) (code : ErrorCode) : Nat :=
  b.kept.countP (·.code == code)

def forNode (b : DiagnosticBag) (n : NodeId) : Array Diagnostic :=
  b.kept.filter fun d =>
    match d.location with
    | .node m _ => m == n
    | _ => false

/-- Hand out what was kept and start again. -/
def take (b : DiagnosticBag) : Array Diagnostic × DiagnosticBag := (b.kept, new b.config)

end DiagnosticBag
end Trellis
