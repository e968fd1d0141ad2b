import Trellis.DynVars
import Std.Data.HashMap
import Std.Data.HashSet

/-! Remembered results of property calls. A key is everything a result can
depend on: the property, the entity it is asked of, the arguments, and the
dynamic variables the property declares. Only successful results are kept. -/
namespace Trellis

structure MemoKey where
  prop : PropId
  entity : Entity
  args : List Value
  dynVars : DynVars
deriving DecidableEq, Hashable, Repr

/-- The finished results, and the calls that are running and would be entered
again by asking for them. -/
structure Memo where
  done : Std.HashMap MemoKey Value
  running : Std.HashSet MemoKey
  hits : Nat
  misses : Nat

namespace Memo

def empty : Memo := ⟨∅, ∅, 0, 0⟩

/-- How many results are kept. -/
def size (m : Memo) : Nat := m.done.size

/-- A result was found. -/
def hit (m : Memo) : Memo := { m with hits := m.hits + 1 }

/-- No result was found, so the call is made. -/
def start (m : Memo) (key : MemoKey) : Memo :=
  { m with misses := m.misses + 1, running := m.running.insert key }

def finish (m : Memo) (key : MemoKey) (value : Value) : Memo :=
  { m with running := m.running.erase key, done := m.done.insert key value }

/-- The call failed and leaves no trace. -/
def abandon (m : Memo) (key : MemoKey) : Memo := { m with running := m.running.erase key }

end Memo
end Trellis
