/-! Half-open ranges of positions in a parsed text. -/
namespace Trellis

/-- The positions from `start` up to, not including, `stop`. Nothing forces
`start ≤ stop`; a reversed span is empty. -/
structure Span where
  start : Nat
  stop : Nat
deriving DecidableEq, Hashable, Repr, Inhabited

namespace Span

/-- The span of a node that no text stands behind. -/
def dummy : Span := ⟨0, 0⟩

def length (s : Span) : Nat := s.stop - s.start

def isEmpty (s : Span) : Bool := s.stop ≤ s.start

/-- The smallest span covering both. -/
def merge (s t : Span) : Span := ⟨min s.start t.start, max s.stop t.stop⟩

def text (s : Span) : String := toString s.start ++ ".." ++ toString s.stop

theorem isEmpty_iff_length_eq_zero (s : Span) : s.isEmpty = true ↔ s.length = 0 := by
  simp only [isEmpty, length, decide_eq_true_eq]
  omega

theorem merge_comm (s t : Span) : s.merge t = t.merge s := by
  simp only [merge, Nat.min_comm, Nat.max_comm]

end Span
end Trellis
