/-! Typed handles into the arenas of a program. A handle is a number tagged
with the arena that issued it, so a node can never be used where an
environment is meant; the tag costs nothing at run time. -/
namespace Trellis

/-- The arenas that hand out numbered handles. -/
inductive Arena where
  | node | kind | env | unit | var | property | dynVar
deriving DecidableEq, Repr

namespace Arena

/-- The word written in front of a handle of this arena. -/
def label : Arena → String
  | node => "node"
  | kind => "kind"
  | env => "env"
  | unit => "unit"
  | var => "var"
  | property => "prop"
  | dynVar => "dynvar"

/-- The name under which an arena is reported when it overflows. -/
def title : Arena → String
  | node => "NodeId"
  | kind => "KindId"
  | env => "EnvId"
  | unit => "UnitId"
  | var => "LogicVarId"
  | property => "PropertyId"
  | dynVar => "DynVarId"

/-- Handles are 32-bit, so an arena holds at most this many entries. -/
def capacity : Nat := 4294967296

end Arena

/-- A number that names one entry of the arena `a`. -/
structure Handle (a : Arena) where
  raw : Nat
deriving DecidableEq, Hashable, Repr, Inhabited

abbrev NodeId := Handle .node
abbrev KindId := Handle .kind
abbrev EnvId := Handle .env
abbrev UnitId := Handle .unit
abbrev VarId := Handle .var
abbrev PropId := Handle .property
abbrev DynVarId := Handle .dynVar

/-- The one way an arena can refuse a handle. -/
structure ArenaFull where
  arena : Arena
deriving DecidableEq, Repr

def ArenaFull.message (e : ArenaFull) : String :=
  e.arena.title ++ " arena exceeded u32 capacity"

namespace Handle

/-- The written form of a handle, such as `node#3`. -/
def text (h : Handle a) : String := a.label ++ "#" ++ toString h.raw

/-- The handle of the entry that an arena of `count` entries receives next. -/
def ofCount (a : Arena) (count : Nat) : Except ArenaFull (Handle a) :=
  if count < Arena.capacity then .ok ⟨count⟩ else .error ⟨a⟩

theorem ofCount_eq_ok_iff : ofCount a count = .ok h ↔ count < Arena.capacity ∧ h.raw = count := by
  obtain ⟨raw⟩ := h
  unfold ofCount
  split
  · simp_all [eq_comm]
  · simp [*]

end Handle

/-- The environment that stands for "nowhere": it never holds anything. -/
def EnvId.empty : EnvId := ⟨0⟩

end Trellis
