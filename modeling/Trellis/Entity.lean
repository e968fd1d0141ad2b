import Trellis.Handle

/-! Entities are nodes as seen from a particular place. A lookup that crosses
scopes gathers metadata and rebindings on its way; an entity pairs the node it
found with what was gathered. -/
namespace Trellis

/-- Up to 32 boolean fields carried along a lookup. -/
structure Metadata where
  bits : BitVec 32
deriving DecidableEq, Hashable, Repr, Inhabited

namespace Metadata

def fieldCount : Nat := 32

def empty : Metadata := ⟨0⟩

def ofNat (n : Nat) : Metadata := ⟨BitVec.ofNat 32 n⟩

def toNat (m : Metadata) : Nat := m.bits.toNat

/-- Set one field; there is nothing to set beyond the last field. -/
def withField (m : Metadata) (i : Nat) : Metadata :=
  if i < fieldCount then ⟨m.bits ||| BitVec.twoPow 32 i⟩ else m

def field (m : Metadata) (i : Nat) : Bool := m.bits.getLsbD i

/-- The fields of either. -/
def combine (m n : Metadata) : Metadata := ⟨m.bits ||| n.bits⟩

/-- Whether every required field is set. -/
def contains (m required : Metadata) : Bool := m.bits &&& required.bits == required.bits

def isEmpty (m : Metadata) : Bool := m.bits == 0

def text (m : Metadata) : String :=
  "Metadata(0b" ++ String.ofList (Nat.toDigits 2 m.toNat) ++ ")"

theorem field_combine (m n : Metadata) (i : Nat) :
    (m.combine n).field i = (m.field i || n.field i) := by
  simp [combine, field]

theorem combine_empty (m : Metadata) : m.combine empty = m := by
  simp [combine, empty]

theorem empty_combine (m : Metadata) : empty.combine m = m := by
  simp [combine, empty]

theorem combine_assoc (m n k : Metadata) : (m.combine n).combine k = m.combine (n.combine k) := by
  simp [combine, BitVec.or_assoc]

theorem combine_comm (m n : Metadata) : m.combine n = n.combine m := by
  simp [combine, BitVec.or_comm]

instance : Std.Associative combine := ⟨combine_assoc⟩

instance : Std.Commutative combine := ⟨combine_comm⟩

theorem contains_empty (m : Metadata) : m.contains empty = true := by
  simp [contains, empty]

end Metadata

/-- Replacements of environments, newest first, and how many there are. Two chains
are the same when they replace the same environments in the same order. -/
structure Rebindings where
  newestFirst : List (EnvId × EnvId)
  length : Nat
  counted : newestFirst.length = length
deriving Repr

namespace Rebindings

theorem eq_of_newestFirst {r s : Rebindings} (same : r.newestFirst = s.newestFirst) : r = s := by
  obtain ⟨made, length, rfl⟩ := r
  obtain ⟨others, length, rfl⟩ := s
  cases same
  rfl

/-- A chain is passed on to much of what is seen through it, so the two are
often one object and need not be compared. Chains of different lengths differ
without a look at their replacements. -/
instance : DecidableEq Rebindings := fun r s =>
  withPtrEqDecEq r s fun _ =>
    decidable_of_iff (r.length = s.length ∧ r.newestFirst = s.newestFirst)
      ⟨fun same => eq_of_newestFirst same.2, fun same => same ▸ ⟨rfl, rfl⟩⟩

instance : Hashable Rebindings := ⟨fun r => mixHash (hash r.length) (hash r.newestFirst)⟩

def none : Rebindings := ⟨[], 0, rfl⟩

instance : Inhabited Rebindings := ⟨none⟩

def isEmpty (r : Rebindings) : Bool := r.newestFirst.isEmpty

def push (r : Rebindings) (old new : EnvId) : Rebindings where
  newestFirst := (old, new) :: r.newestFirst
  length := r.length + 1
  counted := congrArg (· + 1) r.counted

/-- The replacements in the order they were made. -/
def pairs (r : Rebindings) : List (EnvId × EnvId) := r.newestFirst.reverse

/-- Make replacements on top of those there are. -/
def pushAll (r : Rebindings) (made : List (EnvId × EnvId)) : Rebindings :=
  made.foldl (fun r (old, new) => r.push old new) r

/-- Make the replacements of `r`, then those of `later`. Where one of the two makes
none, the other one is handed on as it is. -/
def compose (r later : Rebindings) : Rebindings :=
  if later.isEmpty then r
  else if r.isEmpty then later
  else r.pushAll later.pairs

/-- The environment that stands for `env`: what the newest replacement of it
says. The result is not replaced again. -/
def standIn (r : Rebindings) (env : EnvId) : EnvId :=
  (r.newestFirst.lookup env).getD env

def text (r : Rebindings) : String :=
  "[" ++ ", ".intercalate (r.pairs.map fun p => "(" ++ p.1.text ++ ", " ++ p.2.text ++ ")") ++ "]"

theorem eq_none_of_isEmpty {r : Rebindings} (empty : r.isEmpty = true) : r = none :=
  eq_of_newestFirst (List.isEmpty_iff.1 empty)

theorem newestFirst_pushAll (r : Rebindings) (made : List (EnvId × EnvId)) :
    (r.pushAll made).newestFirst = made.reverse ++ r.newestFirst := by
  induction made generalizing r with
  | nil => rfl
  | cons p rest ih =>
    show ((r.push p.1 p.2).pushAll rest).newestFirst = _
    rw [ih, List.reverse_cons, List.append_assoc]
    rfl

/-- Whichever way two chains are put together, the later replacements come first. -/
theorem newestFirst_compose (r later : Rebindings) :
    (r.compose later).newestFirst = later.newestFirst ++ r.newestFirst := by
  unfold compose
  split
  · next nothing => rw [eq_none_of_isEmpty nothing]; rfl
  · split
    · next nothing => rw [eq_none_of_isEmpty nothing]; exact (List.append_nil _).symm
    · rw [newestFirst_pushAll, pairs, List.reverse_reverse]

theorem pairs_none : none.pairs = [] := rfl

theorem pairs_push (r : Rebindings) (old new : EnvId) :
    (r.push old new).pairs = r.pairs ++ [(old, new)] := by
  simp [pairs, push]

theorem pairs_compose (r later : Rebindings) :
    (r.compose later).pairs = r.pairs ++ later.pairs := by
  simp [pairs, newestFirst_compose]

theorem compose_none (r : Rebindings) : r.compose none = r := rfl

theorem none_compose (r : Rebindings) : none.compose r = r :=
  eq_of_newestFirst ((newestFirst_compose none r).trans (List.append_nil _))

theorem compose_push (r later : Rebindings) (old new : EnvId) :
    r.compose (later.push old new) = (r.compose later).push old new := by
  refine eq_of_newestFirst ?_
  rw [newestFirst_compose]
  exact congrArg _ (newestFirst_compose r later).symm

theorem compose_assoc (r s t : Rebindings) :
    (r.compose s).compose t = r.compose (s.compose t) :=
  eq_of_newestFirst (by simp [newestFirst_compose])

end Rebindings

/-- What a lookup gathered on its way to a node. -/
structure EntityInfo where
  metadata : Metadata
  rebindings : Rebindings
deriving DecidableEq, Hashable, Repr, Inhabited

namespace EntityInfo

def empty : EntityInfo := ⟨.empty, .none⟩

def isEmpty (i : EntityInfo) : Bool := i.metadata.isEmpty && i.rebindings.isEmpty

/-- Gather further metadata and rebindings. -/
def extend (i : EntityInfo) (metadata : Metadata) (rebindings : Rebindings) : EntityInfo :=
  ⟨i.metadata.combine metadata, i.rebindings.compose rebindings⟩

end EntityInfo

/-- A node together with what was gathered on the way to it. -/
structure Entity where
  node : NodeId
  info : EntityInfo
deriving DecidableEq, Hashable, Repr, Inhabited

namespace Entity

/-- The node as seen from its own place. -/
def bare (node : NodeId) : Entity := ⟨node, .empty⟩

/-- Another node seen the same way. -/
def sibling (e : Entity) (node : NodeId) : Entity := { e with node }

def toBare (e : Entity) : Entity := bare e.node

def isBare (e : Entity) : Bool := e.info.isEmpty

def text (e : Entity) : String :=
  if e.isBare then "<" ++ e.node.text ++ ">"
  else "<" ++ e.node.text ++ " md=" ++ e.info.metadata.text ++ " rb=" ++
    e.info.rebindings.text ++ ">"

end Entity
end Trellis
