import Trellis.Host.Script
import Std.Data.HashMap

/-! The arena of lexical environments. An environment has bindings, a parent
and references to other environments; it only ever gains bindings and
references. The first environment of the arena is the empty one and stays
empty. -/
namespace Trellis

/-- What a symbol is bound to. -/
structure Binding where
  entity : Entity
  metadata : Metadata
deriving DecidableEq, Repr

/-- How the environment behind a reference is produced when it is first needed. -/
inductive EnvThunk where
  | source (source : EnvSource)
  | custom (script : Script)

namespace EnvThunk

def text : EnvThunk → String
  | source (.env value) => "Env(" ++ value.text ++ ")"
  | source (.property entity prop) =>
    "Property \x7b entity: " ++ entity.text ++ ", prop: " ++ prop.text ++ " \x7d"
  | source (.unit name) => "Unit(" ++ name.text ++ ")"
  | custom _ => "Custom(..)"

end EnvThunk

/-- How far a reference has been resolved. The state in between makes it
possible to notice a reference that depends on itself. -/
inductive RefState where
  | unresolved
  | resolving
  | resolved (value : EnvValue)
deriving DecidableEq, Repr

structure Reference where
  thunk : EnvThunk
  crossing : Crossing
  state : RefState

/-- One environment. The bindings of a symbol are kept newest first, references
in the order they were made. -/
structure Scope where
  parent : Option EnvId
  owner : Option NodeId
  bindings : Std.HashMap Symbol (List Binding)
  references : Array Reference

namespace Scope

/-- An environment in which nothing has been said yet. -/
def opened (parent : Option EnvId) (owner : Option NodeId) : Scope := ⟨parent, owner, ∅, #[]⟩

def newestFirst (s : Scope) (symbol : Symbol) : List Binding := (s.bindings[symbol]?).getD []

def bind (s : Scope) (symbol : Symbol) (b : Binding) : Scope :=
  { s with bindings := s.bindings.insert symbol (b :: s.newestFirst symbol) }

def refer (s : Scope) (r : Reference) : Scope := { s with references := s.references.push r }

theorem newestFirst_bind (s : Scope) (symbol other : Symbol) (b : Binding) :
    (s.bind symbol b).newestFirst other =
      if symbol = other then b :: s.newestFirst symbol else s.newestFirst other := by
  simp only [newestFirst, bind, Std.HashMap.getElem?_insert, beq_iff_eq]
  split <;> rfl

end Scope

structure EnvStore where
  scopes : Array Scope

namespace EnvStore

def new : EnvStore := ⟨#[.opened none none]⟩

def size (s : EnvStore) : Nat := s.scopes.size

/-- Whether there is nothing but the empty environment. -/
def isEmpty (s : EnvStore) : Bool := s.size ≤ 1

def scope? (s : EnvStore) (e : EnvId) : Option Scope := s.scopes[e.raw]?

/-- Open an environment. The empty environment is no parent worth recording. -/
def create (s : EnvStore) (parent : Option EnvId) (owner : Option NodeId) : EnvId × EnvStore :=
  (⟨s.scopes.size⟩, ⟨s.scopes.push (.opened (parent.filter (· ≠ .empty)) owner)⟩)

/-- Why an environment cannot be changed, if it cannot. -/
def refusal? (s : EnvStore) (e : EnvId) : Option EnvError :=
  if e = .empty then some .emptyEnv
  else if e.raw < s.size then none
  else some (.unknownEnv e)

/-- Add a binding. A later binding of a symbol comes before an earlier one. The
store is as it was when the binding is refused. -/
def addBinding (s : EnvStore) (e : EnvId) (symbol : Symbol) (entity : Entity)
    (metadata : Metadata) : Except EnvError Unit × EnvStore :=
  if symbol.isEmpty then (.error .invalidKey, s)
  else match s.refusal? e with
    | some why => (.error why, s)
    | none => (.ok (), ⟨s.scopes.modify e.raw (·.bind symbol ⟨entity, metadata⟩)⟩)

def parent (s : EnvStore) (e : EnvId) : Option EnvId := (s.scope? e).bind (·.parent)

/-- The node whose population opened the environment. -/
def owner (s : EnvStore) (e : EnvId) : Option NodeId := (s.scope? e).bind (·.owner)

/-- The bindings of a symbol in the environment itself, newest first. -/
def newestFirst (s : EnvStore) (e : EnvId) (symbol : Symbol) : List Binding :=
  match s.scope? e with
  | some scope => scope.newestFirst symbol
  | none => []

/-- The bindings of a symbol in the environment itself, in the order they were
made. -/
def bindings (s : EnvStore) (e : EnvId) (symbol : Symbol) : List Binding :=
  (s.newestFirst e symbol).reverse

def references (s : EnvStore) (e : EnvId) : Array Reference :=
  match s.scope? e with
  | some scope => scope.references
  | none => #[]

/-- Add a reference, unless that is refused. Its number counts the references
of the environment. -/
def addReference (s : EnvStore) (e : EnvId) (thunk : EnvThunk) (crossing : Crossing) :
    Except EnvError Nat × EnvStore :=
  match s.refusal? e with
  | some why => (.error why, s)
  | none =>
    (.ok (s.references e).size, ⟨s.scopes.modify e.raw (·.refer ⟨thunk, crossing, .unresolved⟩)⟩)

def reference? (s : EnvStore) (e : EnvId) (index : Nat) : Option Reference :=
  (s.references e)[index]?

def setState (s : EnvStore) (e : EnvId) (index : Nat) (state : RefState) : EnvStore :=
  ⟨s.scopes.modify e.raw fun scope =>
    { scope with references := scope.references.modify index ({ · with state }) }⟩

end EnvStore
end Trellis
