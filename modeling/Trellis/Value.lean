import Trellis.Entity
import Trellis.Equation
import Trellis.Symbol

/-! What evaluation produces. Texts and equations are not values themselves:
they live in a pool, and a value refers to them by a handle. Two equations are
therefore the same value only when they are the same entry of the pool, however
alike they look. -/
namespace Trellis

/-- An environment as seen from a particular place: a lookup in it starts out
with these rebindings and this metadata already gathered. -/
structure EnvValue where
  env : EnvId
  rebindings : Rebindings
  metadata : Metadata
deriving DecidableEq, Hashable, Repr, Inhabited

namespace EnvValue

/-- The environment as seen from its own place. -/
def plain (env : EnvId) : EnvValue := ⟨env, .none, .empty⟩

def empty : EnvValue := plain .empty

def text (e : EnvValue) : String :=
  "EnvValue \x7b env: " ++ e.env.text ++ ", rebindings: " ++ e.rebindings.text ++
    ", metadata: " ++ e.metadata.text ++ " \x7d"

end EnvValue

/-- An entry of the pool of equations. -/
structure EquationId where
  raw : Nat
deriving DecidableEq, Hashable, Repr, Inhabited

inductive Value where
  | null
  | unit
  | bool (b : Bool)
  | int (n : Int)
  | symbol (s : Symbol)
  | entity (e : Entity)
  | env (e : EnvValue)
  | logicVar (v : VarId)
  | array (items : Array Value)
  | equation (id : EquationId)
deriving Hashable, Repr, Inhabited

namespace Value

mutual

def same : Value → Value → Bool
  | null, null | unit, unit => true
  | bool a, bool b => a == b
  | int a, int b => a == b
  | symbol a, symbol b => a == b
  | entity a, entity b => a == b
  | env a, env b => a == b
  | logicVar a, logicVar b => a == b
  | array ⟨as⟩, array ⟨bs⟩ => sameAll as bs
  | equation a, equation b => a == b
  | _, _ => false

def sameAll : List Value → List Value → Bool
  | [], [] => true
  | a :: as, b :: bs => a.same b && sameAll as bs
  | _, _ => false

end

mutual

theorem same_iff : (a b : Value) → (a.same b = true ↔ a = b)
  | array ⟨as⟩, b => by
    cases b with
    | array bs => cases bs; simp [same, sameAll_iff as]
    | _ => simp [same]
  | null, b | unit, b | bool _, b | int _, b | symbol _, b | entity _, b | env _, b
  | logicVar _, b | equation _, b => by cases b <;> simp [same]

theorem sameAll_iff : (as bs : List Value) → (sameAll as bs = true ↔ as = bs)
  | [], bs => by cases bs <;> simp [sameAll]
  | a :: as, bs => by cases bs <;> simp [sameAll, same_iff a, sameAll_iff as]

end

/-- Arrays of different sizes need not be looked into. -/
theorem same_array (as bs : Array Value) : (array as).same (array bs) =
    (as.size == bs.size && sameAll as.toList bs.toList) := by
  have sized : sameAll as.toList bs.toList = true → as.size = bs.size := fun h =>
    congrArg List.length ((sameAll_iff _ _).1 h)
  rw [Bool.eq_iff_iff, Bool.and_eq_true, beq_iff_eq]
  exact ⟨fun h => ⟨sized h, h⟩, fun h => h.2⟩

mutual

/-- Whether two values are equal, without looking into an array that both have
in common or into arrays of different sizes. A value may hold one array in many
places, and then it is far smaller than what it spells out. -/
def sameShared : (a b : Value) → { result : Bool // result = a.same b }
  | array as, array bs =>
    have agree : (as.size == bs.size && (sameItems as bs).1) = (array as).same (array bs) := by
      rw [(sameItems as bs).2, same_array]
    ⟨withPtrEq as bs (fun _ => as.size == bs.size && (sameItems as bs).1)
      (fun shared => agree.trans ((same_iff _ _).2 (congrArg array shared))), agree⟩
  | a, b => ⟨a.same b, rfl⟩

def sameItems : (as bs : Array Value) → { result : Bool // result = sameAll as.toList bs.toList }
  | ⟨as⟩, ⟨bs⟩ => sameAllShared as bs

def sameAllShared : (as bs : List Value) → { result : Bool // result = sameAll as bs }
  | a :: as, b :: bs =>
    ⟨(sameShared a b).1 && (sameAllShared as bs).1, by
      simp [sameAll, (sameShared a b).2, (sameAllShared as bs).2]⟩
  | as, bs => ⟨sameAll as bs, rfl⟩

end

instance : DecidableEq Value := fun a b =>
  decidable_of_iff ((sameShared a b).1 = true) (by rw [(sameShared a b).2, same_iff])

/-- What a value is called when it is not the one expected. -/
def typeName : Value → String
  | null => "null"
  | unit => "unit"
  | bool _ => "bool"
  | int _ => "int"
  | symbol _ => "symbol"
  | entity _ => "entity"
  | env _ => "env"
  | logicVar _ => "logic var"
  | array _ => "array"
  | equation _ => "equation"

def bool? : Value → Option Bool
  | bool b => some b
  | _ => none

def int? : Value → Option Int
  | int n => some n
  | _ => none

def entity? : Value → Option Entity
  | entity e => some e
  | _ => none

def array? : Value → Option (Array Value)
  | array items => some items
  | _ => none

def isNull : Value → Bool
  | null => true
  | _ => false

end Value

/-- The declared type of a parameter, a result or a dynamic variable. An entity
type admits nodes of its kind and of kinds derived from it, and null. -/
inductive ValueType where
  | unit | bool | int | symbol | env | logicVar | equation | any
  | entity (kind : KindId)
  | array (element : ValueType)
deriving DecidableEq, Repr, Inhabited

def ValueType.text : ValueType → String
  | unit => "unit"
  | bool => "bool"
  | int => "int"
  | symbol => "symbol"
  | env => "env"
  | logicVar => "logic var"
  | equation => "equation"
  | any => "any"
  | entity kind => "entity<" ++ kind.text ++ ">"
  | array element => "array<" ++ element.text ++ ">"

/-- The texts and equations that values refer to. -/
structure Pool where
  symbols : SymbolTable
  equations : Array (Equation Entity)

namespace Pool

def new (canonical : Option (String → String)) : Pool := ⟨.new canonical, #[]⟩

def intern (p : Pool) (text : String) : Symbol × Pool :=
  let (s, symbols) := p.symbols.intern text
  (s, { p with symbols })

def text (p : Pool) (s : Symbol) : String := p.symbols.lookup s

/-- Enter an equation. It is a new value even when an equal one is present. -/
def addEquation (p : Pool) (e : Equation Entity) : EquationId × Pool :=
  (⟨p.equations.size⟩, { p with equations := p.equations.push e })

/-- The equation of a handle; a handle of some other pool stands for nothing
that could be asked. -/
def equation (p : Pool) (id : EquationId) : Equation Entity :=
  (p.equations[id.raw]?).getD .never

end Pool
end Trellis
