import Trellis.Handle
import Trellis.Site

/-! Equations over logic variables: atomic constraints combined by conjunction
and disjunction. An atom remembers where it was written, so that a failed solve
can point at the constraint that failed. -/
namespace Trellis

/-- A predicate that the owner of an equation knows how to answer. -/
structure PredId where
  raw : Nat
deriving DecidableEq, Hashable, Repr, Inhabited

def PredId.text (p : PredId) : String := "pred#" ++ toString p.raw

/-- One constraint. A bind without a relation asks for equal values. -/
inductive Atom (V : Type) where
  | domain (var : VarId) (values : List V) (origin : Option Site)
  | bind (a b : VarId) (relation : Option PredId) (origin : Option Site)
  | predicate (var : VarId) (pred : PredId) (origin : Option Site)
deriving DecidableEq, Repr, Inhabited

namespace Atom

def origin : Atom V → Option Site
  | domain _ _ o | bind _ _ _ o | predicate _ _ o => o

/-- The variables an atom mentions, in the order it mentions them. -/
def vars : Atom V → List VarId
  | domain v _ _ | predicate v _ _ => [v]
  | bind a b _ _ => [a, b]

def mentions (a : Atom V) (v : VarId) : Bool := a.vars.contains v

def text (value : V → String) : Atom V → String
  | domain v values _ =>
    "Domain(" ++ v.text ++ ", [" ++ ", ".intercalate (values.map value) ++ "])"
  | bind a b none _ => "Bind(" ++ a.text ++ ", " ++ b.text ++ ")"
  | bind a b (some p) _ => "Bind(" ++ a.text ++ ", " ++ b.text ++ ", " ++ p.text ++ ")"
  | predicate v p _ => "Predicate(" ++ v.text ++ ", " ++ p.text ++ ")"

end Atom

inductive Equation (V : Type) where
  | always
  | never
  | atom (a : Atom V)
  | and (operands : List (Equation V))
  | or (operands : List (Equation V))
deriving Repr, Inhabited

namespace Equation

/-- The operands that a conjunction adds: none for `always`, and those of a
conjunction in place of the conjunction itself. -/
def conjuncts : Equation V → List (Equation V)
  | always => []
  | .and operands => operands
  | e => [e]

/-- The operands that a disjunction adds. -/
def disjuncts : Equation V → List (Equation V)
  | never => []
  | .or operands => operands
  | e => [e]

/-- The conjunction of `operands`, one level of nesting removed. -/
def all (operands : List (Equation V)) : Equation V :=
  match operands.flatMap conjuncts with
  | [] => always
  | [e] => e
  | es => .and es

/-- The disjunction of `operands`, one level of nesting removed. -/
def any (operands : List (Equation V)) : Equation V :=
  match operands.flatMap disjuncts with
  | [] => never
  | [e] => e
  | es => .or es

def isAtom : Equation V → Bool
  | atom _ => true
  | _ => false

/-- Where an atom was written; composed equations have no place of their own. -/
def origin : Equation V → Option Site
  | atom a => a.origin
  | _ => none

/-- The atoms of an equation from left to right. -/
def atoms : Equation V → List (Atom V)
  | always | never => []
  | atom a => [a]
  | .and es | .or es => es.flatMap atoms

/-- Every variable mentioned, in order of first appearance. -/
def vars (e : Equation V) : List VarId := (e.atoms.flatMap Atom.vars).eraseDups

mutual

/-- How many nodes an equation has. -/
def size : Equation V → Nat
  | always | never | atom _ => 1
  | .and es | .or es => 1 + sizeAll es

/-- How many nodes equations have in all. -/
def sizeAll : List (Equation V) → Nat
  | [] => 0
  | e :: es => e.size + sizeAll es

end

theorem size_pos (e : Equation V) : 0 < e.size := by
  cases e <;> simp only [size] <;> omega

theorem sizeAll_append (es fs : List (Equation V)) :
    sizeAll (es ++ fs) = sizeAll es + sizeAll fs := by
  induction es with
  | nil => simp [sizeAll]
  | cons e es ih => simp only [List.cons_append, sizeAll, ih]; omega

theorem size_le_of_mem {e : Equation V} {es : List (Equation V)} (h : e ∈ es) :
    e.size ≤ sizeAll es := by
  induction h with
  | head => simp [sizeAll]
  | tail _ _ ih => simp only [sizeAll]; omega

def text (value : V → String) : Equation V → String
  | always => "True"
  | never => "False"
  | atom a => a.text value
  | .and es => "And([" ++ ", ".intercalate (es.map (text value)) ++ "])"
  | .or es => "Or([" ++ ", ".intercalate (es.map (text value)) ++ "])"

end Equation
end Trellis
