import Trellis.Diagnostic.Definition
import Trellis.Language.Check

/-! Equations built by a host. Whoever builds one says which dynamic variables
will be bound when it is solved, and a constraint that would need others, or
that does not have the shape of a constraint, is refused when it is made. -/
namespace Trellis

/-- The predicate that stands for a property. -/
def PropId.pred (p : PropId) : PredId := ⟨p.raw⟩

/-- The property that a predicate stands for. -/
def PredId.prop (p : PredId) : PropId := ⟨p.raw⟩

structure EquationBuilder where
  available : List DynVarId
  atoms : List (Equation Entity)

namespace EquationBuilder

def new (available : List DynVarId) : EquationBuilder := ⟨available, []⟩

/-- Add an equation as it is. -/
def push (b : EquationBuilder) (e : Equation Entity) : EquationBuilder :=
  { b with atoms := b.atoms ++ [e] }

/-- The refusal of a constraint made at `site`. -/
def refusal (site : Site) (m : Mistake) : DefinitionError :=
  ⟨⟨m.code, .error, m.message, .definition site⟩, [("in equation", site)], []⟩

def domain (b : EquationBuilder) (var : VarId) (values : List Entity) (site : Site) :
    EquationBuilder :=
  b.push (.atom (.domain var values (some site)))

/-- Relate two variables, by equality or through a property that is called on
the value of the first with the value of the second. -/
def bind (b : EquationBuilder) (d : Definition) (x y : VarId) (relation : Option PropId)
    (site : Site) : Except DefinitionError EquationBuilder :=
  match relation.bind fun p => d.relationProblem p b.available with
  | some problem => .error (refusal site (.relation problem))
  | none => .ok (b.push (.atom (.bind x y (relation.map PropId.pred) (some site))))

/-- Filter a variable through a property. -/
def predicate (b : EquationBuilder) (d : Definition) (var : VarId) (p : PropId) (site : Site) :
    Except DefinitionError EquationBuilder :=
  match d.predicateProblem p b.available with
  | some problem => .error (refusal site (.predicate problem))
  | none => .ok (b.push (.atom (.predicate var p.pred (some site))))

def length (b : EquationBuilder) : Nat := b.atoms.length

/-- The conjunction of all that was added. -/
def finish (b : EquationBuilder) : Equation Entity := .all b.atoms

end EquationBuilder
end Trellis
