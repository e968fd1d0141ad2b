import Trellis.Solver

/-! What an equation asks for, said without the solver. A choice takes one
alternative at every disjunction it comes to, and what remains of the equation
is a list of constraints. A valuation solves a choice when it makes all its
constraints true and keeps to the values bound beforehand. The solver has to
find candidates before it can choose among them; the choices it can find them
for are the grounded ones. -/
namespace Trellis
open Solver

/-- Values of some of the variables. -/
abbrev Valuation (V : Type) := VarId → Option V

/-- Whether two values are related; without a relation they have to be equal. -/
def Solver.related [DecidableEq V] (holds : Query V → Bool) : Option PredId → V → V → Bool
  | none, x, y => x = y
  | some p, x, y => holds (.binary p x y)

/-- A constraint is true when its variables have values and these are as it
says. The first variable's value is the first argument of a relation. -/
def Atom.Holds [DecidableEq V] (holds : Query V → Bool) (t : Valuation V) : Atom V → Prop
  | domain v values _ => ∃ x, t v = some x ∧ x ∈ values
  | predicate v p _ => ∃ x, t v = some x ∧ holds (.unary p x)
  | bind a b relation _ =>
    ∃ x y, t a = some x ∧ t b = some y ∧ related holds relation x y

/-- The value bound to a variable beforehand; of several the last one. -/
def boundValue (bound : List (VarId × V)) (v : VarId) : Option V := bound.reverse.lookup v

/-- A valuation that keeps to the bound values and makes every constraint of a
choice true. -/
structure Solves [DecidableEq V] (holds : Query V → Bool) (bound : List (VarId × V))
    (choice : List (Atom V)) (t : Valuation V) : Prop where
  agrees : ∀ v x y, t v = some x → boundValue bound v = some y → x = y
  satisfied : ∀ a ∈ choice, a.Holds holds t

theorem nodup_eraseDups [DecidableEq α] (xs : List α) : xs.eraseDups.Nodup := by
  match xs with
  | [] => simp
  | x :: rest =>
    rw [List.eraseDups_cons, List.nodup_cons, List.mem_eraseDups]
    exact ⟨by simp, nodup_eraseDups _⟩
termination_by xs.length
decreasing_by exact Nat.lt_succ_of_le (List.length_filter_le _ _)

namespace Equation

mutual

/-- The choices of an equation: at every disjunction that is reached one
alternative is taken, the first ones first. A contradiction leaves no choice. -/
def choices : Equation V → List (List (Atom V))
  | always => [[]]
  | never => []
  | atom a => [[a]]
  | .and es => choicesOfAll es
  | .or es => choicesOfAny es

/-- A choice for each of several equations, the first equation's varying
slowest. -/
def choicesOfAll : List (Equation V) → List (List (Atom V))
  | [] => [[]]
  | e :: es => e.choices.flatMap fun first => (choicesOfAll es).map (first ++ ·)

/-- A choice for one of several equations. -/
def choicesOfAny : List (Equation V) → List (List (Atom V))
  | [] => []
  | e :: es => e.choices ++ choicesOfAny es

end

theorem choices_of_any_eq (es : List (Equation V)) : choicesOfAny es = es.flatMap choices := by
  induction es with
  | nil => rfl
  | cons e es ih => rw [choicesOfAny, ih, List.flatMap_cons]

theorem choices_of_all_append (es fs : List (Equation V)) :
    choicesOfAll (es ++ fs) =
      (choicesOfAll es).flatMap fun first => (choicesOfAll fs).map (first ++ ·) := by
  induction es with
  | nil => simp [choicesOfAll]
  | cons e es ih =>
    simp only [List.cons_append, choicesOfAll, ih, List.flatMap_assoc, List.flatMap_map,
      List.map_flatMap, List.map_map]
    simp [Function.comp_def, List.append_assoc]

theorem choices_of_all_singleton (e : Equation V) : choicesOfAll [e] = e.choices := by
  simp [choicesOfAll]

/-- Of several disjuncts the choices are taken one disjunct after the other. -/
theorem choices_of_all_or (es rest : List (Equation V)) :
    choicesOfAll (.or es :: rest) = es.flatMap fun e => choicesOfAll (e :: rest) := by
  simp only [choicesOfAll, choices, choices_of_any_eq, List.flatMap_assoc]

theorem choices_of_all_and (es rest : List (Equation V)) :
    choicesOfAll (.and es :: rest) = choicesOfAll (es ++ rest) := by
  rw [choices_of_all_append, choicesOfAll, choices]

theorem choices_of_all_atom (a : Atom V) (rest : List (Equation V)) :
    choicesOfAll (.atom a :: rest) = (choicesOfAll rest).map (a :: ·) := by
  simp [choicesOfAll, choices]

/-- Of constraints there is one choice. -/
theorem choices_of_atoms (choice : List (Atom V)) :
    choicesOfAll (choice.map .atom) = [choice] := by
  induction choice with
  | nil => rfl
  | cons a rest ih => rw [List.map_cons, choices_of_all_atom, ih]; rfl

mutual

private theorem atoms_of_choice : (e : Equation V) → ∀ choice ∈ e.choices, ∀ a ∈ choice, a ∈ e.atoms
  | always, choice, chosen, a, mem | .never, choice, chosen, a, mem => by
    simp_all [choices]
  | atom b, choice, chosen, a, mem => by
    simp_all [choices, atoms]
  | .and es, choice, chosen, a, mem => by
    rw [atoms, List.mem_flatMap]
    exact atoms_of_all es choice (by rwa [choices] at chosen) a mem
  | .or es, choice, chosen, a, mem => by
    rw [atoms, List.mem_flatMap]
    exact atoms_of_any es choice (by rwa [choices] at chosen) a mem

private theorem atoms_of_all :
    (es : List (Equation V)) → ∀ choice ∈ choicesOfAll es, ∀ a ∈ choice, ∃ e ∈ es, a ∈ e.atoms
  | [], choice, chosen, a, mem => by simp_all [choicesOfAll]
  | e :: es, choice, chosen, a, mem => by
    simp only [choicesOfAll, List.mem_flatMap, List.mem_map] at chosen
    obtain ⟨first, inFirst, rest, inRest, rfl⟩ := chosen
    rcases List.mem_append.1 mem with here | later
    · exact ⟨e, List.mem_cons_self, atoms_of_choice e first inFirst a here⟩
    · obtain ⟨f, member, found⟩ := atoms_of_all es rest inRest a later
      exact ⟨f, List.mem_cons_of_mem _ member, found⟩

private theorem atoms_of_any :
    (es : List (Equation V)) → ∀ choice ∈ choicesOfAny es, ∀ a ∈ choice, ∃ e ∈ es, a ∈ e.atoms
  | [], choice, chosen, a, mem => by simp_all [choicesOfAny]
  | e :: es, choice, chosen, a, mem => by
    rcases List.mem_append.1 chosen with here | later
    · exact ⟨e, List.mem_cons_self, atoms_of_choice e choice here a mem⟩
    · obtain ⟨f, member, found⟩ := atoms_of_any es choice later a mem
      exact ⟨f, List.mem_cons_of_mem _ member, found⟩

end

/-- A choice is made of constraints of the equation. -/
theorem mem_atoms_of_choice {e : Equation V} (chosen : choice ∈ e.choices) (mem : a ∈ choice) :
    a ∈ e.atoms :=
  atoms_of_choice e choice chosen a mem

/-- A variable of the equation is a variable of one of its constraints. -/
theorem mem_vars_iff {e : Equation V} : v ∈ e.vars ↔ ∃ a ∈ e.atoms, v ∈ a.vars := by
  rw [vars, List.mem_eraseDups, List.mem_flatMap]

end Equation

/-- The variables a choice mentions, in the order of the whole equation. -/
def Equation.varsOf (e : Equation V) (choice : List (Atom V)) : List VarId :=
  e.vars.filter fun v => choice.any (·.mentions v)

theorem Equation.nodup_vars_of (e : Equation V) (choice : List (Atom V)) :
    (e.varsOf choice).Nodup :=
  (nodup_eraseDups _).filter _

/-- Every variable of a choice is one of the equation. -/
theorem vars_of_choice {e : Equation V} (chosen : choice ∈ e.choices) :
    ∀ a ∈ choice, ∀ v ∈ a.vars, v ∈ e.vars := fun a mem _ mentioned =>
  Equation.mem_vars_iff.2 ⟨a, Equation.mem_atoms_of_choice chosen mem, mentioned⟩

theorem mem_vars_of_iff {e : Equation V} (chosen : choice ∈ e.choices) :
    v ∈ e.varsOf choice ↔ ∃ a ∈ choice, v ∈ a.vars := by
  simp only [Equation.varsOf, List.mem_filter, List.any_eq_true, Atom.mentions,
    List.contains_iff_mem]
  constructor
  · exact fun both => both.2
  · rintro ⟨a, mem, mentioned⟩
    exact ⟨vars_of_choice chosen a mem v mentioned, a, mem, mentioned⟩

/-- The variables that are sure to get candidates: those bound beforehand and
those with a listed domain, and whatever an equality hands these on to. -/
inductive Reached (bound : List (VarId × V)) (choice : List (Atom V)) : VarId → Prop
  | bound (listed : (v, x) ∈ bound) : Reached bound choice v
  | domain (mem : .domain v values origin ∈ choice) : Reached bound choice v
  | left (mem : .bind a b none origin ∈ choice) (right : Reached bound choice b) :
      Reached bound choice a
  | right (mem : .bind a b none origin ∈ choice) (left : Reached bound choice a) :
      Reached bound choice b

/-- Every variable of the choice is sure to get candidates. -/
def Grounded (bound : List (VarId × V)) (choice : List (Atom V)) : Prop :=
  ∀ a ∈ choice, ∀ v ∈ a.vars, Reached bound choice v

end Trellis
