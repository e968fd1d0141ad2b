import Trellis.Proofs.Solver.Solutions

/-! What a solve found, bound beforehand. To be bound only adds to the variables that are
sure to get candidates, so a choice that was grounded stays grounded; choices that lacked
candidates may become grounded with it, and one of them may now come first. Whichever it
is, its solution keeps to all that is bound. -/
namespace Trellis
open Solver

theorem lookup_eq_some_of_distinct {xs : List (VarId × V)} (distinct : (xs.map (·.1)).Nodup) :
    xs.lookup v = some x ↔ (v, x) ∈ xs := by
  induction xs with
  | nil => simp
  | cons entry rest ih =>
    obtain ⟨w, y⟩ := entry
    rw [List.map_cons, List.nodup_cons] at distinct
    rw [List.lookup_cons, List.mem_cons]
    by_cases same : v = w
    · subst same
      have once : (v, x) ∉ rest := fun mem => distinct.1 (List.mem_map.2 ⟨_, mem, rfl⟩)
      simp [once, eq_comm]
    · simp [beq_eq_false_iff_ne.2 same, same, ih distinct.2]

/-- Of two lists of bound values the later one counts first. -/
theorem bound_value_append (bound more : List (VarId × V)) (v : VarId) :
    boundValue (bound ++ more) v = (boundValue more v).or (boundValue bound v) := by
  rw [boundValue, List.reverse_append, List.lookup_append]
  rfl

/-- An assignment that lists no variable twice binds what it lists. -/
theorem bound_value_of_distinct {s : Assignment V} (distinct : (s.map (·.1)).Nodup) (v : VarId) :
    boundValue s v = s.valuation v := by
  have backwards : (s.reverse.map (·.1)).Nodup := by
    rw [List.map_reverse]
    exact List.pairwise_reverse.2 (distinct.imp Ne.symm)
  ext x
  rw [boundValue, Assignment.valuation, lookup_eq_some_of_distinct backwards,
    lookup_eq_some_of_distinct distinct, List.mem_reverse]

/-- To bind further variables takes candidates from none. -/
theorem reached_of_more {choice : List (Atom V)} (reached : Reached bound choice v)
    (more : List (VarId × V)) : Reached (bound ++ more) choice v := by
  induction reached with
  | bound listed => exact .bound (List.mem_append_left more listed)
  | domain mem => exact .domain mem
  | left mem _ ih => exact .left mem ih
  | right mem _ ih => exact .right mem ih

theorem grounded_of_more {choice : List (Atom V)} (grounded : Grounded bound choice)
    (more : List (VarId × V)) : Grounded (bound ++ more) choice :=
  fun a mem v mentioned => reached_of_more (grounded a mem v mentioned) more

section
variable [DecidableEq V] {holds : Query V → Bool} {choice : List (Atom V)}
  {bound : List (VarId × V)} {s : Assignment V}

/-- A solution still solves its choice when it is bound itself. -/
theorem solves_when_bound (distinct : (s.map (·.1)).Nodup)
    (solves : Solves holds bound choice s.valuation) :
    Solves holds (bound ++ s) choice s.valuation where
  agrees v x y value fixed := by
    rw [bound_value_append, bound_value_of_distinct distinct, value] at fixed
    exact Option.some.inj fixed
  satisfied := solves.satisfied

/-- Whatever keeps to a solution and to the values bound before gives every variable that it
shares with either of them the same value. -/
theorem agrees_when_bound (distinct : (s.map (·.1)).Nodup)
    (first : Solves holds bound choice s.valuation)
    (second : Solves holds (bound ++ s) choice' t) (value : t v = some x) :
    (∀ y, s.valuation v = some y → x = y) ∧ ∀ y, boundValue bound v = some y → x = y := by
  have keeps : ∀ y, (s.valuation v).or (boundValue bound v) = some y → x = y := by
    intro y fixed
    apply second.agrees v x y value
    rw [bound_value_append, bound_value_of_distinct distinct]
    exact fixed
  constructor
  · intro y found
    exact keeps y (by rw [found]; rfl)
  · intro y fixed
    cases found : s.valuation v with
    | none => exact keeps y (by rw [found]; exact fixed)
    | some z =>
      have same : z = y := first.agrees v z y found fixed
      exact keeps y (by rw [found, same]; rfl)

variable [Hashable V] {e : Equation V} {oracle : Oracle σ ε V}

/-- What a solve without a limit found solves a grounded choice. -/
theorem solution_of_solved (answers : ∀ q world, (oracle q world).1 = .ok (holds q))
    (solved : (e.solve oracle ⟨0⟩ bound world).1 = .ok (.solved s)) :
    ∃ choice ∈ e.choices, (s.map (·.1)).Nodup ∧ Grounded bound choice ∧
      Solves holds bound choice s.valuation := by
  obtain ⟨outcome, ended, computed⟩ := solve_ends answers e bound world
  rw [solved] at ended
  cases ended
  obtain ⟨before, choice, after, b, d, parts, -, ran, done, rfl⟩ := first_answer_some computed.symm
  have chosen : choice ∈ e.choices := by simp [parts]
  have propagated := propagated_of_collect chosen ran
  obtain ⟨names, -, solves⟩ := answer_solves propagated chosen done
  refine ⟨choice, chosen, names ▸ e.nodup_vars_of choice, ?_, solves⟩
  rw [propagated.grounded_iff chosen, ← propagated.vars_eq]
  exact (completed_some done).1

/-- **Solved values are stable.** A solve that found an assignment finds one again when all of
the assignment is bound on top of what was bound before. Each variable of the second
assignment that the first one or the earlier bindings give a value has that value. -/
theorem solved_values_stable (answers : ∀ q world, (oracle q world).1 = .ok (holds q))
    (solved : (e.solve oracle ⟨0⟩ bound world).1 = .ok (.solved s)) (later : σ) :
    ∃ s', (e.solve oracle ⟨0⟩ (bound ++ s) later).1 = .ok (.solved s') ∧
      ∀ v x, s'.valuation v = some x →
        (∀ y, s.valuation v = some y → x = y) ∧ ∀ y, boundValue bound v = some y → x = y := by
  obtain ⟨choice, chosen, distinct, grounded, first⟩ := solution_of_solved answers solved
  obtain ⟨s', again⟩ := solved_of_solves answers _ later chosen (grounded_of_more grounded s)
    (solves_when_bound distinct first)
  obtain ⟨_, -, -, -, second⟩ := solution_of_solved answers again
  exact ⟨s', again, fun v x value => agrees_when_bound distinct first second value⟩

/-- The first alternative asks for a candidate of the first variable, which only the second one
supplies. Solved again with that value bound the first alternative can be solved as well, and
the value stays. -/
theorem solved_values_stable_of_alternatives :
    let e : Equation Nat := .or
      [.and [.atom (.predicate ⟨0⟩ ⟨0⟩ none), .atom (.domain ⟨1⟩ [5] none)],
        .atom (.domain ⟨0⟩ [2] none)]
    let oracle : Oracle Unit Unit Nat := answering fun _ => true
    ∃ s s', (e.solve oracle ⟨0⟩ [] ()).1 = .ok (.solved s) ∧ s.valuation ⟨0⟩ = some 2 ∧
      (e.solve oracle ⟨0⟩ ([] ++ s) ()).1 = .ok (.solved s') ∧ s'.valuation ⟨0⟩ = some 2 := by
  intro e oracle
  let asking : List (Atom Nat) := [.predicate ⟨0⟩ ⟨0⟩ none, .domain ⟨1⟩ [5] none]
  let supplying : List (Atom Nat) := [.domain ⟨0⟩ [2] none]
  have choices : e.choices = [asking, supplying] := by
    simp [e, asking, supplying, Equation.choices, Equation.choicesOfAny, Equation.choicesOfAll]
  have answers : ∀ q world, (oracle q world).1 = .ok true := fun _ _ => rfl
  have supplied : Reached [] supplying ⟨0⟩ := .domain List.mem_cons_self
  have grounded : Grounded [] supplying := by simp [Grounded, supplying, Atom.vars, supplied]
  have solves : Solves (fun _ => true) [] supplying fun _ => some 2 :=
    ⟨by simp [boundValue], by simp [supplying, Atom.Holds]⟩
  have offered : supplying ∈ e.choices := by simp [choices]
  obtain ⟨s, solved⟩ := solved_of_solves answers [] () offered grounded solves
  obtain ⟨s', again, keeps⟩ := solved_values_stable answers solved ()
  obtain ⟨choice, chosen, -, grounded, first⟩ := solution_of_solved answers solved
  obtain ⟨choice', chosen', -, -, second⟩ := solution_of_solved answers again
  -- without the value the first alternative is not grounded
  have two : s.valuation ⟨0⟩ = some 2 := by
    rw [choices, List.mem_pair] at chosen
    rcases chosen with rfl | rfl
    · have unsupplied : ¬Reached [] asking ⟨0⟩ := by
        intro reached
        cases reached <;> simp_all [asking]
      exact absurd (grounded _ List.mem_cons_self ⟨0⟩ List.mem_cons_self) unsupplied
    · obtain ⟨x, value, among⟩ := first.satisfied _ List.mem_cons_self
      rwa [List.mem_singleton.1 among] at value
  have valued : ∃ x, s'.valuation ⟨0⟩ = some x := by
    rw [choices, List.mem_pair] at chosen'
    rcases chosen' with rfl | rfl <;>
      · obtain ⟨x, value, -⟩ := second.satisfied _ List.mem_cons_self
        exact ⟨x, value⟩
  obtain ⟨x, value⟩ := valued
  rw [(keeps ⟨0⟩ x value).1 2 two] at value
  exact ⟨s, s', solved, two, again, value⟩

end
end Trellis
