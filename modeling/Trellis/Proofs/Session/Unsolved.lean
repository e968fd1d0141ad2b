import Trellis.Proofs.Session.Congruence

/-! Expressions that solve nothing. What a reading makes of solves does not count for them,
and neither does anything of the machine that is left to it but the lookups. -/
namespace Trellis
open FrameM

namespace Expr

mutual

/-- Whether an equation is solved somewhere in an expression. -/
def solves : Expr → Bool
  | solve _ => true
  | lit _ | self | arg _ | loc _ | dynVar _ | raise _ => false
  | child e _ | children e | parent e | text e | metadataFlag e _ | nodeEnv e | childrenEnv e
  | cast e _ _ | not e | isNull e | len e | logicVar e _ | predicate e _ _ | logicValue e =>
    e.solves
  | letIn _ a b | bindDynVar _ a b | envGet a b _ _ | binary _ a b | map a _ b | domain a b _
  | bind a b _ _ => a.solves || b.solves
  | ite c t e => c.solves || t.solves || e.solves
  | call receiver _ args => receiver.solves || anySolves args
  | matchKind value arms => value.solves || armsSolve arms
  | array items | all items | any items => anySolves items

def anySolves : List Expr → Bool
  | [] => false
  | e :: rest => e.solves || anySolves rest

def armsSolve : List (ArmPattern × Expr) → Bool
  | [] => false
  | (_, e) :: rest => e.solves || armsSolve rest

end

end Expr

/-- Evaluation by two machines that look up alike is the same but for their calls and solves. -/
theorem FrameM.same_assembly (S : Setting) {m m' : Machine} (search : m'.search = m.search) :
    Assembly S m m' fun _ act act' => act = act' where
  pure _ := rfl
  self := rfl
  look _ := rfl
  set_local _ _ := rfl
  equation _ := rfl
  bind first rest := by rw [first, funext rest]
  with_dyn_var _ _ inside := by rw [inside]
  search _ _ _ _ := by rw [search]

section Unsolved
variable {S : Setting} {m m' : Machine}
  (rel : Assembly S m m' fun _ act act' => act = act') (h : Handling)
  (solve : Equation Entity → FrameM Bool)
include rel

theorem unary_unsolved {around : List (Nat × Value)} {e operand : Expr} {form : Expr → Expr}
    (unary : e.operand? = some (operand, form))
    (inside : interpret h S m around operand = interpret { h with solve } S m' around operand) :
    interpret h S m around e = interpret { h with solve } S m' around e := by
  rw [interpret_operand unary, interpret_operand unary]
  exact rel.bind inside (rel.form_related unary)

set_option linter.unusedSectionVars false in
mutual

/-- Two readings that differ in what they make of solves are one where nothing is solved. -/
theorem interpret_unsolved (around : List (Nat × Value)) : (e : Expr) → e.solves = false →
    interpret h S m around e = interpret { h with solve } S m' around e
  | .lit _, _ | .self, _ | .raise _, _ => by
    rw [interpret, interpret, eval, eval]
  | .arg _, _ | .loc _, _ | .dynVar _, _ => by rw [interpret, interpret]
  | .letIn slot value body, quiet => by
    obtain ⟨ofValue, ofBody⟩ := Bool.or_eq_false_iff.1 quiet
    rw [interpret, interpret]
    exact rel.bind (interpret_unsolved around value ofValue) fun _ =>
      rel.bind (rel.set_local _ _) fun _ => interpret_unsolved _ body ofBody
  | .bindDynVar var value body, quiet => by
    obtain ⟨ofValue, ofBody⟩ := Bool.or_eq_false_iff.1 quiet
    rw [interpret, interpret]
    exact rel.bind (interpret_unsolved around value ofValue) fun _ =>
      rel.with_dyn_var _ _ (interpret_unsolved around body ofBody)
  | .call receiver prop args, quiet => by
    obtain ⟨ofReceiver, ofArgs⟩ := Bool.or_eq_false_iff.1 quiet
    rw [interpret, interpret]
    exact rel.operand (interpret_unsolved around receiver ofReceiver) rel.expect_entity fun _ =>
      rel.bind (interpret_all_unsolved around args ofArgs) fun _ => rfl
  | .envGet env symbol first require, quiet => by
    obtain ⟨ofEnv, ofSymbol⟩ := Bool.or_eq_false_iff.1 quiet
    rw [interpret, interpret]
    refine rel.operand (interpret_unsolved around env ofEnv) rel.expect_env fun _ => ?_
    refine rel.operand (interpret_unsolved around symbol ofSymbol) rel.expect_symbol fun _ => ?_
    simp only [eval, expectEnv, expectSymbol, pure_bind]
    split
    · exact rel.bind (rel.lookup_first _ _ _) fun _ => rfl
    · exact rel.bind (rel.search _ _ _ _) fun _ => rfl
  | .matchKind value arms, quiet => by
    obtain ⟨ofValue, ofArms⟩ := Bool.or_eq_false_iff.1 quiet
    rw [interpret, interpret]
    exact rel.bind (interpret_unsolved around value ofValue) fun v =>
      interpret_arms_unsolved around v arms ofArms
  | .ite c t e, quiet => by
    obtain ⟨before, ofElse⟩ := Bool.or_eq_false_iff.1 quiet
    obtain ⟨ofCond, ofThen⟩ := Bool.or_eq_false_iff.1 before
    rw [interpret, interpret]
    refine rel.operand (interpret_unsolved around c ofCond) rel.expect_bool fun holds => ?_
    split
    · exact interpret_unsolved around t ofThen
    · exact interpret_unsolved around e ofElse
  | .binary .and lhs rhs, quiet | .binary .or lhs rhs, quiet => by
    obtain ⟨left, right⟩ := Bool.or_eq_false_iff.1 quiet
    rw [interpret, interpret, interpret_unsolved around lhs left, interpret_unsolved around rhs right]
  | .binary .eq lhs rhs, quiet | .binary .ne lhs rhs, quiet => by
    obtain ⟨left, right⟩ := Bool.or_eq_false_iff.1 quiet
    simp only [interpret, eval, pure_bind]
    rw [interpret_unsolved around lhs left, interpret_unsolved around rhs right]
  | .binary .add lhs rhs, quiet | .binary .sub lhs rhs, quiet | .binary .mul lhs rhs, quiet
  | .binary .lt lhs rhs, quiet | .binary .le lhs rhs, quiet => by
    obtain ⟨left, right⟩ := Bool.or_eq_false_iff.1 quiet
    simp only [interpret]
    rw [interpret_unsolved around lhs left, interpret_unsolved around rhs right]
  | .array items, quiet => by
    rw [interpret, interpret, interpret_all_unsolved around items quiet]
  | .map items slot body, quiet => by
    obtain ⟨ofItems, ofBody⟩ := Bool.or_eq_false_iff.1 quiet
    rw [interpret, interpret]
    refine rel.operand (interpret_unsolved around items ofItems) rel.expect_array fun items => ?_
    refine rel.bind (congrArg (items.toList.mapM ·) (funext fun item => ?_)) fun _ => rfl
    exact rel.bind (rel.set_local _ _) fun _ => interpret_unsolved _ body ofBody
  | .domain var values origin, quiet => by
    obtain ⟨ofVar, ofValues⟩ := Bool.or_eq_false_iff.1 quiet
    rw [interpret, interpret, interpret_unsolved around var ofVar,
      interpret_unsolved around values ofValues]
  | .bind a b relation origin, quiet => by
    obtain ⟨left, right⟩ := Bool.or_eq_false_iff.1 quiet
    rw [interpret, interpret, interpret_unsolved around a left, interpret_unsolved around b right]
  | .predicate var prop origin, quiet => by
    rw [interpret, interpret, interpret_unsolved around var quiet]
  | .all items, quiet | .any items, quiet => by
    rw [interpret, interpret, interpret_equations_unsolved around items quiet]
  | .solve _, solving => nomatch solving
  | .child e _, quiet | .children e, quiet | .parent e, quiet | .text e, quiet
  | .metadataFlag e _, quiet | .nodeEnv e, quiet | .childrenEnv e, quiet | .cast e _ _, quiet
  | .not e, quiet | .isNull e, quiet | .len e, quiet | .logicVar e _, quiet
  | .logicValue e, quiet => unary_unsolved rel h solve rfl (interpret_unsolved around e quiet)

theorem interpret_all_unsolved (around : List (Nat × Value)) : (es : List Expr) →
    Expr.anySolves es = false →
    interpretAll h S m around es = interpretAll { h with solve } S m' around es
  | [], _ => by rw [interpretAll, interpretAll]
  | e :: rest, quiet => by
    obtain ⟨here, later⟩ := Bool.or_eq_false_iff.1 quiet
    rw [interpretAll, interpretAll, interpret_unsolved around e here,
      interpret_all_unsolved around rest later]

theorem interpret_equations_unsolved (around : List (Nat × Value)) : (es : List Expr) →
    Expr.anySolves es = false →
    interpretEquations h S m around es = interpretEquations { h with solve } S m' around es
  | [], _ => by rw [interpretEquations, interpretEquations]
  | e :: rest, quiet => by
    obtain ⟨here, later⟩ := Bool.or_eq_false_iff.1 quiet
    rw [interpretEquations, interpretEquations, interpret_unsolved around e here,
      interpret_equations_unsolved around rest later]

theorem interpret_arms_unsolved (around : List (Nat × Value)) (value : Value) :
    (arms : List (ArmPattern × Expr)) → Expr.armsSolve arms = false →
    interpretArms h S m around value arms = interpretArms { h with solve } S m' around value arms
  | [], _ => by rw [interpretArms, interpretArms]
  | (p, body) :: rest, quiet => by
    obtain ⟨here, later⟩ := Bool.or_eq_false_iff.1 quiet
    rw [interpretArms, interpretArms]
    refine rel.bind (rel.accepts S p value) fun fits => ?_
    split
    · exact rel.bind (rel.set_local _ _) fun _ => interpret_unsolved _ body here
    · exact interpret_arms_unsolved around value rest later

end

end Unsolved

end Trellis
