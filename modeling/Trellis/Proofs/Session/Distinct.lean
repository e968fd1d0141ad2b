import Trellis.Proofs.Session.Lexical

/-! Binders with slots of their own. A language whose expressions never use a slot for
two binders has nothing to fear from the slots being kept in one frame: its
expressions are read lexically as soon as they pass the checks. -/
namespace Trellis

/-- Binders that use different slots, none of which is bound already. -/
structure Fresh (locals binders : List Nat) : Prop where
  distinct : binders.Nodup
  free : ∀ s ∈ binders, s ∉ locals

variable {locals spoilt xs ys : List Nat}

theorem fresh_append (fresh : Fresh locals (xs ++ ys)) : Fresh locals xs ∧ Fresh locals ys := by
  obtain ⟨left, right, -⟩ := List.nodup_append.1 fresh.distinct
  exact ⟨⟨left, fun s mem => fresh.free s (List.mem_append_left _ mem)⟩,
    right, fun s mem => fresh.free s (List.mem_append_right _ mem)⟩

theorem fresh_cons (fresh : Fresh locals (slot :: xs)) :
    Fresh locals xs ∧ Fresh (slot :: locals) xs := by
  obtain ⟨other, distinct⟩ := List.nodup_cons.1 fresh.distinct
  have free : ∀ s ∈ xs, s ∉ locals := fun s mem => fresh.free s (List.mem_cons_of_mem _ mem)
  refine ⟨⟨distinct, free⟩, distinct, fun s mem listed => ?_⟩
  rcases List.mem_cons.1 listed with rfl | around
  · exact other mem
  · exact free s mem around

theorem apart_append (apart : ∀ s ∈ locals, s ∉ spoilt) (fresh : Fresh locals xs) :
    ∀ s ∈ locals, s ∉ xs ++ spoilt := by
  intro s listed mem
  rcases List.mem_append.1 mem with bound | old
  · exact fresh.free s bound listed
  · exact apart s listed old

theorem apart_inside (apart : ∀ s ∈ locals, s ∉ spoilt) (slot : Nat) :
    ∀ s ∈ slot :: locals, s ∉ Expr.inside slot spoilt := by
  intro s listed mem
  obtain ⟨old, other⟩ := List.mem_filter.1 mem
  rcases List.mem_cons.1 listed with rfl | around
  · simp at other
  · exact apart s around old

variable {c : CheckContext}

mutual

/-- Nothing comes in between where the checks pass and each binder has a slot of its
own. -/
theorem undisturbed_of_fresh (b : Bound) (spoilt : List Nat) (apart : ∀ s ∈ b.locals, s ∉ spoilt) :
    (e : Expr) → (c.check b e).Clean → Fresh b.locals e.binders → e.undisturbed spoilt = true
  | .lit _, _, _ | .self, _, _ | .raise _, _, _ | .arg _, _, _ | .dynVar _, _, _ => rfl
  | .loc slot, clean, _ => by
    have listed : slot ∈ b.locals := by simpa [CheckContext.check] using clean
    simpa [Expr.undisturbed] using apart slot listed
  | .letIn slot value body, clean, fresh => by
    obtain ⟨ofValue, ofBody⟩ := (Report.clean_append _ _).1 clean
    obtain ⟨around, within⟩ := fresh_cons fresh
    rw [Expr.undisturbed, Bool.and_eq_true]
    refine ⟨undisturbed_of_fresh b spoilt apart value ofValue (fresh_append around).1, ?_⟩
    exact undisturbed_of_fresh { b with locals := slot :: b.locals } _
      (apart_inside (apart_append apart (fresh_append around).1) slot) body ofBody
      (fresh_append within).2
  | .map items slot body, clean, fresh => by
    obtain ⟨ofItems, ofBody⟩ := (Report.clean_append _ _).1 clean
    obtain ⟨around, within⟩ := fresh_cons fresh
    rw [Expr.undisturbed, Bool.and_eq_true]
    refine ⟨undisturbed_of_fresh b spoilt apart items ofItems (fresh_append around).1, ?_⟩
    have later := apart_append (apart_append apart (fresh_append around).1) (fresh_append around).2
    exact undisturbed_of_fresh { b with locals := slot :: b.locals } _
      (apart_inside later slot) body ofBody (fresh_append within).2
  | .matchKind value arms, clean, fresh => by
    obtain ⟨ofValue, ofArms⟩ := (Report.clean_append _ _).1 clean
    rw [Expr.undisturbed, Bool.and_eq_true]
    exact ⟨undisturbed_of_fresh b spoilt apart value ofValue (fresh_append fresh).1,
      undisturbed_arms_of_fresh b _ (apart_append apart (fresh_append fresh).1) arms ofArms
        (fresh_append fresh).2⟩
  | .call receiver p args, clean, fresh => by
    obtain ⟨operands, -⟩ := (Report.clean_append _ _).1 clean
    obtain ⟨ofReceiver, ofArgs⟩ := (Report.clean_append _ _).1 operands
    rw [Expr.undisturbed, Bool.and_eq_true]
    exact ⟨undisturbed_of_fresh b spoilt apart receiver ofReceiver (fresh_append fresh).1,
      undisturbed_all_of_fresh b _ (apart_append apart (fresh_append fresh).1) args ofArgs
        (fresh_append fresh).2⟩
  | .ite x y z, clean, fresh => by
    obtain ⟨clean, ofElse⟩ := (Report.clean_append _ _).1 clean
    obtain ⟨ofCond, ofThen⟩ := (Report.clean_append _ _).1 clean
    obtain ⟨cond, branches⟩ := fresh_append fresh
    have later := apart_append apart cond
    rw [Expr.undisturbed, Bool.and_eq_true, Bool.and_eq_true]
    exact ⟨undisturbed_of_fresh b spoilt apart x ofCond cond,
      undisturbed_of_fresh b _ later y ofThen (fresh_append branches).1,
      undisturbed_of_fresh b _ later z ofElse (fresh_append branches).2⟩
  | .bindDynVar var x y, clean, fresh => by
    obtain ⟨before, right⟩ := (Report.clean_append _ _).1 clean
    obtain ⟨left, -⟩ := (Report.clean_append _ _).1 before
    rw [Expr.undisturbed, Bool.and_eq_true]
    exact ⟨undisturbed_of_fresh b spoilt apart x left (fresh_append fresh).1,
      undisturbed_of_fresh { b with dynVars := var :: b.dynVars } _
        (apart_append apart (fresh_append fresh).1) y right (fresh_append fresh).2⟩
  | .bind x y none _, clean, fresh | .binary _ x y, clean, fresh | .domain x y _, clean, fresh => by
    obtain ⟨left, right⟩ := (Report.clean_append _ _).1 clean
    rw [Expr.undisturbed, Bool.and_eq_true]
    exact ⟨undisturbed_of_fresh b spoilt apart x left (fresh_append fresh).1,
      undisturbed_of_fresh b _ (apart_append apart (fresh_append fresh).1) y right
        (fresh_append fresh).2⟩
  | .bind x y (some p) _, clean, fresh => by
    obtain ⟨clean, -⟩ := (Report.clean_append _ _).1 clean
    obtain ⟨operands, -⟩ := (Report.clean_append _ _).1 clean
    obtain ⟨left, right⟩ := (Report.clean_append _ _).1 operands
    rw [Expr.undisturbed, Bool.and_eq_true]
    exact ⟨undisturbed_of_fresh b spoilt apart x left (fresh_append fresh).1,
      undisturbed_of_fresh b _ (apart_append apart (fresh_append fresh).1) y right
        (fresh_append fresh).2⟩
  | .envGet x y _ _, clean, fresh => by
    obtain ⟨clean, -⟩ := (Report.clean_append _ _).1 clean
    obtain ⟨left, right⟩ := (Report.clean_append _ _).1 clean
    rw [Expr.undisturbed, Bool.and_eq_true]
    exact ⟨undisturbed_of_fresh b spoilt apart x left (fresh_append fresh).1,
      undisturbed_of_fresh b _ (apart_append apart (fresh_append fresh).1) y right
        (fresh_append fresh).2⟩
  | .predicate e _ _, clean, fresh => by
    obtain ⟨clean, -⟩ := (Report.clean_append _ _).1 clean
    obtain ⟨ofVar, -⟩ := (Report.clean_append _ _).1 clean
    exact undisturbed_of_fresh b spoilt apart e ofVar fresh
  | .child e _, clean, fresh | .metadataFlag e _, clean, fresh | .cast e _ _, clean, fresh
  | .logicVar e _, clean, fresh => by
    obtain ⟨ofOperand, -⟩ := (Report.clean_append _ _).1 clean
    exact undisturbed_of_fresh b spoilt apart e ofOperand fresh
  | .children e, clean, fresh | .parent e, clean, fresh | .text e, clean, fresh
  | .nodeEnv e, clean, fresh | .childrenEnv e, clean, fresh | .not e, clean, fresh
  | .isNull e, clean, fresh | .len e, clean, fresh | .solve e, clean, fresh
  | .logicValue e, clean, fresh => undisturbed_of_fresh b spoilt apart e clean fresh
  | .array items, clean, fresh | .all items, clean, fresh | .any items, clean, fresh =>
    undisturbed_all_of_fresh b spoilt apart items clean fresh

theorem undisturbed_all_of_fresh (b : Bound) (spoilt : List Nat)
    (apart : ∀ s ∈ b.locals, s ∉ spoilt) : (es : List Expr) → (c.checkAll b es).Clean →
      Fresh b.locals (Expr.bindersOfAll es) → Expr.undisturbedAll spoilt es = true
  | [], _, _ => rfl
  | e :: rest, clean, fresh => by
    obtain ⟨here, later⟩ := (Report.clean_append _ _).1 clean
    rw [Expr.undisturbedAll, Bool.and_eq_true]
    exact ⟨undisturbed_of_fresh b spoilt apart e here (fresh_append fresh).1,
      undisturbed_all_of_fresh b _ (apart_append apart (fresh_append fresh).1) rest later
        (fresh_append fresh).2⟩

theorem undisturbed_arms_of_fresh (b : Bound) (spoilt : List Nat)
    (apart : ∀ s ∈ b.locals, s ∉ spoilt) : (arms : List (ArmPattern × Expr)) →
      (c.checkArms b arms).Clean → Fresh b.locals (Expr.bindersOfArms arms) →
        Expr.undisturbedArms spoilt arms = true
  | [], _, _ => rfl
  | (p, e) :: rest, clean, fresh => by
    obtain ⟨clean, later⟩ := (Report.clean_append _ _).1 clean
    obtain ⟨-, here⟩ := (Report.clean_append _ _).1 clean
    obtain ⟨around, within⟩ := fresh_cons fresh
    rw [Expr.undisturbedArms, Bool.and_eq_true]
    exact ⟨undisturbed_of_fresh { b with locals := p.slot :: b.locals } _
        (apart_inside apart p.slot) e here (fresh_append within).1,
      undisturbed_arms_of_fresh b spoilt apart rest later (fresh_append around).2⟩

end

/-- An expression that passes the checks is read lexically if each of its binders has a
slot of its own. -/
theorem eval_lexical_of_distinct (S : Setting) (m : Machine) {e : Expr}
    (clean : (c.checkBody e).Clean) (distinct : e.binders.Nodup) :
    eval S m e = interpret (.lexical S m) S m [] e := by
  funext f s
  refine (interpret_lexical [] [] e ?_ f s ?_).symm
  · exact undisturbed_of_fresh ⟨[], []⟩ [] (by simp) e clean ⟨distinct, by simp⟩
  · intro slot value bound
    simp at bound

end Trellis
