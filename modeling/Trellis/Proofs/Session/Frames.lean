import Trellis.Proofs.Session.Moves

/-! What evaluation does to its frame. Whatever happens, and however an evaluation
ends, the receiver, the arguments and the dynamic variables are in the end what
they were; of the local slots at most those have changed that a binder inside the
expression assigns. -/
namespace Trellis

namespace Expr

mutual

/-- The slots that the binders inside an expression assign. -/
def binders : Expr → List Nat
  | letIn slot value body => slot :: (value.binders ++ body.binders)
  | map items slot body => slot :: (items.binders ++ body.binders)
  | matchKind value arms => value.binders ++ bindersOfArms arms
  | lit _ | self | arg _ | loc _ | dynVar _ | raise _ => []
  | child e _ | children e | parent e | text e | metadataFlag e _ | nodeEnv e | childrenEnv e
  | cast e _ _ | not e | isNull e | len e | logicVar e _ | predicate e _ _ | solve e
  | logicValue e => e.binders
  | bindDynVar _ a b | envGet a b _ _ | binary _ a b | domain a b _ | bind a b _ _ =>
    a.binders ++ b.binders
  | ite c t e => c.binders ++ (t.binders ++ e.binders)
  | call receiver _ args => receiver.binders ++ bindersOfAll args
  | array items | all items | any items => bindersOfAll items

def bindersOfAll : List Expr → List Nat
  | [] => []
  | e :: rest => e.binders ++ bindersOfAll rest

def bindersOfArms : List (ArmPattern × Expr) → List Nat
  | [] => []
  | (p, e) :: rest => p.slot :: (e.binders ++ bindersOfArms rest)

end

end Expr

namespace Frame

theorem get_set (f : Frame) (slot : Nat) (value : Value) (other : Nat) :
    (f.set slot value).get other = if other = slot then value else f.get other := by
  unfold Frame.get Frame.set
  simp only [Array.getD_eq_getD_getElem?, Array.getElem?_setIfInBounds, Array.getElem?_append,
    Array.getElem?_replicate, Array.size_append, Array.size_replicate]
  by_cases same : other = slot
  · subst same
    have room : other < f.locals.size + (other + 1 - f.locals.size) := by omega
    simp [room]
  · rw [if_neg (Ne.symm same), if_neg same]
    by_cases held : other < f.locals.size
    · rw [if_pos held]
    · rw [if_neg held, Array.getElem?_eq_none (Nat.le_of_not_lt held)]
      split <;> rfl

theorem size_set (f : Frame) (slot : Nat) (value : Value) :
    (f.set slot value).locals.size = max f.locals.size (slot + 1) := by
  unfold Frame.set
  simp only [Array.size_setIfInBounds, Array.size_append, Array.size_replicate]
  omega

/-- Two frames of one body that differ at most in some of the slots. The second one has no
more slots than the first, unless the last of them is one of these. -/
structure AlikeBut (slots : List Nat) (f g : Frame) : Prop where
  entity : g.entity = f.entity
  args : g.args = f.args
  dynVars : g.dynVars = f.dynVars
  get : ∀ slot, slot ∉ slots → g.get slot = f.get slot
  size : g.locals.size = f.locals.size ∨
    ∃ slot ∈ slots, f.locals.size ≤ slot ∧ g.locals.size = slot + 1

variable {slots : List Nat} {f g h : Frame}

theorem alike_but_refl (slots : List Nat) (f : Frame) : f.AlikeBut slots f :=
  ⟨rfl, rfl, rfl, fun _ _ => rfl, .inl rfl⟩

theorem alike_but_trans (first : f.AlikeBut slots g) (second : g.AlikeBut slots h) :
    f.AlikeBut slots h where
  entity := second.entity.trans first.entity
  args := second.args.trans first.args
  dynVars := second.dynVars.trans first.dynVars
  get slot free := (second.get slot free).trans (first.get slot free)
  size := by
    rcases second.size with same | ⟨slot, listed, above, size⟩
    · exact same ▸ first.size
    · refine .inr ⟨slot, listed, ?_, size⟩
      rcases first.size with same | ⟨earlier, -, beyond, longer⟩ <;> omega

theorem alike_but_set (listed : slot ∈ slots) (value : Value) :
    f.AlikeBut slots (f.set slot value) where
  entity := rfl
  args := rfl
  dynVars := rfl
  get other free := by
    rw [get_set, if_neg]
    rintro rfl
    exact free listed
  size := by
    rw [size_set]
    by_cases held : slot < f.locals.size
    · exact .inl (Nat.max_eq_left held)
    · have beyond : f.locals.size ≤ slot := Nat.le_of_not_lt held
      exact .inr ⟨slot, listed, beyond, Nat.max_eq_right (Nat.le_succ_of_le beyond)⟩

/-- A slot that a frame has stays as it is; one that it comes to have holds null. -/
theorem AlikeBut.held (alike : f.AlikeBut slots g) (free : slot ∉ slots) :
    g.locals[slot]? = f.locals[slot]? ∨ f.locals.size ≤ slot ∧ g.locals[slot]? = some .null := by
  have same := alike.get slot free
  have grown : f.locals.size ≤ g.locals.size := by
    rcases alike.size with same | ⟨last, -, beyond, longer⟩ <;> omega
  unfold Frame.get at same
  rw [Array.getD_eq_getD_getElem?, Array.getD_eq_getD_getElem?] at same
  by_cases here : slot < f.locals.size
  · rw [Array.getElem?_eq_getElem here, Array.getElem?_eq_getElem (Nat.lt_of_lt_of_le here grown)]
      at same ⊢
    exact .inl (congrArg some same)
  · have missing := Array.getElem?_eq_none (Nat.le_of_not_lt here)
    by_cases there : slot < g.locals.size
    · rw [missing, Array.getElem?_eq_getElem there] at same
      exact .inr ⟨Nat.le_of_not_lt here, (Array.getElem?_eq_getElem there).trans (congrArg some same)⟩
    · exact .inl ((Array.getElem?_eq_none (Nat.le_of_not_lt there)).trans missing.symm)

end Frame

namespace FrameM

/-- However an action ends, it leaves its frame as it was but for these slots. -/
def AltersOnly (slots : List Nat) (act : FrameM α) : Prop :=
  ∀ (f : Frame) (s : Session), f.AlikeBut slots (act f s).1.2

variable {slots : List Nat}

theorem alters_of_still {act : FrameM α} (still : ∀ f s, (act f s).1.2 = f) :
    AltersOnly slots act := by
  intro f s
  rw [still f s]
  exact Frame.alike_but_refl slots f

theorem alters_session (act : EvalM α) : AltersOnly slots (session act) :=
  alters_of_still fun _ _ => rfl

theorem alters_pure (x : α) : AltersOnly slots (pure x : FrameM α) := alters_of_still fun _ _ => rfl

theorem alters_fail (fault : Fault) : AltersOnly slots (FrameM.fail fault : FrameM α) :=
  alters_session _

theorem alters_mismatch (expected : String) (found : Value) :
    AltersOnly slots (mismatch expected found : FrameM α) := alters_fail _

theorem alters_read (g : Frame → α) : AltersOnly slots (FrameM.read g) :=
  alters_of_still fun _ _ => rfl

theorem alters_node (n : NodeId) : AltersOnly slots (FrameM.node n) := alters_session _

theorem alters_equation (e : Equation Entity) : AltersOnly slots (equation e) :=
  alters_of_still fun _ _ => rfl

theorem alters_set_local (listed : slot ∈ slots) (value : Value) :
    AltersOnly slots (setLocal slot value) := fun _ _ => Frame.alike_but_set listed value

theorem alters_bind {act : FrameM α} {next : α → FrameM β} (first : AltersOnly slots act)
    (rest : ∀ x, AltersOnly slots (next x)) : AltersOnly slots (act >>= next) := by
  intro f s
  have there := first f s
  rw [run_bind]
  rcases ran : act f s with ⟨⟨halt | x, g⟩, t⟩ <;> simp only [ran] at there ⊢
  · exact there
  · exact Frame.alike_but_trans there (rest x g t)

/-- The bindings in force inside are gone again afterwards. -/
theorem alters_with_dyn_var {act : FrameM α} (inside : AltersOnly slots act) (var : DynVarId)
    (value : Value) : AltersOnly slots (withDynVar var value act) := by
  intro f s
  have there := inside { f with dynVars := f.dynVars.set var value } s
  exact ⟨there.entity, there.args, rfl, there.get, there.size⟩

theorem alters_map {act : α → FrameM β} (each : ∀ x, AltersOnly slots (act x)) (xs : List α) :
    AltersOnly slots (xs.mapM act) := by
  induction xs with
  | nil => exact alters_pure _
  | cons x xs ih =>
    rw [List.mapM_cons]
    exact alters_bind (each x) fun _ => alters_bind ih fun _ => alters_pure _

/-! What an operator does with the values of its operands. -/

theorem alters_expect_entity (v : Value) : AltersOnly slots (expectEntity v) :=
  alters_of_still fun _ _ => by cases v <;> rfl

theorem alters_expect_bool (v : Value) : AltersOnly slots (expectBool v) :=
  alters_of_still fun _ _ => by cases v <;> rfl

theorem alters_expect_int (v : Value) : AltersOnly slots (expectInt v) :=
  alters_of_still fun _ _ => by cases v <;> rfl

theorem alters_expect_symbol (v : Value) : AltersOnly slots (expectSymbol v) :=
  alters_of_still fun _ _ => by cases v <;> rfl

theorem alters_expect_array (v : Value) : AltersOnly slots (expectArray v) :=
  alters_of_still fun _ _ => by cases v <;> rfl

theorem alters_expect_logic_var (v : Value) : AltersOnly slots (expectLogicVar v) :=
  alters_of_still fun _ _ => by cases v <;> rfl

theorem alters_expect_env (v : Value) : AltersOnly slots (expectEnv v) :=
  alters_of_still fun _ _ => by cases v <;> rfl

theorem alters_arithmetic (op : BinaryOp) (a b : Int) : AltersOnly slots (arithmetic op a b) := by
  have checks (n : Int) : AltersOnly slots (checked n) := by
    unfold checked
    split
    · exact alters_pure _
    · exact alters_fail _
  cases op <;> first | exact checks _ | exact alters_pure _

theorem alters_is_a (S : Setting) (e : Entity) (kind : KindId) :
    AltersOnly slots (isA S e kind) := alters_bind (alters_node _) fun _ => alters_pure _

theorem alters_cast (S : Setting) (kind : KindId) (orRaise : Bool) (v : Value) :
    AltersOnly slots (cast S kind orRaise v) := by
  cases v with
  | entity e =>
    refine alters_bind (alters_is_a S e kind) fun fits => ?_
    split
    · exact alters_pure _
    · split
      · exact alters_mismatch _ _
      · exact alters_pure _
  | null => exact alters_pure _
  | _ => exact alters_mismatch _ _

theorem alters_accepts (S : Setting) (p : ArmPattern) (v : Value) :
    AltersOnly slots (accepts S p v) := by
  unfold accepts
  split
  · exact alters_pure _
  · exact alters_is_a S _ _
  · exact alters_pure _

theorem alters_no_match (S : Setting) (v : Value) :
    AltersOnly slots (noMatch S v : FrameM α) := by
  cases v with
  | entity e => exact alters_bind (alters_node _) fun _ => alters_fail _
  | _ => exact alters_fail _

mutual

theorem alters_equations_of : (v : Value) → AltersOnly slots (equationsOf v)
  | .equation id => by
    rw [equationsOf]
    exact alters_bind (alters_session _) fun _ => alters_pure _
  | .bool true => by rw [equationsOf]; exact alters_pure _
  | .bool false => by rw [equationsOf]; exact alters_pure _
  | .array ⟨items⟩ => by rw [equationsOf]; exact alters_equations_of_all items
  | .null | .unit | .int _ | .symbol _ | .entity _ | .env _ | .logicVar _ => alters_mismatch _ _

theorem alters_equations_of_all : (vs : List Value) → AltersOnly slots (equationsOfAll vs)
  | [] => by rw [equationsOfAll]; exact alters_pure _
  | v :: rest => by
    rw [equationsOfAll]
    exact alters_bind (alters_equations_of v) fun _ =>
      alters_bind (alters_equations_of_all rest) fun _ => alters_pure _

end

theorem alters_candidates_of (vs : List Value) : AltersOnly slots (candidatesOf vs) := by
  induction vs with
  | nil => exact alters_pure _
  | cons v rest ih =>
    cases v with
    | entity e => exact alters_bind ih fun _ => alters_pure _
    | null => exact ih
    | _ => exact alters_mismatch _ _

/-- An operand is evaluated, and has to be of the kind that is expected. -/
theorem alters_operand {act : FrameM Value} {expect : Value → FrameM α} {next : α → FrameM β}
    (inside : AltersOnly slots act) (expects : ∀ v, AltersOnly slots (expect v))
    (rest : ∀ x, AltersOnly slots (next x)) :
    AltersOnly slots (act >>= fun v => expect v >>= next) :=
  alters_bind inside fun v => alters_bind (expects v) rest

section Eval
variable (S : Setting) (m : Machine)

mutual

/-- Evaluation alters nothing of its frame but the slots that binders assign. -/
theorem eval_alters : (e : Expr) → e.binders ⊆ slots → AltersOnly slots (eval S m e)
  | .lit _, _ | .self, _ | .loc _, _ | .raise _, _ => by
    rw [eval]
    first | exact alters_pure _ | exact alters_read _ | exact alters_fail _
  | .arg _, _ | .dynVar _, _ => by
    rw [eval]
    refine alters_bind (alters_read _) fun found => ?_
    cases found with
    | some value => exact alters_pure _
    | none => exact alters_fail _
  | .letIn slot value body, within => by
    obtain ⟨here, within⟩ := List.cons_subset.1 within
    obtain ⟨inValue, inBody⟩ := List.append_subset.1 within
    rw [eval]
    exact alters_bind (eval_alters value inValue) fun _ =>
      alters_bind (alters_set_local here _) fun _ => eval_alters body inBody
  | .bindDynVar var value body, within => by
    obtain ⟨inValue, inBody⟩ := List.append_subset.1 within
    rw [eval]
    exact alters_bind (eval_alters value inValue) fun _ =>
      alters_with_dyn_var (eval_alters body inBody) _ _
  | .child e i, within => by
    rw [eval]
    refine alters_operand (eval_alters e within) alters_expect_entity fun entity => ?_
    refine alters_bind (alters_node _) fun node => ?_
    cases node.children[i]? <;> exact alters_pure _
  | .parent e, within => by
    rw [eval]
    refine alters_operand (eval_alters e within) alters_expect_entity fun entity => ?_
    refine alters_bind (alters_node _) fun node => ?_
    cases node.parent <;> exact alters_pure _
  | .children e, within | .text e, within => by
    rw [eval]
    refine alters_operand (eval_alters e within) alters_expect_entity fun entity => ?_
    exact alters_bind (alters_node _) fun _ => alters_pure _
  | .metadataFlag e _, within => by
    rw [eval]
    exact alters_operand (eval_alters e within) alters_expect_entity fun _ => alters_pure _
  | .nodeEnv e, within | .childrenEnv e, within => by
    rw [eval]
    refine alters_operand (eval_alters e within) alters_expect_entity fun _ => ?_
    exact alters_bind (alters_session _) fun _ => alters_pure _
  | .call receiver prop args, within => by
    obtain ⟨inReceiver, inArgs⟩ := List.append_subset.1 within
    rw [eval]
    refine alters_operand (eval_alters receiver inReceiver) alters_expect_entity fun _ => ?_
    refine alters_bind (eval_all_alters args inArgs) fun _ => ?_
    refine alters_bind (alters_read _) fun _ => ?_
    exact alters_session _
  | .envGet env symbol first require, within => by
    obtain ⟨inEnv, inSymbol⟩ := List.append_subset.1 within
    rw [eval]
    refine alters_operand (eval_alters env inEnv) alters_expect_env fun _ => ?_
    refine alters_operand (eval_alters symbol inSymbol) alters_expect_symbol fun _ => ?_
    split
    · refine alters_bind (alters_session _) fun found => ?_
      cases found <;> exact alters_pure _
    · exact alters_bind (alters_session _) fun _ => alters_pure _
  | .cast value kind orRaise, within => by
    rw [eval]
    exact alters_bind (eval_alters value within) fun v => alters_cast S kind orRaise v
  | .matchKind value arms, within => by
    obtain ⟨inValue, inArms⟩ := List.append_subset.1 within
    rw [eval]
    exact alters_bind (eval_alters value inValue) fun v => eval_arms_alters v arms inArms
  | .ite c t e, within => by
    obtain ⟨inCond, within⟩ := List.append_subset.1 within
    obtain ⟨inThen, inElse⟩ := List.append_subset.1 within
    rw [eval]
    refine alters_operand (eval_alters c inCond) alters_expect_bool fun holds => ?_
    split
    · exact eval_alters t inThen
    · exact eval_alters e inElse
  | .binary .and lhs rhs, within => by
    obtain ⟨left, right⟩ := List.append_subset.1 within
    rw [eval]
    refine alters_operand (eval_alters lhs left) alters_expect_bool fun holds => ?_
    split
    · exact alters_operand (eval_alters rhs right) alters_expect_bool fun _ => alters_pure _
    · exact alters_pure _
  | .binary .or lhs rhs, within => by
    obtain ⟨left, right⟩ := List.append_subset.1 within
    rw [eval]
    refine alters_operand (eval_alters lhs left) alters_expect_bool fun holds => ?_
    split
    · exact alters_pure _
    · exact alters_operand (eval_alters rhs right) alters_expect_bool fun _ => alters_pure _
  | .binary .eq lhs rhs, within | .binary .ne lhs rhs, within => by
    obtain ⟨left, right⟩ := List.append_subset.1 within
    rw [eval]
    exact alters_bind (eval_alters lhs left) fun _ =>
      alters_bind (eval_alters rhs right) fun _ => alters_pure _
  | .binary .add lhs rhs, within | .binary .sub lhs rhs, within | .binary .mul lhs rhs, within
  | .binary .lt lhs rhs, within | .binary .le lhs rhs, within => by
    obtain ⟨left, right⟩ := List.append_subset.1 within
    simp only [eval]
    exact alters_operand (eval_alters lhs left) alters_expect_int fun a =>
      alters_operand (eval_alters rhs right) alters_expect_int fun b => alters_arithmetic _ a b
  | .not e, within => by
    rw [eval]
    exact alters_operand (eval_alters e within) alters_expect_bool fun _ => alters_pure _
  | .isNull e, within => by
    rw [eval]
    exact alters_bind (eval_alters e within) fun _ => alters_pure _
  | .array items, within => by
    rw [eval]
    exact alters_bind (eval_all_alters items within) fun _ => alters_pure _
  | .map items slot body, within => by
    obtain ⟨here, within⟩ := List.cons_subset.1 within
    obtain ⟨inItems, inBody⟩ := List.append_subset.1 within
    rw [eval]
    refine alters_operand (eval_alters items inItems) alters_expect_array fun items => ?_
    refine alters_bind (alters_map (fun item => ?_) items.toList) fun _ => alters_pure _
    exact alters_bind (alters_set_local here _) fun _ => eval_alters body inBody
  | .len items, within => by
    rw [eval]
    exact alters_operand (eval_alters items within) alters_expect_array fun _ => alters_pure _
  | .logicVar e i, within => by
    rw [eval]
    refine alters_operand (eval_alters e within) alters_expect_entity fun _ => ?_
    refine alters_bind (alters_node _) fun node => ?_
    cases node.vars[i]? with
    | some v => exact alters_pure _
    | none => exact alters_fail _
  | .domain var values origin, within => by
    obtain ⟨inVar, inValues⟩ := List.append_subset.1 within
    rw [eval]
    refine alters_operand (eval_alters var inVar) alters_expect_logic_var fun _ => ?_
    refine alters_operand (eval_alters values inValues) alters_expect_array fun _ => ?_
    exact alters_bind (alters_candidates_of _) fun _ => alters_equation _
  | .bind a b relation origin, within => by
    obtain ⟨left, right⟩ := List.append_subset.1 within
    rw [eval]
    refine alters_operand (eval_alters a left) alters_expect_logic_var fun _ => ?_
    refine alters_operand (eval_alters b right) alters_expect_logic_var fun _ => ?_
    exact alters_equation _
  | .predicate var prop origin, within => by
    rw [eval]
    refine alters_operand (eval_alters var within) alters_expect_logic_var fun _ => ?_
    exact alters_equation _
  | .all items, within | .any items, within => by
    rw [eval]
    exact alters_bind (eval_equations_alters items within) fun _ => alters_equation _
  | .solve e, within => by
    rw [eval]
    refine alters_bind (eval_alters e within) fun v => ?_
    cases v with
    | equation id =>
      refine alters_bind (alters_session _) fun e => ?_
      refine alters_bind (alters_read _) fun dynVars => ?_
      exact alters_bind (alters_session _) fun _ => alters_pure _
    | _ => exact alters_mismatch _ _
  | .logicValue var, within => by
    rw [eval]
    refine alters_operand (eval_alters var within) alters_expect_logic_var fun _ => ?_
    exact alters_bind (alters_session _) fun _ => alters_pure _

theorem eval_all_alters :
    (es : List Expr) → Expr.bindersOfAll es ⊆ slots → AltersOnly slots (evalAll S m es)
  | [], _ => by rw [evalAll]; exact alters_pure _
  | e :: rest, within => by
    obtain ⟨here, later⟩ := List.append_subset.1 within
    rw [evalAll]
    exact alters_bind (eval_alters e here) fun _ =>
      alters_bind (eval_all_alters rest later) fun _ => alters_pure _

theorem eval_equations_alters :
    (es : List Expr) → Expr.bindersOfAll es ⊆ slots → AltersOnly slots (evalEquations S m es)
  | [], _ => by rw [evalEquations]; exact alters_pure _
  | e :: rest, within => by
    obtain ⟨here, later⟩ := List.append_subset.1 within
    rw [evalEquations]
    exact alters_operand (eval_alters e here) alters_equations_of fun _ =>
      alters_bind (eval_equations_alters rest later) fun _ => alters_pure _

theorem eval_arms_alters (value : Value) : (arms : List (ArmPattern × Expr)) →
    Expr.bindersOfArms arms ⊆ slots → AltersOnly slots (evalArms S m value arms)
  | [], _ => by rw [evalArms]; exact alters_no_match S value
  | (p, body) :: rest, within => by
    obtain ⟨here, within⟩ := List.cons_subset.1 within
    obtain ⟨inBody, later⟩ := List.append_subset.1 within
    rw [evalArms]
    refine alters_bind (alters_accepts S p value) fun fits => ?_
    split
    · exact alters_bind (alters_set_local here _) fun _ => eval_alters body inBody
    · exact eval_arms_alters value rest later

end

end Eval
end FrameM

/-- **Evaluation leaves the context alone.** However the evaluation of an expression ends, its
frame has the receiver, the arguments and the bindings of dynamic variables that it had before.
A local slot that no binder inside the expression names reads as before: if the frame had the
slot it holds the same value, and if room was made beyond it, it holds null. Room is only made
up to a slot that a binder names. -/
theorem evaluation_keeps_frame (S : Setting) (m : Machine) (e : Expr) (f : Frame) (s : Session) :
    let g := (eval S m e f s).1.2
    g.entity = f.entity ∧ g.args = f.args ∧ g.dynVars = f.dynVars ∧
      (∀ slot, slot ∈ e.binders ∨ g.get slot = f.get slot ∧ (g.locals[slot]? = f.locals[slot]? ∨
        f.locals.size ≤ slot ∧ g.locals[slot]? = some .null)) ∧
      (g.locals.size = f.locals.size ∨
        ∃ slot ∈ e.binders, f.locals.size ≤ slot ∧ g.locals.size = slot + 1) := by
  have alike := FrameM.eval_alters S m e (List.Subset.refl _) f s
  refine ⟨alike.entity, alike.args, alike.dynVars, fun slot => ?_, alike.size⟩
  by_cases named : slot ∈ e.binders
  · exact .inl named
  · exact .inr ⟨alike.get slot named, alike.held named⟩

end Trellis
