import Trellis.Proofs.Language.Accepted
import Trellis.Proofs.Session.Interpretation

/-! Local slots and lexical scope. A frame has one place for each slot, and a
binder puts its value there for good; when its body ends, the value of an enclosing
binder of the same slot is not put back. So a local is what a lexical reading takes
it for as long as no other binder of its slot has come in between. Which binders
can come in between is seen from the expression alone. -/
namespace Trellis
open FrameM

/-- The lexical reading: a local refers to the innermost enclosing binder of its
slot. Outside of all of them it refers to what the frame was given. -/
def Handling.lexical (S : Setting) (m : Machine) : Handling :=
  { Handling.plain S m with
    loc := fun around slot => match around.lookup slot with
      | some value => pure value
      | none => eval S m (.loc slot) }

namespace Expr

/-- The slots that are spoilt inside a binder of `slot`, which itself is not. -/
def inside (slot : Nat) (spoilt : List Nat) : List Nat := spoilt.filter (· != slot)

mutual

/-- No local is read whose slot another binder may have assigned since the binder
that the local refers to. The slots in `spoilt` have been assigned in that way
before the expression is evaluated; what an operand assigns spoils the operands after
it, and the body of a map is evaluated again after its own binders. -/
def undisturbed (spoilt : List Nat) : Expr → Bool
  | loc slot => !spoilt.contains slot
  | letIn slot value body =>
    value.undisturbed spoilt && body.undisturbed (inside slot (value.binders ++ spoilt))
  | map items slot body =>
    items.undisturbed spoilt &&
      body.undisturbed (inside slot (body.binders ++ (items.binders ++ spoilt)))
  | matchKind value arms =>
    value.undisturbed spoilt && undisturbedArms (value.binders ++ spoilt) arms
  | lit _ | self | arg _ | dynVar _ | raise _ => true
  | child e _ | children e | parent e | text e | metadataFlag e _ | nodeEnv e | childrenEnv e
  | cast e _ _ | not e | isNull e | len e | logicVar e _ | predicate e _ _ | solve e
  | logicValue e => e.undisturbed spoilt
  | bindDynVar _ a b | envGet a b _ _ | binary _ a b | domain a b _ | bind a b _ _ =>
    a.undisturbed spoilt && b.undisturbed (a.binders ++ spoilt)
  | ite c t e =>
    c.undisturbed spoilt && (t.undisturbed (c.binders ++ spoilt) &&
      e.undisturbed (c.binders ++ spoilt))
  | call receiver _ args =>
    receiver.undisturbed spoilt && undisturbedAll (receiver.binders ++ spoilt) args
  | array items | all items | any items => undisturbedAll spoilt items

def undisturbedAll (spoilt : List Nat) : List Expr → Bool
  | [] => true
  | e :: rest => e.undisturbed spoilt && undisturbedAll (e.binders ++ spoilt) rest

def undisturbedArms (spoilt : List Nat) : List (ArmPattern × Expr) → Bool
  | [] => true
  | (p, e) :: rest => e.undisturbed (inside p.slot spoilt) && undisturbedArms spoilt rest

end

end Expr

/-- The slots that are not spoilt still hold what the innermost enclosing binder put
there. -/
def Frame.Current (around : List (Nat × Value)) (spoilt : List Nat) (f : Frame) : Prop :=
  ∀ slot value, around.lookup slot = some value → slot ∉ spoilt → f.get slot = value

namespace Frame

variable {around : List (Nat × Value)} {spoilt slots : List Nat} {f g : Frame}

theorem current_of_subset (less : spoilt ⊆ slots) (current : f.Current around spoilt) :
    f.Current around slots :=
  fun slot value bound free => current slot value bound fun mem => free (less mem)

/-- What an action alters is spoilt afterwards. -/
theorem current_altered (altered : f.AlikeBut slots g) (current : f.Current around spoilt) :
    g.Current around (slots ++ spoilt) := by
  intro slot value bound free
  rw [List.mem_append, not_or] at free
  rw [altered.get slot free.1]
  exact current slot value bound free.2

/-- A binder has just been entered. -/
theorem current_set (current : f.Current around spoilt) (slot : Nat) (value : Value) :
    (f.set slot value).Current ((slot, value) :: around) (Expr.inside slot spoilt) := by
  intro other held bound free
  rw [List.lookup_cons] at bound
  rw [get_set]
  by_cases same : other = slot
  · subst same
    simpa using bound
  · rw [if_neg same]
    rw [beq_eq_false_iff_ne.2 same] at bound
    exact current other held bound fun mem => free (List.mem_filter.2 ⟨mem, by simpa using same⟩)

end Frame

section Lexical
variable {S : Setting} {m : Machine}

/-- Binding a slot and going on inside. -/
theorem same_entered {around : List (Nat × Value)} {spoilt : List Nat} {act act' : FrameM α}
    (slot : Nat) (value : Value)
    (inside : SameIn (Frame.Current ((slot, value) :: around) (Expr.inside slot spoilt)) act act') :
    SameIn (Frame.Current around spoilt) (setLocal slot value >>= fun _ => act)
      (setLocal slot value >>= fun _ => act') := fun f s current => by
  rw [run_bind, run_bind]
  exact inside _ s (Frame.current_set current slot value)

/-- After an operand the slots are spoilt that its binders assign. -/
theorem same_after {around : List (Nat × Value)} {spoilt : List Nat} {e : Expr}
    {act : FrameM Value} {next next' : Value → FrameM α}
    (operand : SameIn (Frame.Current around spoilt) act (eval S m e))
    (rest : ∀ v, SameIn (Frame.Current around (e.binders ++ spoilt)) (next v) (next' v)) :
    SameIn (Frame.Current around spoilt) (act >>= next) (eval S m e >>= next') :=
  same_bind operand (eval_alters S m e (List.Subset.refl _)) (fun _ _ => Frame.current_altered) rest

/-- An operand has to be of the kind that is expected. -/
theorem same_expected {around : List (Nat × Value)} {spoilt : List Nat} {e : Expr}
    {act : FrameM Value} {expect : Value → FrameM α} {next next' : α → FrameM β}
    (operand : SameIn (Frame.Current around spoilt) act (eval S m e))
    (expects : ∀ v, AltersOnly [] (expect v))
    (rest : ∀ x, SameIn (Frame.Current around (e.binders ++ spoilt)) (next x) (next' x)) :
    SameIn (Frame.Current around spoilt) (act >>= fun v => expect v >>= next)
      (eval S m e >>= fun v => expect v >>= next') :=
  same_after operand fun v =>
    same_bind (same_refl _) (expects v) (fun _ _ => Frame.current_altered) rest

/-- The items of a map are bound to its slot one after the other. -/
theorem same_items {around : List (Nat × Value)} {spoilt : List Nat} {act : Value → FrameM Value}
    {body : Expr} (slot : Nat)
    (inside : ∀ item, SameIn (Frame.Current ((slot, item) :: around)
      (Expr.inside slot (body.binders ++ spoilt))) (act item) (eval S m body))
    (items : List Value) :
    SameIn (Frame.Current around spoilt)
      (items.mapM fun item => setLocal slot item >>= fun _ => act item)
      (items.mapM fun item => setLocal slot item >>= fun _ => eval S m body) := by
  -- between two items the slot itself and what the body assigns are spoilt
  have spoils : spoilt ⊆ slot :: (body.binders ++ spoilt) :=
    List.subset_cons_of_subset _ (List.subset_append_right _ _)
  have again : Expr.inside slot (slot :: (body.binders ++ spoilt)) =
      Expr.inside slot (body.binders ++ spoilt) := by simp [Expr.inside]
  have steady (f g : Frame) (altered : f.AlikeBut (slot :: body.binders) g)
      (current : f.Current around (slot :: (body.binders ++ spoilt))) :
      g.Current around (slot :: (body.binders ++ spoilt)) :=
    Frame.current_of_subset (by simp) (Frame.current_altered altered current)
  have each (item : Value) : SameIn (Frame.Current around (slot :: (body.binders ++ spoilt)))
      (setLocal slot item >>= fun _ => act item)
      (setLocal slot item >>= fun _ => eval S m body) :=
    same_entered slot item (again ▸ inside item)
  have alters (item : Value) : AltersOnly (slot :: body.binders)
      (setLocal slot item >>= fun _ => eval S m body) :=
    alters_bind (alters_set_local List.mem_cons_self item) fun _ =>
      eval_alters S m body (List.subset_cons_self _ _)
  intro f s current
  exact same_map steady each alters items f s (Frame.current_of_subset spoils current)

theorem same_with_dyn_var {around : List (Nat × Value)} {spoilt : List Nat} {act act' : FrameM α}
    (inside : SameIn (Frame.Current around spoilt) act act') (var : DynVarId) (value : Value) :
    SameIn (Frame.Current around spoilt)
      (withDynVar var value act) (withDynVar var value act') := by
  intro f s current
  have same := inside { f with dynVars := f.dynVars.set var value } s current
  unfold withDynVar
  rw [same]

mutual

/-- Where nothing comes in between, evaluation reads locals lexically. -/
theorem interpret_lexical (around : List (Nat × Value)) (spoilt : List Nat) :
    (e : Expr) → e.undisturbed spoilt = true →
      SameIn (Frame.Current around spoilt) (interpret (.lexical S m) S m around e) (eval S m e)
  | .lit _, _ | .self, _ | .raise _, _ | .arg _, _ | .dynVar _, _ => same_refl _
  | .loc slot, free => by
    intro f s current
    rw [interpret, Handling.lexical]
    cases bound : around.lookup slot with
    | none => simp only [bound]
    | some value =>
      have held := current slot value bound (by simpa [Expr.undisturbed] using free)
      simp only [bound, eval, FrameM.read, held, run_pure]
  | .letIn slot value body, clear => by
    obtain ⟨inValue, inBody⟩ := Bool.and_eq_true_iff.1 clear
    rw [interpret, eval]
    exact same_after (interpret_lexical around spoilt value inValue) fun v =>
      same_entered slot v (interpret_lexical _ _ body inBody)
  | .map items slot body, clear => by
    obtain ⟨inItems, inBody⟩ := Bool.and_eq_true_iff.1 clear
    rw [interpret, eval]
    refine same_expected (interpret_lexical around spoilt items inItems) alters_expect_array
      fun values => ?_
    exact same_bind_left
      (same_items slot (fun item => interpret_lexical _ _ body inBody) values.toList) _
  | .matchKind value arms, clear => by
    obtain ⟨inValue, inArms⟩ := Bool.and_eq_true_iff.1 clear
    rw [interpret, eval]
    exact same_after (interpret_lexical around spoilt value inValue) fun v =>
      interpret_arms_lexical around _ v arms inArms
  | .bindDynVar var value body, clear => by
    obtain ⟨inValue, inBody⟩ := Bool.and_eq_true_iff.1 clear
    rw [interpret, eval]
    exact same_after (interpret_lexical around spoilt value inValue) fun v =>
      same_with_dyn_var (interpret_lexical around _ body inBody) var v
  | .call receiver prop args, clear => by
    obtain ⟨inReceiver, inArgs⟩ := Bool.and_eq_true_iff.1 clear
    rw [interpret, eval]
    refine same_expected (interpret_lexical around spoilt receiver inReceiver)
      alters_expect_entity fun entity => ?_
    exact same_bind_left (interpret_all_lexical around _ args inArgs) _
  | .bind a b relation origin, clear => by
    obtain ⟨left, right⟩ := Bool.and_eq_true_iff.1 clear
    rw [interpret, eval]
    refine same_expected (interpret_lexical around spoilt a left) alters_expect_logic_var
      fun v => ?_
    refine same_expected (interpret_lexical around _ b right) alters_expect_logic_var fun w => ?_
    cases relation <;> exact same_refl _
  | .predicate var prop origin, clear => by
    rw [interpret, eval]
    exact same_expected (interpret_lexical around spoilt var clear) alters_expect_logic_var
      fun v => same_refl _
  | .solve e, clear => by
    rw [interpret, eval]
    refine same_after (interpret_lexical around spoilt e clear) fun v => ?_
    cases v with
    | equation id =>
      intro f s current
      simp [Handling.lexical, Handling.plain]
    | _ => exact same_refl _
  | .domain var values origin, clear => by
    obtain ⟨inVar, inValues⟩ := Bool.and_eq_true_iff.1 clear
    rw [interpret, eval]
    refine same_expected (interpret_lexical around spoilt var inVar) alters_expect_logic_var
      fun v => ?_
    exact same_expected (interpret_lexical around _ values inValues) alters_expect_array
      fun items => same_refl _
  | .all items, clear | .any items, clear => by
    rw [interpret, eval]
    exact same_bind_left (interpret_equations_lexical around spoilt items clear) _
  | .array items, clear => by
    rw [interpret, eval]
    exact same_bind_left (interpret_all_lexical around spoilt items clear) _
  | .ite c t e, clear => by
    obtain ⟨inCond, clear⟩ := Bool.and_eq_true_iff.1 clear
    obtain ⟨inThen, inElse⟩ := Bool.and_eq_true_iff.1 clear
    rw [interpret, eval]
    refine same_expected (interpret_lexical around spoilt c inCond) alters_expect_bool
      fun holds => ?_
    cases holds with
    | true => exact interpret_lexical around _ t inThen
    | false => exact interpret_lexical around _ e inElse
  | .binary .and lhs rhs, clear | .binary .or lhs rhs, clear => by
    obtain ⟨left, right⟩ := Bool.and_eq_true_iff.1 clear
    rw [interpret, eval]
    refine same_expected (interpret_lexical around spoilt lhs left) alters_expect_bool
      fun holds => ?_
    -- One of the two outcomes skips the right operand, the other one evaluates it.
    cases holds <;> first
      | exact same_refl _
      | exact same_expected (interpret_lexical around _ rhs right) alters_expect_bool
          fun b => same_refl _
  | .binary .eq lhs rhs, clear | .binary .ne lhs rhs, clear => by
    obtain ⟨left, right⟩ := Bool.and_eq_true_iff.1 clear
    rw [interpret, eval]
    refine same_after (interpret_lexical around spoilt lhs left) fun a => ?_
    refine same_after (interpret_lexical around _ rhs right) fun b => ?_
    simp only [eval, pure_bind]
    exact same_refl _
  | .binary .add lhs rhs, clear | .binary .sub lhs rhs, clear | .binary .mul lhs rhs, clear
  | .binary .lt lhs rhs, clear | .binary .le lhs rhs, clear => by
    obtain ⟨left, right⟩ := Bool.and_eq_true_iff.1 clear
    simp only [interpret, eval]
    refine same_expected (interpret_lexical around spoilt lhs left) alters_expect_int fun a => ?_
    exact same_expected (interpret_lexical around _ rhs right) alters_expect_int
      fun b => same_refl _
  | .envGet env symbol first require, clear => by
    obtain ⟨inEnv, inSymbol⟩ := Bool.and_eq_true_iff.1 clear
    rw [interpret, eval]
    refine same_expected (interpret_lexical around spoilt env inEnv) alters_expect_env
      fun view => ?_
    refine same_expected (interpret_lexical around _ symbol inSymbol) alters_expect_symbol
      fun name => ?_
    simp only [eval, pure_bind]
    exact same_refl _
  | .child e _, clear | .children e, clear | .parent e, clear | .text e, clear
  | .metadataFlag e _, clear | .nodeEnv e, clear | .childrenEnv e, clear | .cast e _ _, clear
  | .not e, clear | .isNull e, clear | .len e, clear | .logicVar e _, clear
  | .logicValue e, clear => by
    rw [interpret_operand rfl, eval_operand rfl]
    exact same_after (interpret_lexical around spoilt e clear) fun v => same_refl _

theorem interpret_all_lexical (around : List (Nat × Value)) (spoilt : List Nat) :
    (es : List Expr) → Expr.undisturbedAll spoilt es = true →
      SameIn (Frame.Current around spoilt) (interpretAll (.lexical S m) S m around es)
        (evalAll S m es)
  | [], _ => same_refl _
  | e :: rest, clear => by
    obtain ⟨here, later⟩ := Bool.and_eq_true_iff.1 clear
    rw [interpretAll, evalAll]
    exact same_after (interpret_lexical around spoilt e here) fun v =>
      same_bind_left (interpret_all_lexical around _ rest later) _

theorem interpret_equations_lexical (around : List (Nat × Value)) (spoilt : List Nat) :
    (es : List Expr) → Expr.undisturbedAll spoilt es = true →
      SameIn (Frame.Current around spoilt) (interpretEquations (.lexical S m) S m around es)
        (evalEquations S m es)
  | [], _ => same_refl _
  | e :: rest, clear => by
    obtain ⟨here, later⟩ := Bool.and_eq_true_iff.1 clear
    rw [interpretEquations, evalEquations]
    exact same_expected (interpret_lexical around spoilt e here) alters_equations_of
      fun first => same_bind_left (interpret_equations_lexical around _ rest later) _

theorem interpret_arms_lexical (around : List (Nat × Value)) (spoilt : List Nat) (value : Value) :
    (arms : List (ArmPattern × Expr)) → Expr.undisturbedArms spoilt arms = true →
      SameIn (Frame.Current around spoilt) (interpretArms (.lexical S m) S m around value arms)
        (evalArms S m value arms)
  | [], _ => same_refl _
  | (p, body) :: rest, clear => by
    obtain ⟨here, later⟩ := Bool.and_eq_true_iff.1 clear
    rw [interpretArms, evalArms]
    refine same_bind (same_refl _) (alters_accepts S p value : AltersOnly [] _)
      (fun _ _ => Frame.current_altered) fun accepted => ?_
    cases accepted with
    | true => exact same_entered p.slot _ (interpret_lexical _ _ body here)
    | false => exact interpret_arms_lexical around spoilt value rest later

end

end Lexical

/-- Evaluation reads the locals of an expression lexically in every frame, unless an
inner binder comes between a local and the binder it refers to. -/
theorem eval_lexical (S : Setting) (m : Machine) (e : Expr) (clear : e.undisturbed [] = true) :
    eval S m e = interpret (.lexical S m) S m [] e := by
  funext f s
  refine (interpret_lexical [] [] e clear f s ?_).symm
  intro slot value bound
  simp at bound

/-- A binder of the same slot does no harm where nothing is read after it. -/
theorem eval_lexical_of_inner_last :
    let S : Setting := ⟨{ Definition.empty with table := #[], warnings := [] }, .standard⟩
    let e : Expr :=
      .letIn 0 (.lit (.int 1)) (.array [.loc 0, .letIn 0 (.lit (.int 2)) (.loc 0)])
    e.undisturbed [] = true ∧
      eval S .exhausted e = interpret (.lexical S .exhausted) S .exhausted [] e := by
  intro S e
  exact ⟨by decide, eval_lexical S .exhausted e (by decide)⟩

/-- The language of one kind with one property, whose body reads a local after an
inner binder of its slot. -/
def Builder.hiding (e : Expr) : Builder :=
  .declare [
    .kind ⟨"Leaf", none, [], [], false, false, true, .caller⟩,
    .property ⟨⟨0⟩, "pair", [], .array .int, [], false, true, .expr e, .caller⟩]

/-- The value of the inner binder stays visible after its body, although the checks
accept the expression. -/
theorem inner_binding_outlives_its_body :
    let e : Expr :=
      .letIn 0 (.lit (.int 1)) (.array [.letIn 0 (.lit (.int 2)) (.loc 0), .loc 0])
    ∃ l, (Builder.hiding e).build = .ok l ∧
      ∀ (config : EvalConfig) (m : Machine) (f : Frame) (s : Session),
        (eval ⟨l, config⟩ m e f s).1.1 = .ok (.array #[.int 2, .int 2]) ∧
        (interpret (.lexical ⟨l, config⟩ m) ⟨l, config⟩ m [] e f s).1.1 =
          .ok (.array #[.int 2, .int 1]) := by
  intro e
  obtain ⟨l, built⟩ :=
    Builder.exists_language (show (Builder.hiding e).build.isOk = true by decide +kernel)
  refine ⟨l, built, fun config m f s => ⟨?_, rfl⟩⟩
  let g := (f.set 0 (.int 1)).set 0 (.int 2)
  show Except.ok (Value.array #[g.get 0, g.get 0]) = _
  simp [g, Frame.get_set]

end Trellis
