import Trellis.Proofs.Language.Accepted
import Trellis.Proofs.Session.Interpretation

/-! What the checks of a build are worth to whoever evaluates. A walk over an
expression knows which locals are bound around a place, which arguments there are
and which dynamic variables are available; where it finds nothing wrong, a reading
that gives up on anything else still does the same as evaluation. -/
namespace Trellis
open FrameM

/-- A property that can be called: it is known, it takes so many arguments, and each
dynamic variable that it declares is bound. -/
def Definition.ready (d : Definition) (p : PropId) (args : Nat) (dynVars : DynVars) : Bool :=
  (d.property? p).any fun info =>
    info.params.length == args && info.dynVars.all fun v => (dynVars.get? v).isSome

theorem Definition.ready_of_callable {d : Definition} {dynVars : DynVars}
    (callable : d.Callable p args available)
    (bound : ∀ v ∈ available, (dynVars.get? v).isSome = true) :
    d.ready p args dynVars = true := by
  obtain ⟨info, known, arity, among⟩ := callable
  unfold ready
  rw [known, Option.any_some, Bool.and_eq_true, List.all_eq_true]
  exact ⟨beq_iff_eq.2 arity, fun v mem => bound v (among v mem)⟩

/-- A reading that does as evaluation does wherever nothing is wrong. -/
structure Handling.Trusts (h : Handling) (S : Setting) (m : Machine) : Prop where
  arg : ∀ i, SameIn (fun f => i < f.args.length) (h.arg i) (eval S m (.arg i))
  loc : ∀ around slot, slot ∈ around.map (·.1) → h.loc around slot = eval S m (.loc slot)
  dynVar : ∀ v, SameIn (fun f => (f.dynVars.get? v).isSome = true) (h.dynVar v)
    (eval S m (.dynVar v))
  call : ∀ receiver p args,
    SameIn (fun f => S.language.ready p args.length f.dynVars = true) (h.call receiver p args)
      ((Handling.plain S m).call receiver p args)
  constrain : ∀ p args enter,
    SameIn (fun f => S.language.ready p args f.dynVars = true) (h.constrain p args enter) enter
  solve : ∀ e, h.solve e = (Handling.plain S m).solve e

/-- A frame in which a walk with these dynamic variables bound around it is right: it
holds the arguments, and every variable that the walk takes to be available. -/
structure CheckContext.Fits (c : CheckContext) (around : List DynVarId) (f : Frame) : Prop where
  args : c.params ≤ f.args.length
  dynVars : ∀ v ∈ c.declared ++ around, (f.dynVars.get? v).isSome = true

namespace CheckContext
variable {c : CheckContext} {vars : List DynVarId}

theorem fits_steady (f g : Frame) (altered : f.AlikeBut slots g) (fits : c.Fits vars f) :
    c.Fits vars g where
  args := altered.args ▸ fits.args
  dynVars := altered.dynVars ▸ fits.dynVars

theorem fits_bound {f : Frame} (fits : c.Fits vars f) (var : DynVarId) (value : Value) :
    c.Fits (var :: vars) { f with dynVars := f.dynVars.set var value } where
  args := fits.args
  dynVars v mem := by
    dsimp only
    rw [DynVars.get?_set]
    by_cases same : v = var
    · rw [if_pos same]
      rfl
    · rw [if_neg same]
      refine fits.dynVars v ?_
      simpa [same] using mem

end CheckContext

/-- As many values as there were expressions. -/
theorem FrameM.eval_all_length (S : Setting) (m : Machine) (es : List Expr) (f : Frame)
    (s : Session) (vs : List Value) (ran : (evalAll S m es f s).1.1 = .ok vs) :
    vs.length = es.length := by
  induction es generalizing f s vs with
  | nil =>
    cases ran
    rfl
  | cons e rest ih =>
    rw [evalAll, run_bind] at ran
    rcases first : eval S m e f s with ⟨⟨halt | v, g⟩, t⟩ <;> simp only [first] at ran
    · cases ran
    · rw [run_bind] at ran
      rcases others : evalAll S m rest g t with ⟨⟨halt | us, g'⟩, t'⟩ <;> simp only [others] at ran
      · cases ran
      · cases ran
        rw [List.length_cons, List.length_cons, ih g t us (by rw [others])]

section Trusted
variable {h : Handling} {S : Setting} {m : Machine} {c : CheckContext}

theorem trusted_after {e : Expr} {act : FrameM Value} {next next' : Value → FrameM α}
    (operand : SameIn (c.Fits vars) act (eval S m e))
    (rest : ∀ v, SameIn (c.Fits vars) (next v) (next' v)) :
    SameIn (c.Fits vars) (act >>= next) (eval S m e >>= next') :=
  same_bind_steady CheckContext.fits_steady operand (eval_alters S m e (List.Subset.refl _)) rest

theorem trusted_expected {e : Expr} {act : FrameM Value} {expect : Value → FrameM α}
    {next next' : α → FrameM β} (operand : SameIn (c.Fits vars) act (eval S m e))
    (expects : ∀ v, AltersOnly [] (expect v))
    (rest : ∀ x, SameIn (c.Fits vars) (next x) (next' x)) :
    SameIn (c.Fits vars) (act >>= fun v => expect v >>= next)
      (eval S m e >>= fun v => expect v >>= next') :=
  trusted_after operand fun v =>
    same_bind_steady CheckContext.fits_steady (same_refl _) (expects v) rest

/-- What comes after a binder may rely on it. -/
theorem trusted_entered {act act' : FrameM α} (slot : Nat) (value : Value)
    (inside : SameIn (c.Fits vars) act act') :
    SameIn (c.Fits vars) (setLocal slot value >>= fun _ => act)
      (setLocal slot value >>= fun _ => act') :=
  same_bind_steady CheckContext.fits_steady (same_refl _)
    (alters_set_local (List.mem_singleton_self slot) value) fun _ => inside

theorem trusted_with_dyn_var {act act' : FrameM α} (var : DynVarId) (value : Value)
    (inside : SameIn (c.Fits (var :: vars)) act act') :
    SameIn (c.Fits vars) (withDynVar var value act) (withDynVar var value act') := by
  intro f s fits
  have same := inside _ s (CheckContext.fits_bound fits var value)
  unfold withDynVar
  rw [same]

theorem trusted_ready {args : Nat} (same : c.definition = S.language.toDefinition)
    (callable : c.definition.Callable p args (c.available b)) (f : Frame)
    (fits : c.Fits b.dynVars f) : S.language.ready p args f.dynVars = true :=
  Definition.ready_of_callable (same ▸ callable) fits.dynVars

variable (trusts : h.Trusts S m) (same : c.definition = S.language.toDefinition)
include trusts same

set_option linter.unusedSectionVars false in
mutual

/-- Where the checks find nothing wrong, nothing goes wrong. -/
theorem interpret_trusted (b : Bound) (around : List (Nat × Value))
    (bound : around.map (·.1) = b.locals) :
    (e : Expr) → (c.check b e).Clean →
      SameIn (c.Fits b.dynVars) (interpret h S m around e) (eval S m e)
  | .lit _, _ | .self, _ | .raise _, _ => same_refl _
  | .arg i, clean => by
    have inRange : i < c.params := by simpa [CheckContext.check] using clean
    rw [interpret]
    exact fun f s fits => trusts.arg i f s (Nat.lt_of_lt_of_le inRange fits.args)
  | .loc slot, clean => by
    have listed : slot ∈ around.map (·.1) := by simpa [CheckContext.check, bound] using clean
    rw [interpret, trusts.loc around slot listed]
    exact same_refl _
  | .dynVar v, clean => by
    have available : v ∈ c.declared ++ b.dynVars := by
      simpa [CheckContext.check, CheckContext.available] using clean
    rw [interpret]
    exact fun f s fits => trusts.dynVar v f s (fits.dynVars v available)
  | .letIn slot value body, clean => by
    obtain ⟨ofValue, ofBody⟩ := (Report.clean_append _ _).1 clean
    rw [interpret, eval]
    refine trusted_after (interpret_trusted b around bound value ofValue) fun v => ?_
    exact trusted_entered slot v
      (interpret_trusted { b with locals := slot :: b.locals } ((slot, v) :: around)
        (by simp [bound]) body ofBody)
  | .map items slot body, clean => by
    obtain ⟨ofItems, ofBody⟩ := (Report.clean_append _ _).1 clean
    rw [interpret, eval]
    refine trusted_expected (interpret_trusted b around bound items ofItems) alters_expect_array
      fun values => ?_
    refine same_bind_left (same_map CheckContext.fits_steady (fun item => ?_) (fun item =>
      alters_bind (alters_set_local List.mem_cons_self item) fun _ =>
        eval_alters S m body (List.subset_cons_self slot _)) values.toList) _
    exact trusted_entered slot item
      (interpret_trusted { b with locals := slot :: b.locals } ((slot, item) :: around)
        (by simp [bound]) body ofBody)
  | .matchKind value arms, clean => by
    obtain ⟨ofValue, ofArms⟩ := (Report.clean_append _ _).1 clean
    rw [interpret, eval]
    exact trusted_after (interpret_trusted b around bound value ofValue) fun v =>
      interpret_arms_trusted b around bound v arms ofArms
  | .bindDynVar var value body, clean => by
    obtain ⟨before, ofBody⟩ := (Report.clean_append _ _).1 clean
    obtain ⟨ofValue, -⟩ := (Report.clean_append _ _).1 before
    rw [interpret, eval]
    refine trusted_after (interpret_trusted b around bound value ofValue) fun v => ?_
    exact trusted_with_dyn_var var v
      (interpret_trusted { b with dynVars := var :: b.dynVars } around bound body ofBody)
  | .call receiver p args, clean => by
    obtain ⟨operands, ofCall⟩ := (Report.clean_append _ _).1 clean
    obtain ⟨ofReceiver, ofArgs⟩ := (Report.clean_append _ _).1 operands
    have callable := (CheckContext.clean_check_call c b p args.length).1 ofCall
    rw [interpret, eval]
    refine trusted_expected (interpret_trusted b around bound receiver ofReceiver)
      alters_expect_entity fun entity => ?_
    refine same_bind_given (interpret_all_trusted b around bound args ofArgs)
      (eval_all_alters S m args (List.Subset.refl _)) (eval_all_length S m args)
      CheckContext.fits_steady fun values many => ?_
    intro f s fits
    refine trusts.call entity p values f s ?_
    rw [many]
    exact trusted_ready same callable f fits
  | .bind x y none origin, clean => by
    obtain ⟨left, right⟩ := (Report.clean_append _ _).1 clean
    rw [interpret, eval]
    refine trusted_expected (interpret_trusted b around bound x left) alters_expect_logic_var
      fun v => ?_
    exact trusted_expected (interpret_trusted b around bound y right) alters_expect_logic_var
      fun w => same_refl _
  | .bind x y (some p) origin, clean => by
    obtain ⟨clean, -⟩ := (Report.clean_append _ _).1 clean
    obtain ⟨operands, relates⟩ := (Report.clean_append _ _).1 clean
    obtain ⟨left, right⟩ := (Report.clean_append _ _).1 operands
    rw [interpret, eval]
    refine trusted_expected (interpret_trusted b around bound x left) alters_expect_logic_var
      fun v => ?_
    refine trusted_expected (interpret_trusted b around bound y right) alters_expect_logic_var
      fun w => ?_
    exact fun f s fits => trusts.constrain p 1 _ f s
      (trusted_ready same (CheckContext.clean_relation c b relates) f fits)
  | .predicate var p origin, clean => by
    obtain ⟨clean, -⟩ := (Report.clean_append _ _).1 clean
    obtain ⟨ofVar, filters⟩ := (Report.clean_append _ _).1 clean
    rw [interpret, eval]
    refine trusted_expected (interpret_trusted b around bound var ofVar) alters_expect_logic_var
      fun v => ?_
    exact fun f s fits => trusts.constrain p 0 _ f s
      (trusted_ready same (CheckContext.clean_predicate c b filters) f fits)
  | .solve e, clean => by
    rw [interpret, eval]
    refine trusted_after (interpret_trusted b around bound e clean) fun v => ?_
    cases v with
    | equation id =>
      intro f s fits
      simp [trusts.solve, Handling.plain]
    | _ => exact same_refl _
  | .domain var values origin, clean => by
    obtain ⟨ofVar, ofValues⟩ := (Report.clean_append _ _).1 clean
    rw [interpret, eval]
    refine trusted_expected (interpret_trusted b around bound var ofVar) alters_expect_logic_var
      fun v => ?_
    exact trusted_expected (interpret_trusted b around bound values ofValues) alters_expect_array
      fun items => same_refl _
  | .all items, clean | .any items, clean => by
    rw [interpret, eval]
    exact same_bind_left (interpret_equations_trusted b around bound items clean) _
  | .array items, clean => by
    rw [interpret, eval]
    exact same_bind_left (interpret_all_trusted b around bound items clean) _
  | .ite x y z, clean => by
    obtain ⟨clean, ofElse⟩ := (Report.clean_append _ _).1 clean
    obtain ⟨ofCond, ofThen⟩ := (Report.clean_append _ _).1 clean
    rw [interpret, eval]
    refine trusted_expected (interpret_trusted b around bound x ofCond) alters_expect_bool
      fun holds => ?_
    cases holds with
    | true => exact interpret_trusted b around bound y ofThen
    | false => exact interpret_trusted b around bound z ofElse
  | .binary .and lhs rhs, clean | .binary .or lhs rhs, clean => by
    obtain ⟨left, right⟩ := (Report.clean_append _ _).1 clean
    rw [interpret, eval]
    refine trusted_expected (interpret_trusted b around bound lhs left) alters_expect_bool
      fun holds => ?_
    cases holds <;> first
      | exact same_refl _
      | exact trusted_expected (interpret_trusted b around bound rhs right) alters_expect_bool
          fun b => same_refl _
  | .binary .eq lhs rhs, clean | .binary .ne lhs rhs, clean => by
    obtain ⟨left, right⟩ := (Report.clean_append _ _).1 clean
    rw [interpret, eval]
    refine trusted_after (interpret_trusted b around bound lhs left) fun x => ?_
    refine trusted_after (interpret_trusted b around bound rhs right) fun y => ?_
    simp only [eval, pure_bind]
    exact same_refl _
  | .binary .add lhs rhs, clean | .binary .sub lhs rhs, clean | .binary .mul lhs rhs, clean
  | .binary .lt lhs rhs, clean | .binary .le lhs rhs, clean => by
    obtain ⟨left, right⟩ := (Report.clean_append _ _).1 clean
    simp only [interpret, eval]
    refine trusted_expected (interpret_trusted b around bound lhs left) alters_expect_int
      fun x => ?_
    exact trusted_expected (interpret_trusted b around bound rhs right) alters_expect_int
      fun y => same_refl _
  | .envGet env symbol first require, clean => by
    obtain ⟨clean, -⟩ := (Report.clean_append _ _).1 clean
    obtain ⟨ofEnv, ofSymbol⟩ := (Report.clean_append _ _).1 clean
    rw [interpret, eval]
    refine trusted_expected (interpret_trusted b around bound env ofEnv) alters_expect_env
      fun view => ?_
    refine trusted_expected (interpret_trusted b around bound symbol ofSymbol)
      alters_expect_symbol fun name => ?_
    simp only [eval, pure_bind]
    exact same_refl _
  | .child e _, clean | .metadataFlag e _, clean | .cast e _ _, clean | .logicVar e _, clean => by
    obtain ⟨ofOperand, -⟩ := (Report.clean_append _ _).1 clean
    rw [interpret_operand rfl, eval_operand rfl]
    exact trusted_after (interpret_trusted b around bound e ofOperand) fun v => same_refl _
  | .children e, clean | .parent e, clean | .text e, clean | .nodeEnv e, clean
  | .childrenEnv e, clean | .not e, clean | .isNull e, clean | .len e, clean
  | .logicValue e, clean => by
    rw [interpret_operand rfl, eval_operand rfl]
    exact trusted_after (interpret_trusted b around bound e clean) fun v => same_refl _

theorem interpret_all_trusted (b : Bound) (around : List (Nat × Value))
    (bound : around.map (·.1) = b.locals) :
    (es : List Expr) → (c.checkAll b es).Clean →
      SameIn (c.Fits b.dynVars) (interpretAll h S m around es) (evalAll S m es)
  | [], _ => same_refl _
  | e :: rest, clean => by
    obtain ⟨here, later⟩ := (Report.clean_append _ _).1 clean
    rw [interpretAll, evalAll]
    exact trusted_after (interpret_trusted b around bound e here) fun v =>
      same_bind_left (interpret_all_trusted b around bound rest later) _

theorem interpret_equations_trusted (b : Bound) (around : List (Nat × Value))
    (bound : around.map (·.1) = b.locals) :
    (es : List Expr) → (c.checkAll b es).Clean →
      SameIn (c.Fits b.dynVars) (interpretEquations h S m around es) (evalEquations S m es)
  | [], _ => same_refl _
  | e :: rest, clean => by
    obtain ⟨here, later⟩ := (Report.clean_append _ _).1 clean
    rw [interpretEquations, evalEquations]
    exact trusted_expected (interpret_trusted b around bound e here) alters_equations_of
      fun first => same_bind_left (interpret_equations_trusted b around bound rest later) _

theorem interpret_arms_trusted (b : Bound) (around : List (Nat × Value))
    (bound : around.map (·.1) = b.locals) (value : Value) :
    (arms : List (ArmPattern × Expr)) → (c.checkArms b arms).Clean →
      SameIn (c.Fits b.dynVars) (interpretArms h S m around value arms) (evalArms S m value arms)
  | [], _ => same_refl _
  | (p, body) :: rest, clean => by
    obtain ⟨clean, later⟩ := (Report.clean_append _ _).1 clean
    obtain ⟨-, here⟩ := (Report.clean_append _ _).1 clean
    rw [interpretArms, evalArms]
    refine same_bind_steady CheckContext.fits_steady (same_refl _)
      (alters_accepts S p value : AltersOnly [] _) fun accepted => ?_
    cases accepted with
    | true =>
      exact trusted_entered p.slot _
        (interpret_trusted { b with locals := p.slot :: b.locals }
          ((p.slot, matched p value) :: around) (by simp [bound]) body here)
    | false => exact interpret_arms_trusted b around bound value rest later

end

end Trusted

end Trellis
