import Mathlib
import Trellis.Proofs.Session.Readings
import Trellis.Proofs.Session.Reachable
import Trellis.Proofs.Solver.Asked

/-! Dynamic variables from the building of an equation to its solution. The checks
of a build look at a constraint where it is built, and there its property can be
called. The property is called where the equation is solved, with the dynamic
variables that are bound there, and these can be fewer. -/
namespace Trellis
open FrameM

/-- Every question that solving an equation can lead to is a call that can be made
where these dynamic variables are bound. -/
def Definition.readyFor (d : Definition) (dynVars : DynVars) (e : Equation Entity) : Bool :=
  e.atoms.all fun
    | .bind _ _ (some p) _ => d.ready p.prop 1 dynVars
    | .predicate _ p _ => d.ready p.prop 0 dynVars
    | _ => true

/-- What can be asked where an equation is built can be asked wherever at least as much
is bound. -/
theorem Definition.ready_for_of_wider {d : Definition} {dynVars wider : DynVars}
    {e : Equation Entity}
    (more : ∀ v, (dynVars.get? v).isSome = true → (wider.get? v).isSome = true)
    (ready : d.readyFor dynVars e = true) : d.readyFor wider e = true := by
  have each (p : PropId) (args : Nat) (fine : d.ready p args dynVars = true) :
      d.ready p args wider = true := by
    obtain ⟨info, known, callable⟩ := (Option.any_eq_true _ _).1 fine
    rw [Bool.and_eq_true, List.all_eq_true] at callable
    refine (Option.any_eq_true _ _).2 ⟨info, known, ?_⟩
    rw [Bool.and_eq_true, List.all_eq_true]
    exact ⟨callable.1, fun v mem => more v (callable.2 v mem)⟩
  refine List.all_eq_true.2 fun a mem => ?_
  have fine := List.all_eq_true.1 ready a mem
  cases a with
  | domain v values origin => rfl
  | predicate v p origin => exact each p.prop 0 fine
  | bind a b relation origin =>
    cases relation with
    | none => rfl
    | some p => exact each p.prop 1 fine

/-- A machine that looks before it calls a property. -/
def Machine.minding (S : Setting) (wrong : EvalM Value) (m : Machine) : Machine :=
  { m with call := fun receiver p args dynVars =>
      if S.language.ready p args.length dynVars then m.call receiver p args dynVars else wrong }

section Solve
variable {S : Setting} {dynVars : DynVars} {e : Equation Entity}

theorem minding_agrees (ready : S.language.readyFor dynVars e = true) (wrong : EvalM Value)
    (m : Machine) :
    Solver.Agree ((m.minding S wrong).oracle dynVars) (m.oracle dynVars) e.atoms := by
  intro a mem q asks
  have fine := List.all_eq_true.1 ready a mem
  unfold Machine.oracle Machine.minding
  cases a with
  | domain v values origin => cases asks
  | predicate v p origin =>
    cases q with
    | unary asked x =>
      obtain rfl : asked = p := asks
      simp only [List.length_nil, if_pos fine]
    | binary => cases asks
  | bind a b relation origin =>
    cases relation with
    | none => cases asks
    | some p =>
      cases q with
      | unary => cases asks
      | binary asked x y =>
        obtain rfl : asked = p := asks
        simp only [List.length_singleton, if_pos fine]

/-- A solve asks about nothing but the properties of its equation. -/
theorem solve_minding (ready : S.language.readyFor dynVars e = true) (wrong : EvalM Value)
    (m : Machine) :
    EvalM.solve S (m.minding S wrong) e dynVars = EvalM.solve S m e dynVars := by
  funext s
  unfold EvalM.solve
  rw [Equation.solve_congr e (minding_agrees ready wrong m)]

end Solve

/-- Evaluation with a look before each constraint that is built, and, if the whole
equation can be asked about where it is solved, before each call that its solution
makes. -/
def Handling.minding (S : Setting) (wrong : EvalM Value) (m : Machine) : Handling :=
  { Handling.plain S m with
    constrain := fun p args enter => do
      let dynVars ← read (·.dynVars)
      if S.language.ready p args dynVars then enter else session wrong
    solve := fun e => do
      let dynVars ← read (·.dynVars)
      if S.language.readyFor dynVars e then
        session (EvalM.solve S (m.minding S wrong) e dynVars)
      else session (EvalM.solve S m e dynVars) }

theorem minding_trusts (S : Setting) (wrong : EvalM Value) (m : Machine) :
    (Handling.minding S wrong m).Trusts S m where
  arg i := same_refl _
  loc around slot listed := rfl
  dynVar v := same_refl _
  call receiver p args := same_refl _
  constrain p args enter f s ready := by
    show (if S.language.ready p args f.dynVars then enter else session wrong) f s = _
    rw [if_pos ready]
  solve e := by
    show (read (·.dynVars) >>= fun dynVars => _) = read (·.dynVars) >>= fun dynVars => _
    refine congrArg (read (·.dynVars) >>= ·) (funext fun dynVars => ?_)
    by_cases ready : S.language.readyFor dynVars e = true
    · rw [if_pos ready, solve_minding ready]
    · rw [if_neg ready]

/-- In a language that was built every constraint is built where its property can be
called, and a solve at which the properties of its equation can be called makes no
other calls. -/
theorem build_prevents_unready_constraints {declarations : List Declaration} {S : Setting}
    (built : (Builder.declare declarations).build = .ok S.language) (wrong : EvalM Value) :
    (∀ depth, Machine.upTo S depth = Machine.reading S (.minding S wrong) depth) ∧
    ∀ kind s, S.language.envSpec kind = some s → ∀ m n ambient,
      runSpec S m n ambient s.spec =
        runSpecBy (interpret (.minding S wrong m) S m []) n ambient s.spec := by
  refine ⟨fun depth => ?_, fun kind s found m n ambient => ?_⟩
  · exact (reading_eq built (minding_trusts S wrong) depth).symm
  · exact (run_spec_read built (minding_trusts S wrong m) found n ambient).symm

/-- A leaf has a variable, and one property tells whether a dynamic variable is set; the
body of the other one is left open. -/
def Builder.leafSolving (body : Expr) : Builder := .declare [
  .kind ⟨"Leaf", none, [], ["var"], false, false, true, .caller⟩,
  .dynVar "flag" .bool .caller,
  .property ⟨⟨0⟩, "holds", [], .bool, [⟨0⟩], false, true, .expr (.dynVar ⟨0⟩), .caller⟩,
  .property ⟨⟨0⟩, "solved", [], .bool, [], false, true, .expr body, .caller⟩]

/-- The language of these declarations. -/
def Language.leafSolving (body : Expr) : Language where
  kinds := #[⟨⟨0⟩, "Leaf", none, false, [], false, true, ["var"], [⟨0⟩], .caller⟩]
  properties := #[
    ⟨⟨0⟩, "holds", ⟨0⟩, [], .bool, [⟨0⟩], false, true, [0], .caller⟩,
    ⟨⟨1⟩, "solved", ⟨0⟩, [], .bool, [], false, true, [1], .caller⟩]
  implementations := #[
    ⟨⟨0⟩, ⟨0⟩, .expr (.dynVar ⟨0⟩), .caller⟩, ⟨⟨1⟩, ⟨0⟩, .expr body, .caller⟩]
  dynVars := #[⟨⟨0⟩, "flag", .bool, .caller⟩]
  envSpecs := #[]
  metadata := none
  table := #[#[some (.runs 0), some (.runs 1)]]
  warnings := []

/-- The leaf itself is the only candidate, and it is filtered. -/
def Expr.leafEquation : Expr :=
  .all [.domain (.logicVar .self 0) (.array [.self]) .caller,
    .predicate (.logicVar .self 0) ⟨0⟩ .caller]

theorem build_prevents_unready_constraints_of_leaf :
    let body : Expr := .bindDynVar ⟨0⟩ (.lit (.bool true)) (.solve .leafEquation)
    let S : Setting := ⟨.leafSolving body, .standard⟩
    let wrong : EvalM Value := throw .exhausted
    (Builder.leafSolving body).build = .ok S.language ∧
      S.language.readyFor (DynVars.none.set ⟨0⟩ (.bool true))
        (.and [.atom (.domain ⟨0⟩ [.bare ⟨0⟩] none), .atom (.predicate ⟨0⟩ ⟨0⟩ none)]) = true ∧
      ∀ depth, Machine.upTo S depth = Machine.reading S (.minding S wrong) depth := by
  intro body S wrong
  have built : (Builder.leafSolving body).build = .ok S.language := by
    unfold Builder.leafSolving S Language.leafSolving body Expr.leafEquation
    cbv
  exact ⟨built, by cbv, (build_prevents_unready_constraints built wrong).1⟩

/-- The equation is built where the dynamic variable is bound, and solved where it is
not. -/
def Setting.leafUnready : Setting :=
  ⟨.leafSolving (.solve (.bindDynVar ⟨0⟩ (.lit (.bool true)) .leafEquation)), .standard⟩

/-- A session over one leaf. -/
def Session.overLeaf : Session :=
  [Operation.newUnit "", .addNode ⟨0⟩ ⟨0⟩ [] .empty .dummy].foldl
    (Operation.run .leafUnready .exhausted) (.new (.new none) .standard .ready)

/-- What the leaf's equation is in that session. -/
def Equation.leaf : Equation Entity :=
  .and [.atom (.domain ⟨0⟩ [.bare ⟨0⟩] (some .caller)),
    .atom (.predicate ⟨0⟩ ⟨0⟩ (some .caller))]

/-- The session after the equation was built. -/
def Session.leafBuilt : Session :=
  { Session.overLeaf.deeper with
    pool := (Equation.leaf.conjuncts ++ [Equation.leaf]).foldl
      (fun pool e => (pool.addEquation e).2) Session.overLeaf.pool }

theorem eval_leaf_equation (S : Setting) (m : Machine) (d : DynVars) :
    eval S m (.bindDynVar ⟨0⟩ (.lit (.bool true)) .leafEquation)
      (.new (.bare ⟨0⟩) [] d 0) Session.overLeaf.deeper =
      ((.ok (.equation ⟨2⟩), .new (.bare ⟨0⟩) [] d 0), .leafBuilt) := rfl

theorem leaf_unbound : Session.leafBuilt.boundVars .leaf = [] := by
  simp [Session.boundVars, Equation.leaf, Equation.vars, Equation.atoms, Atom.vars,
    List.eraseDups_cons]
  rfl

theorem body_of_leaf (m : Machine) :
    EvalM.bodyOf .leafUnready m ⟨0⟩ 1 ⟨⟨1⟩, .bare ⟨0⟩, [], .none⟩ =
      runIn (.new (.bare ⟨0⟩) [] .none 0) (eval .leafUnready m
        (.solve (.bindDynVar ⟨0⟩ (.lit (.bool true)) .leafEquation))) := rfl

theorem solve_leaf_fails (depth : Nat) :
    EvalM.solve .leafUnready (.upTo .leafUnready (depth + 1)) .leaf .none .leafBuilt =
      (.error (.failure ⟨.missingDynVar "flag", some (⟨0⟩, ⟨0⟩)⟩), .leafBuilt) := by
  have asked : (Machine.upTo .leafUnready (depth + 1)).oracle .none (.unary ⟨0⟩ (.bare ⟨0⟩))
      .leafBuilt =
      (.error (.failure ⟨.missingDynVar "flag", some (⟨0⟩, ⟨0⟩)⟩), .leafBuilt) := rfl
  have ran := Equation.solve_of_failing_filter asked (v := ⟨0⟩) (some .caller) (some .caller)
    Setting.leafUnready.config.solver
  unfold EvalM.solve
  rw [leaf_unbound, Equation.leaf, ran]
  rfl

theorem body_of_leaf_fails (depth : Nat) :
    EvalM.bodyOf .leafUnready (.upTo .leafUnready (depth + 1)) ⟨0⟩ 1 ⟨⟨1⟩, .bare ⟨0⟩, [], .none⟩
      Session.overLeaf.deeper =
      (.error (.failure ⟨.missingDynVar "flag", some (⟨0⟩, ⟨0⟩)⟩), .leafBuilt) := by
  have stopped := eval_solve (eval_leaf_equation _ _ .none) rfl (solve_leaf_fails depth)
  rw [body_of_leaf]
  unfold runIn
  rw [stopped]
  rfl

/-- An equation that is built where the dynamic variable is bound and solved where it is
not passes the checks, and solving it fails for want of the variable, although the
property that is called declares none. -/
theorem solve_misses_dyn_var :
    (Builder.leafSolving (.solve (.bindDynVar ⟨0⟩ (.lit (.bool true)) .leafEquation))).build =
        .ok Setting.leafUnready.language ∧
      (Setting.leafUnready.language.property? ⟨1⟩).map (·.dynVars) = some [] ∧
      ∀ depth, ((Machine.upTo .leafUnready (depth + 2)).call (.bare ⟨0⟩) ⟨1⟩ [] .none
        .overLeaf).1 = .error (.failure ⟨.missingDynVar "flag", some (⟨0⟩, ⟨0⟩)⟩) := by
  refine ⟨?_, ?_, fun depth => ?_⟩
  · unfold Builder.leafSolving Setting.leafUnready Language.leafSolving Expr.leafEquation
    cbv
  · rfl
  let m := Machine.upTo .leafUnready (depth + 1)
  have called : Called .leafUnready .overLeaf ⟨⟨1⟩, .bare ⟨0⟩, [], .none⟩ .none
      ⟨⟨0⟩, [], none, ⟨0⟩, .empty, .dummy, [⟨0⟩], none⟩ _ 1 :=
    ⟨rfl, rfl, rfl, fun p mem => (List.not_mem_nil mem).elim, rfl, rfl⟩
  have within : Session.overLeaf.Within Setting.leafUnready.config.maxCallDepth :=
    .inr (by decide)
  show (EvalM.callWith .leafUnready m (.bare ⟨0⟩) ⟨1⟩ [] .none .overLeaf).1 = _
  rw [called_eq called m]
  show ((EvalM.compute .leafUnready m ⟨0⟩ _ 1 _).mapError _ Session.overLeaf).1 = _
  unfold SessionM.mapError
  rw [EvalM.compute_of_failure within (body_of_leaf_fails depth)]
  rfl

end Trellis
