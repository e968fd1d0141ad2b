import Mathlib
import Trellis.Proofs.DynVars
import Trellis.Proofs.Language.Needs
import Trellis.Proofs.Session.Constraints
import Trellis.Proofs.Session.Unsolved
import Trellis.Proofs.Session.Visibility

/-! What the value of a dynamic variable counts for where it is not needed. A body that does
not need a variable goes as if the variable were not bound: it does not read it, and whatever
it calls that declares it is called where something in between binds it. Its solves go
further. What they ask is asked with what is bound where they are, while the need was looked
for where the constraints were built. -/
namespace Trellis
open FrameM

/-! ## Evaluation where a variable is not bound -/

/-- A call of a property that declares a variable, made where it is not bound. -/
def Definition.strays (d : Definition) (v : DynVarId) (p : PropId) (dynVars : DynVars) : Bool :=
  (d.property? p).any (·.dynVars.contains v) && (dynVars.get? v).isNone

/-- What calls are left to. -/
abbrev Calling := Entity → PropId → List Value → DynVars → EvalM Value

namespace Machine

/-- The machine that leaves such calls to something else. -/
def sparing (S : Setting) (v : DynVarId) (stray : Calling) (m : Machine) : Machine :=
  { m with call := fun receiver p args dynVars =>
      if S.language.strays v p dynVars then stray receiver p args dynVars
      else m.call receiver p args dynVars }

/-- Calls with a variable bound to a value where it is not bound. -/
def supplying (v : DynVarId) (x : Value) (m : Machine) : Calling :=
  fun receiver p args dynVars => m.call receiver p args (dynVars.supply v x)

/-- A machine whose calls see what their properties declare. -/
def Blind (S : Setting) (m : Machine) : Prop :=
  ∀ receiver p args d e,
    (∀ info, S.language.property? p = some info →
      d.restrict info.dynVars = e.restrict info.dynVars) →
    m.call receiver p args d = m.call receiver p args e

theorem up_to_blind (S : Setting) (depth : Nat) : (Machine.upTo S depth).Blind S := by
  intro receiver p args d e same
  cases depth with
  | zero => rfl
  | succ n => exact EvalM.call_with_congr S (.upTo S n) receiver args same

variable {S : Setting} {m : Machine} (blind : m.Blind S) (v : DynVarId) (x : Value)
include blind

/-- To supply a variable to the calls that want it is to supply it to all of them. -/
theorem sparing_supplied (receiver : Entity) (p : PropId) (args : List Value)
    (dynVars : DynVars) :
    (m.sparing S v (m.supplying v x)).call receiver p args dynVars =
      m.call receiver p args (dynVars.supply v x) := by
  show (if S.language.strays v p dynVars then _ else _) = _
  split
  · rfl
  · next stays =>
    by_cases bound : (dynVars.get? v).isSome = true
    · rw [DynVars.supply_of_bound bound]
    · refine blind _ _ _ _ _ fun info known => DynVars.restrictOnto_congr _ fun w mem => ?_
      have other : w ≠ v := by
        rintro rfl
        refine stays ?_
        unfold Definition.strays
        rw [known, Option.any_some, Bool.and_eq_true]
        exact ⟨List.contains_iff_mem.2 mem, by simpa using bound⟩
      rw [DynVars.get?_supply, if_neg other, Option.or_none]

/-- What a solve asks is supplied with the variable if the solve is. -/
theorem solve_supplied (e : Equation Entity) (dynVars : DynVars) :
    EvalM.solve S (m.sparing S v (m.supplying v x)) e dynVars =
      EvalM.solve S m e (dynVars.supply v x) := by
  have asked : (m.sparing S v (m.supplying v x)).oracle dynVars =
      m.oracle (dynVars.supply v x) := by
    funext q
    unfold oracle
    simp only [sparing_supplied blind v x]
  funext s
  unfold EvalM.solve
  rw [asked]

end Machine

/-- A frame with a variable bound to a value, unless it is bound already. -/
def Frame.supply (v : DynVarId) (x : Value) (f : Frame) : Frame :=
  { f with dynVars := f.dynVars.supply v x }

/-- The second action does in a frame to which a variable is supplied what the first one does
without that. -/
def FrameM.Furnishes (v : DynVarId) (x : Value) ⦃α : Type⦄ (act act' : FrameM α) : Prop :=
  ∀ f s, act' (f.supply v x) s = (((act f s).1.1, (act f s).1.2.supply v x), (act f s).2)

section Furnishes
variable {S : Setting} {m : Machine} {v : DynVarId} {x : Value}

theorem furnishes_assembly (stray : Calling) :
    Assembly S (m.sparing S v stray) m (Furnishes v x) where
  pure _ _ _ := rfl
  self _ _ := rfl
  look _ _ _ := rfl
  set_local _ _ _ _ := rfl
  equation _ _ _ := rfl
  bind {α β act act' next next'} first rest f s := by
    rw [run_bind, run_bind, first f s]
    rcases act f s with ⟨⟨halt | y, g⟩, t⟩
    · rfl
    · exact rest y g t
  with_dyn_var {α act act'} w y inside f s := by
    have entered : { f.supply v x with dynVars := (f.supply v x).dynVars.set w y } =
        Frame.supply v x { f with dynVars := f.dynVars.set w y } := by
      unfold Frame.supply
      rw [DynVars.supply_set]
    unfold withDynVar
    rw [entered, inside]
    rfl
  search _ _ _ _ _ _ := rfl

/-- Evaluation with a variable supplied, by a machine whose calls are made with it. -/
def Handling.supplied (S : Setting) (v : DynVarId) (x : Value) (m : Machine) : Handling :=
  { Handling.plain S m with
    dynVar := fun w => do
      match ← read fun f => (f.dynVars.supply v x).get? w with
      | some value => return value
      | none => fail (.missingDynVar (S.language.dynVarName w)) }

/-- To evaluate with the variable bound is to supply it wherever it is looked for. -/
theorem supplied_related (blind : m.Blind S) :
    (Handling.supplied S v x (m.sparing S v (m.supplying v x))).Related S
      (m.sparing S v (m.supplying v x)) m (Furnishes v x) where
  toAssembly := furnishes_assembly _
  arg i f s := by
    unfold Handling.supplied Handling.plain
    dsimp only [Frame.supply]
    rw [eval, eval, run_bind, run_bind, run_read, run_read]
    dsimp only
    cases f.args[i]? <;> rfl
  loc _ slot f s := rfl
  dynVar w f s := by
    show eval S m (.dynVar w) (f.supply v x) s = _
    rw [eval, run_bind, run_read]
    unfold Handling.supplied
    dsimp only [Frame.supply]
    rw [run_bind, run_read]
    cases (f.dynVars.supply v x).get? w <;> rfl
  handed receiver p args f s :=
    (congrArg (fun act : EvalM Value => session act (f.supply v x) s)
      (Machine.sparing_supplied blind v x receiver p args f.dynVars)).symm
  constrain _ _ _ _ entered := entered
  solve e f s :=
    (congrArg (fun act : EvalM Bool => session act (f.supply v x) s)
      (Machine.solve_supplied blind v x e f.dynVars)).symm

/-- Where the checks pass without the variable, it is not read. -/
theorem supplied_trusts : (Handling.supplied S v x m).Trusts S m where
  arg _ := same_refl _
  loc _ _ _ := rfl
  dynVar w f s bound := by
    obtain ⟨value, held⟩ := Option.isSome_iff_exists.1 bound
    have same : (f.dynVars.supply v x).get? w = some value := by
      rw [DynVars.get?_supply, held, Option.some_or]
    unfold Handling.supplied
    dsimp only
    rw [eval, run_bind, run_bind, run_read, run_read]
    simp only [same, held]
  call _ _ _ := same_refl _
  constrain _ _ _ := same_refl _
  solve _ := rfl

/-- Evaluation in which nothing but the questions of solves is left to something else. -/
def Handling.asking (S : Setting) (v : DynVarId) (stray : Calling) (m : Machine) : Handling :=
  { Handling.plain S (m.sparing S v stray) with call := (Handling.plain S m).call }

/-- A call that can be made does not stray. -/
theorem Definition.stays_of_ready {d : Definition} {dynVars : DynVars}
    (ready : d.ready p args dynVars = true) (v : DynVarId) : d.strays v p dynVars = false := by
  obtain ⟨info, known, callable⟩ := (Option.any_eq_true _ _).1 ready
  obtain ⟨-, bound⟩ := Bool.and_eq_true .. ▸ callable
  unfold strays
  rw [known, Option.any_some, Bool.and_eq_false_iff]
  by_cases declared : v ∈ info.dynVars
  · right
    simpa using List.all_eq_true.1 bound v declared
  · left
    simpa using declared

/-- Where the checks pass without the variable, no call that the body makes itself strays. -/
theorem asking_trusts (stray : Calling) :
    (Handling.asking S v stray m).Trusts S (m.sparing S v stray) where
  arg _ := same_refl _
  loc _ _ _ := rfl
  dynVar _ := same_refl _
  call receiver p args f s ready := by
    have stays := Definition.stays_of_ready ready v
    show session (m.call receiver p args f.dynVars) f s =
      session (if S.language.strays v p f.dynVars then _ else _) f s
    rw [stays]
    rfl
  constrain _ _ _ := same_refl _
  solve _ := rfl

end Furnishes

/-! ## Calls of a property that does not need a variable -/

namespace EvalM

/-- The body that answers a call as it goes where a variable is not bound, with what its
solves ask of properties that declare the variable left to something else. -/
def bodySparing (S : Setting) (m : Machine) (v : DynVarId) (stray : Calling) (kind : KindId)
    (index : Nat) (key : MemoKey) : EvalM Value :=
  bodyRead S (m.sparing S v stray) (.asking S v stray m) kind index
    { key with dynVars := key.dynVars.without v }

end EvalM

section Unneeded
variable {declarations : List Declaration} {S : Setting} {m : Machine} {v : DynVarId}
  {info : PropertyInfo} {node : Node} (built : (Builder.declare declarations).build = .ok S.language)
  (unused : v ∈ S.language.unusedBy info)
include built unused

/-- A body that does not need a variable counts on its value for nothing but the questions of
its solves. -/
theorem body_sparing_eq (blind : m.Blind S) (called : Called S s key dynVars node info index)
    (bound : key.dynVars.get? v = some x) :
    EvalM.bodyOf S m node.kind index key =
      EvalM.bodySparing S m v (m.supplying v x) node.kind index key := by
  obtain ⟨same, resolved, -⟩ := Builder.build_ok built
  have indexed : S.language.Indexed := same ▸ Builder.declare_indexed declarations
  obtain ⟨i, found, its⟩ := Language.dispatch_runs indexed resolved called.dispatched
  obtain ⟨body, expression, clean⟩ := Builder.built_unused built called.known unused found its
  let frame : Frame := .new key.entity key.args (key.dynVars.without v) i.frameSize
  have fits : ((i.context S.language.toDefinition info).without v).Fits [] frame := by
    refine ⟨Nat.le_of_eq called.arity.symm, fun w mem => ?_⟩
    rw [List.append_nil] at mem
    obtain ⟨declared, other⟩ := List.mem_filter.1 mem
    show ((key.dynVars.without v).get? w).isSome = true
    rw [DynVars.get?_without, if_neg (of_decide_eq_true other)]
    exact DynVars.restrict_binds called.declared w declared
  have supplied : frame.supply v x = .new key.entity key.args key.dynVars i.frameSize := by
    show Frame.mk _ _ ((key.dynVars.without v).supply v x) _ = _
    rw [DynVars.supply_without bound]
    rfl
  -- in a frame without the variable both readings come to evaluation there
  have evaluated (t : Session) :
      eval S m body (frame.supply v x) t = Prod.map (Prod.map id (Frame.supply v x)) id
        (interpret (.asking S v (m.supplying v x) m) S (m.sparing S v (m.supplying v x)) [] body
          frame t) := by
    rw [interpret_trusted (asking_trusts _) rfl ⟨[], []⟩ [] rfl body clean frame t fits,
      ← interpret_trusted supplied_trusts rfl ⟨[], []⟩ [] rfl body clean frame t fits]
    exact interpret_related (supplied_related blind) [] body frame t
  unfold EvalM.bodyOf EvalM.bodySparing EvalM.bodyRead
  rw [found]
  dsimp only
  unfold EvalM.runBody
  rw [expression]
  dsimp only
  funext t
  unfold runIn
  rw [← supplied, evaluated]
  rfl

/-- So does a call count on it for nothing else. -/
theorem call_sparing_eq (blind : m.Blind S) (known : S.language.property? p = some info)
    (entity : Entity) (args : List Value) (d : DynVars) (x : Value) :
    EvalM.callWith S m entity p args (d.set v x) =
      EvalM.callBy S (EvalM.bodySparing S m v (m.supplying v x)) entity p args (d.set v x) := by
  funext s
  rw [← EvalM.call_by_body_of]
  refine EvalM.call_by_congr_across fun other asked => ?_
  obtain rfl : info = other := Option.some.inj (known.symm.trans asked)
  cases declared : (d.set v x).restrict info.dynVars with
  | error w => exact .inl ⟨w, rfl, rfl⟩
  | ok cut =>
    refine .inr ⟨cut, cut, rfl, rfl, fun node index called => ?_⟩
    have bound : cut.get? v = some x := by
      rw [DynVars.get?_of_restrictOnto declared (Definition.declared_of_unused unused),
        DynVars.get?_set, if_pos rfl]
    rw [body_sparing_eq built unused blind called bound]

omit built unused in
/-- A call whose body goes where the variable is not bound does not see its value, unless it
is looked up among remembered results. -/
theorem sparing_unseen (known : S.language.property? p = some info)
    (unremembered : (S.config.memoize && info.memoized) = false)
    (stray : Calling) (entity : Entity) (args : List Value) (d : DynVars) (x y : Value) :
    EvalM.callBy S (EvalM.bodySparing S m v stray) entity p args (d.set v x) =
      EvalM.callBy S (EvalM.bodySparing S m v stray) entity p args (d.set v y) := by
  funext s
  refine EvalM.call_by_congr_across fun other asked => ?_
  obtain rfl : info = other := Option.some.inj (known.symm.trans asked)
  refine (d.restrict_rebound v x y info.dynVars).imp_right ?_
  rintro ⟨cut, cut', declared, declared', same⟩
  refine ⟨cut, cut', declared, declared', fun node index _ => ?_⟩
  have bodies : EvalM.bodySparing S m v stray node.kind index ⟨p, entity, args, cut⟩ =
      EvalM.bodySparing S m v stray node.kind index ⟨p, entity, args, cut'⟩ := by
    unfold EvalM.bodySparing
    dsimp only
    rw [same]
  unfold EvalM.answerBy
  rw [unremembered, bodies, if_neg Bool.false_ne_true, if_neg Bool.false_ne_true]

/-- Where nothing is solved, nothing is left to something else. -/
theorem sparing_unsolved (known : S.language.property? p = some info)
    (quiet : ∀ i ∈ S.language.implementations.toList, i.prop = p → ∀ body, i.body = .expr body →
      body.solves = false)
    (stray stray' : Calling) (entity : Entity) (args : List Value) (d : DynVars) :
    EvalM.callBy S (EvalM.bodySparing S m v stray) entity p args d =
      EvalM.callBy S (EvalM.bodySparing S m v stray') entity p args d := by
  obtain ⟨same, resolved, -⟩ := Builder.build_ok built
  have indexed : S.language.Indexed := same ▸ Builder.declare_indexed declarations
  funext s
  refine EvalM.call_by_congr_across fun other asked => ?_
  cases declared : d.restrict other.dynVars with
  | error w => exact .inl ⟨w, rfl, rfl⟩
  | ok cut =>
    refine .inr ⟨cut, cut, rfl, rfl, fun node index called => ?_⟩
    obtain ⟨i, found, its⟩ := Language.dispatch_runs indexed resolved called.dispatched
    obtain ⟨body, expression, -⟩ := Builder.built_unused built known unused found its
    have listed := Array.mem_toList_iff.2 (Array.mem_of_getElem? found)
    have assembly : Assembly S (m.sparing S v stray) (m.sparing S v stray') _ :=
      same_assembly S rfl
    have read : interpret (.asking S v stray m) S (m.sparing S v stray) [] body =
        interpret (.asking S v stray' m) S (m.sparing S v stray') [] body :=
      interpret_unsolved assembly (.asking S v stray m) (Handling.asking S v stray' m).solve [] body
        (quiet i listed its body expression)
    have bodies (key : MemoKey) : EvalM.bodySparing S m v stray node.kind index key =
        EvalM.bodySparing S m v stray' node.kind index key := by
      unfold EvalM.bodySparing EvalM.bodyRead
      rw [found]
      dsimp only
      rw [expression]
      dsimp only
      rw [read]
    rw [bodies]

end Unneeded

/-- A language warns of the variables that a property declares while none of its bodies needs
them. Unless it is remembered, a call of such a property sees what the variable is bound to
only through its solves: all else goes as where the variable is not bound, and what the solves
ask of properties that declare the variable is asked with it wherever nothing around the solve
binds it, no matter where the constraint was built. So calls that differ in that value alone
do the same if nothing depends on these questions, as where the bodies of the property solve
nothing. -/
theorem unneeded_value_unseen {declarations : List Declaration} {S : Setting}
    (built : (Builder.declare declarations).build = .ok S.language)
    (known : S.language.property? p = some info) (unused : v ∈ S.language.unusedBy info)
    (unremembered : (S.config.memoize && info.memoized) = false) (depth : Nat) (entity : Entity)
    (args : List Value) (d : DynVars) :
    let l := S.language
    let m := Machine.upTo S depth
    let call (x : Value) := (Machine.upTo S (depth + 1)).call entity p args (d.set v x)
    let sparing (stray : Calling) (x : Value) :=
      EvalM.callBy S (EvalM.bodySparing S m v stray) entity p args (d.set v x)
    (l.warnings = l.properties.toList.flatMap fun p => (l.unusedBy p).map fun v =>
      ⟨.K1010, .warning, p.name ++ " declares dynamic variable " ++ l.dynVarName v ++
        " but never needs it", .definition p.site⟩) ∧
    (∀ x, call x = sparing (m.supplying v x) x) ∧
    (∀ stray x y, sparing stray x = sparing stray y) ∧
    (∀ x y s, (∀ stray stray', sparing stray x s = sparing stray' x s) → call x s = call y s) ∧
    ((∀ i ∈ l.implementations.toList, i.prop = p → ∀ body, i.body = .expr body →
      body.solves = false) → ∀ x y, call x = call y) := by
  intro l m call sparing
  have spared (x : Value) : call x = sparing (m.supplying v x) x :=
    call_sparing_eq built unused (Machine.up_to_blind S depth) known entity args d x
  have unseen (stray) (x y : Value) : sparing stray x = sparing stray y :=
    sparing_unseen known unremembered stray entity args d x y
  have alike (x y : Value) (s : Session)
      (nothing : ∀ stray stray', sparing stray x s = sparing stray' x s) :
      call x s = call y s := by
    calc call x s = sparing (m.supplying v x) x s := by rw [spared]
      _ = sparing (m.supplying v y) x s := nothing _ _
      _ = sparing (m.supplying v y) y s := by rw [unseen _ x y]
      _ = call y s := by rw [spared]
  refine ⟨Builder.built_warnings built, spared, unseen, alike, fun quiet x y => ?_⟩
  funext s
  exact alike x y s fun stray stray' =>
    congrFun (sparing_unsolved built unused known quiet stray stray' entity args (d.set v x)) s

/-- A leaf has a variable, and one property tells whether a dynamic variable is set; another
one declares it as well, and its body is left open. -/
def Builder.leafHeeding (body : Expr) : Builder := .declare [
  .kind ⟨"Leaf", none, [], ["var"], false, false, true, .caller⟩,
  .dynVar "flag" .bool .caller,
  .property ⟨⟨0⟩, "holds", [], .bool, [⟨0⟩], false, true, .expr (.dynVar ⟨0⟩), .caller⟩,
  .property ⟨⟨0⟩, "solved", [], .bool, [⟨0⟩], false, true, .expr body, .caller⟩]

/-- The other property, as it is declared. -/
def PropertyInfo.leafHeeding : PropertyInfo :=
  ⟨⟨1⟩, "solved", ⟨0⟩, [], .bool, [⟨0⟩], false, true, [1], .caller⟩

/-- The language of these declarations, for a body that does not need the dynamic variable,
without results being remembered. -/
def Setting.leafHeeding (body : Expr) : Setting where
  language := { Language.leafSolving body with
    properties := #[⟨⟨0⟩, "holds", ⟨0⟩, [], .bool, [⟨0⟩], false, true, [0], .caller⟩, .leafHeeding]
    warnings := [⟨.K1010, .warning, "solved declares dynamic variable flag but never needs it",
      .definition .caller⟩] }
  config := { EvalConfig.standard with memoize := false }

/-- A build whose findings are no errors gives a language with these parts. -/
theorem Builder.build_of_parts {b : Builder} {l : Language} (quiet : b.log.pending = false)
    (clean : ∀ d ∈ b.definition.findings, d.severity ≠ .nonBlocking)
    (definition : l.toDefinition = b.definition) (table : l.table = b.language.table)
    (warnings : l.warnings = b.language.warnings) : b.build = .ok l := by
  refine (build_ok_iff quiet).2 ⟨clean, ?_⟩
  obtain ⟨d, ofTable, ofWarnings⟩ := l
  cases definition
  cases table
  cases warnings
  rfl

theorem unneeded_value_unseen_of_bound :
    let body : Expr := .bindDynVar ⟨0⟩ (.lit (.bool true)) (.selfCall ⟨0⟩)
    let S := Setting.leafHeeding body
    (Builder.leafHeeding body).build = .ok S.language ∧
      ∀ depth entity (d : DynVars) x y,
        (Machine.upTo S (depth + 1)).call entity ⟨1⟩ [] (d.set ⟨0⟩ x) =
          (Machine.upTo S (depth + 1)).call entity ⟨1⟩ [] (d.set ⟨0⟩ y) := by
  intro body S
  have definition : S.language.toDefinition = (Builder.leafHeeding body).definition := by
    unfold Builder.leafHeeding S Setting.leafHeeding Language.leafSolving
      PropertyInfo.leafHeeding body Expr.selfCall
    cbv
  have built : (Builder.leafHeeding body).build = .ok S.language :=
    Builder.build_of_parts (by decide +kernel) (by decide +kernel) definition (by decide +kernel)
      (by decide +kernel)
  have unused : ⟨0⟩ ∈ S.language.unusedBy .leafHeeding := by decide +kernel
  have quiet : ∀ i ∈ S.language.implementations.toList, i.prop = ⟨1⟩ → ∀ e, i.body = .expr e →
      e.solves = false := by
    intro i listed its e expression
    rcases List.mem_pair.1 listed with rfl | rfl
    · cases its
    · cases expression
      rfl
  refine ⟨built, fun depth entity d x y => ?_⟩
  exact (unneeded_value_unseen built rfl unused rfl depth entity [] d).2.2.2.2 quiet x y

/-- The equation is built where the dynamic variable is bound, and solved outside. -/
def Expr.leafHeedless : Expr := .solve (.bindDynVar ⟨0⟩ (.lit (.bool true)) .leafEquation)

def Setting.leafHeedless : Setting := .leafHeeding .leafHeedless

section Heedless
variable (flag : Bool) (depth : Nat)

theorem solve_leaf_heedless :
    (EvalM.solve .leafHeedless (.upTo .leafHeedless (depth + 1)) .leaf
      (DynVars.none.set ⟨0⟩ (.bool flag)) .leafBuilt).1 = .ok flag := by
  have asked : (Machine.upTo .leafHeedless (depth + 1)).oracle (DynVars.none.set ⟨0⟩ (.bool flag))
      (.unary ⟨0⟩ (.bare ⟨0⟩)) .leafBuilt = (.ok flag, .leafBuilt) := by cases flag <;> rfl
  unfold EvalM.solve
  rw [leaf_unbound, Equation.leaf]
  cases flag with
  | true => rw [Equation.solve_of_passing_filter asked]
  | false => rw [Equation.solve_of_rejecting_filter asked]

theorem body_of_leaf_heedless :
    (EvalM.bodyOf .leafHeedless (.upTo .leafHeedless (depth + 1)) ⟨0⟩ 1
      ⟨⟨1⟩, .bare ⟨0⟩, [], DynVars.none.set ⟨0⟩ (.bool flag)⟩ Session.overLeaf.deeper).1 =
      .ok (.bool flag) := by
  let m := Machine.upTo .leafHeedless (depth + 1)
  let d := DynVars.none.set ⟨0⟩ (.bool flag)
  have solved := eval_solve (eval_leaf_equation .leafHeedless m d) rfl
    (Prod.ext (solve_leaf_heedless flag depth) rfl)
  show (runIn (.new (.bare ⟨0⟩) [] d 0) (eval .leafHeedless m _) Session.overLeaf.deeper).1 = _
  unfold runIn Expr.leafHeedless
  rw [solved]
  rfl

end Heedless

/-- A solve outside of what binds a variable sees its value, although the variable is not
needed. -/
theorem solve_sees_unneeded_value :
    let S := Setting.leafHeedless
    let s := [Operation.newUnit "", .addNode ⟨0⟩ ⟨0⟩ [] .empty .dummy].foldl
      (Operation.run S .exhausted) (.new (.new none) .standard .ready)
    (Builder.leafHeeding .leafHeedless).build = .ok S.language ∧
      S.language.warnings = [⟨.K1010, .warning,
        "solved declares dynamic variable flag but never needs it", .definition .caller⟩] ∧
      ⟨0⟩ ∈ S.language.unusedBy .leafHeeding ∧
      S.language.property? ⟨1⟩ = some .leafHeeding ∧ S.config.memoize = false ∧
      ∀ flag depth, ((Machine.upTo S (depth + 2)).call (.bare ⟨0⟩) ⟨1⟩ []
        (DynVars.none.set ⟨0⟩ (.bool flag)) s).1 = .ok (.bool flag) := by
  intro S s
  have definition : S.language.toDefinition = (Builder.leafHeeding .leafHeedless).definition := by
    unfold Builder.leafHeeding S Setting.leafHeedless Setting.leafHeeding Language.leafSolving
      PropertyInfo.leafHeeding Expr.leafHeedless Expr.leafEquation
    cbv
  refine ⟨?_, rfl, by decide +kernel, rfl, rfl, fun flag depth => ?_⟩
  · exact Builder.build_of_parts (by decide +kernel) (by decide +kernel) definition
      (by decide +kernel) (by decide +kernel)
  have there : s = .overLeaf := rfl
  let m := Machine.upTo S (depth + 1)
  let key : MemoKey := ⟨⟨1⟩, .bare ⟨0⟩, [], DynVars.none.set ⟨0⟩ (.bool flag)⟩
  have cut : (DynVars.none.set ⟨0⟩ (.bool flag)).restrict [⟨0⟩] = .ok key.dynVars := by
    cases flag <;> rfl
  have called : Called S .overLeaf key (DynVars.none.set ⟨0⟩ (.bool flag))
      ⟨⟨0⟩, [], none, ⟨0⟩, .empty, .dummy, [⟨0⟩], none⟩ .leafHeeding 1 :=
    ⟨rfl, rfl, rfl, fun p mem => (List.not_mem_nil mem).elim, cut, rfl⟩
  have within : Session.overLeaf.Within S.config.maxCallDepth := .inr (by decide)
  have computed : EvalM.compute S m ⟨0⟩ .leafHeeding 1 key .overLeaf = (.ok (.bool flag), _) :=
    EvalM.compute_of_body within (Prod.ext (body_of_leaf_heedless flag depth) rfl) rfl
  rw [there]
  show (EvalM.callWith S m (.bare ⟨0⟩) ⟨1⟩ [] _ .overLeaf).1 = _
  rw [called_eq called m]
  show ((EvalM.compute S m ⟨0⟩ _ 1 _).mapError _ Session.overLeaf).1 = _
  rw [SessionM.map_error_of_ok computed]

end Trellis
