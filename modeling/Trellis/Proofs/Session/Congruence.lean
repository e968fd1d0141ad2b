import Trellis.Proofs.Session.Calls
import Trellis.Proofs.Session.Interpretation
import Trellis.Proofs.Solver.Engine

/-! Searches and expressions, read in two ways side by side. A search goes through references
and parents, and what it does between the searches and resolutions that it leaves to the
machine is the same for any two machines. An expression is evaluated by evaluating its
parts one after the other and doing something with their values, which is the same whatever
the machine; only calls, lookups and solves are left to it. So what relates the two there,
and is kept by putting evaluations together, relates what they make of every expression. The
first one may read the forms differently that look at what is around them, as long as what it
makes of these is related. -/
namespace Trellis

namespace Session
variable {s : Session} {e : PropertyError}

/-! What is missing in a session is reported before a call claims it. -/

theorem node_envs_unclaimed (failed : s.nodeEnvs n = .error e) : ∃ fault, e = .of fault := by
  unfold nodeEnvs at failed
  split at failed
  · cases failed
    exact ⟨_, rfl⟩
  · split at failed <;> cases failed
    exact ⟨_, rfl⟩

theorem logic_value_unclaimed (failed : s.logicValue v = .error e) : ∃ fault, e = .of fault := by
  unfold logicValue at failed
  split at failed <;> cases failed
  exact ⟨_, rfl⟩

end Session

/-! ## Searches -/

namespace EvalM

/-- A relation between operations that sequencing keeps and that holds of whatever only reads
something off the session. -/
structure Reads (R : ∀ α : Type, EvalM α → EvalM α → Prop) : Prop
    extends Solver.Engine.Sequential R where
  read : ∀ {α : Type} (f : Session → α), R α (SessionM.read f) (SessionM.read f)

variable {R : ∀ α : Type, EvalM α → EvalM α → Prop} (reads : Reads R) (m m' : Machine)
  {q : LookupQuery}
include reads

theorem search_references_related {env : EnvId} {visiting : List EnvId}
    (resolves : ∀ i, R _ (m.resolve env i) (m'.resolve env i))
    (searches : ∀ view found, R _ (m.search q view visiting found)
      (m'.search q view visiting found)) (view : EnvValue) (count i : Nat) (found : Array Entity) :
    R _ (searchReferences m q view env visiting count i found)
      (searchReferences m' q view env visiting count i found) := by
  induction count generalizing i found with
  | zero => exact reads.pure _
  | succ count ih =>
    rw [searchReferences, searchReferences]
    refine reads.bind (resolves i) fun referenced => reads.bind (reads.read _) fun r => ?_
    cases r with
    | none => exact ih (i + 1) found
    | some reference =>
      refine reads.bind (searches _ found) fun found => ?_
      split
      · exact reads.pure _
      · exact ih (i + 1) found

/-- What relates the searches and resolutions that are left to two machines relates whole
searches. -/
theorem search_with_related (resolves : ∀ env i, R _ (m.resolve env i) (m'.resolve env i))
    (searches : ∀ view visiting found, R _ (m.search q view visiting found)
      (m'.search q view visiting found)) (view : EnvValue) (visiting : List EnvId)
    (found : Array Entity) :
    R _ (searchWith m q view visiting found) (searchWith m' q view visiting found) := by
  unfold searchWith
  dsimp only
  split
  · exact reads.pure _
  refine reads.bind (reads.read _) fun direct => ?_
  split
  · exact reads.pure _
  refine reads.bind (reads.read _) fun count => ?_
  refine reads.bind (search_references_related reads m m' (resolves _) (fun view found =>
    searches view _ found) view count 0 _) fun found => ?_
  split
  · exact reads.pure _
  refine reads.bind (reads.read _) fun top => ?_
  cases top with
  | none => exact reads.pure _
  | some parent => exact searches _ _ found

end EvalM

/-! ## Expressions -/

namespace FrameM

/-- A relation between evaluations by two machines that holds of whatever is the same for
both, looks at nothing of the frame but the receiver and leaves the session alone, is kept
by putting evaluations together, and holds of the lookups that are left to the machines. -/
structure Assembly (S : Setting) (m m' : Machine)
    (Rel : ⦃α : Type⦄ → FrameM α → FrameM α → Prop) : Prop where
  pure {α : Type} (x : α) : Rel (pure x) (pure x)
  self : Rel (read fun f => Value.entity f.entity) (read fun f => Value.entity f.entity)
  look {α : Type} {act : EvalM α} (looks : act.Looks) : Rel (session act) (session act)
  set_local (slot : Nat) (value : Value) : Rel (setLocal slot value) (setLocal slot value)
  equation (e : Equation Entity) : Rel (equation e) (equation e)
  bind {α β : Type} {act act' : FrameM α} {next next' : α → FrameM β} (first : Rel act act')
    (rest : ∀ x, Rel (next x) (next' x)) : Rel (act >>= next) (act' >>= next')
  with_dyn_var {α : Type} {act act' : FrameM α} (var : DynVarId) (value : Value)
    (inside : Rel act act') : Rel (withDynVar var value act) (withDynVar var value act')
  search (q : LookupQuery) (view : EnvValue) (visiting : List EnvId) (found : Array Entity) :
    Rel (session (m.search q view visiting found)) (session (m'.search q view visiting found))

/-- Such a relation that holds of whatever looks at the frame, and of the calls that are left
to the machines. -/
structure Composition (S : Setting) (m m' : Machine)
    (Rel : ⦃α : Type⦄ → FrameM α → FrameM α → Prop) : Prop extends Assembly S m m' Rel where
  read {α : Type} (g : Frame → α) : Rel (read g) (read g)
  self := read _
  call (entity : Entity) (prop : PropId) (args : List Value) (dynVars : DynVars) :
    Rel (session (m.call entity prop args dynVars)) (session (m'.call entity prop args dynVars))

/-- Such a relation that holds of solves as well. -/
structure Congruence (S : Setting) (m m' : Machine)
    (Rel : ⦃α : Type⦄ → FrameM α → FrameM α → Prop) : Prop extends Composition S m m' Rel where
  solve (e : Equation Entity) (dynVars : DynVars) :
    Rel (session (EvalM.solve S m e dynVars)) (session (EvalM.solve S m' e dynVars))

namespace Assembly
variable {S : Setting} {m m' : Machine} {Rel : ⦃α : Type⦄ → FrameM α → FrameM α → Prop}
  (rel : Assembly S m m' Rel)
include rel

theorem fail (fault : Fault) : Rel (FrameM.fail fault : FrameM α) (FrameM.fail fault) :=
  rel.look (EvalM.looks_fail fault)

theorem mismatch (expected : String) (found : Value) :
    Rel (FrameM.mismatch expected found : FrameM α) (FrameM.mismatch expected found) := rel.fail _

theorem node (n : NodeId) : Rel (FrameM.node n) (FrameM.node n) :=
  rel.look (EvalM.node_looks n)

theorem read_session (f : Session → α) :
    Rel (session (SessionM.read f)) (session (SessionM.read f)) :=
  rel.look fun s => ⟨.ok (f s), rfl⟩

theorem read_session_e {f : Session → Except PropertyError α}
    (unclaimed : ∀ s e, f s = .error e → ∃ fault, e = .of fault) :
    Rel (session (SessionM.readE f)) (session (SessionM.readE f)) := by
  refine rel.look fun s => ?_
  unfold SessionM.readE
  cases held : f s with
  | ok x => exact ⟨.ok x, rfl⟩
  | error e =>
    obtain ⟨fault, rfl⟩ := unclaimed s e held
    exact ⟨.error fault, rfl⟩

/-- A lookup of one result is a search, of whose result the first part is taken. -/
theorem lookup_first (env : EnvValue) (symbol : Symbol) (require : Metadata) :
    Rel (session (m.lookupFirst env symbol require))
      (session (m'.lookupFirst env symbol require)) := by
  have apart (m : Machine) : session (m.lookupFirst env symbol require) =
      session (m.search ⟨symbol, require, true⟩ env [] #[]) >>= fun found =>
        Pure.pure found[0]? := by
    funext f s
    rw [run_session, run_bind, run_session]
    unfold Machine.lookupFirst
    rw [SessionM.run_bind]
    rcases m.search ⟨symbol, require, true⟩ env [] #[] s with ⟨e | found, t⟩ <;> rfl
  rw [apart, apart]
  exact rel.bind (rel.search _ _ _ _) fun _ => rel.pure _

theorem map {act act' : α → FrameM β} (each : ∀ x, Rel (act x) (act' x)) (xs : List α) :
    Rel (xs.mapM act) (xs.mapM act') := by
  induction xs with
  | nil => exact rel.pure _
  | cons x xs ih =>
    rw [List.mapM_cons, List.mapM_cons]
    exact rel.bind (each x) fun _ => rel.bind ih fun _ => rel.pure _

/-! What an operator does with the values of its operands. -/

theorem expect_entity (v : Value) : Rel (expectEntity v) (expectEntity v) := by
  cases v <;> first | exact rel.pure _ | exact rel.fail _

theorem expect_bool (v : Value) : Rel (expectBool v) (expectBool v) := by
  cases v <;> first | exact rel.pure _ | exact rel.fail _

theorem expect_int (v : Value) : Rel (expectInt v) (expectInt v) := by
  cases v <;> first | exact rel.pure _ | exact rel.fail _

theorem expect_symbol (v : Value) : Rel (expectSymbol v) (expectSymbol v) := by
  cases v <;> first | exact rel.pure _ | exact rel.fail _

theorem expect_array (v : Value) : Rel (expectArray v) (expectArray v) := by
  cases v <;> first | exact rel.pure _ | exact rel.fail _

theorem expect_logic_var (v : Value) : Rel (expectLogicVar v) (expectLogicVar v) := by
  cases v <;> first | exact rel.pure _ | exact rel.fail _

theorem expect_env (v : Value) : Rel (expectEnv v) (expectEnv v) := by
  cases v <;> first | exact rel.pure _ | exact rel.fail _

theorem checked (n : Int) : Rel (checked n) (checked n) := by
  unfold FrameM.checked
  split
  · exact rel.pure _
  · exact rel.fail _

theorem arithmetic (op : BinaryOp) (a b : Int) : Rel (arithmetic op a b) (arithmetic op a b) := by
  cases op <;> first | exact rel.checked _ | exact rel.pure _

theorem is_a (S : Setting) (e : Entity) (kind : KindId) : Rel (isA S e kind) (isA S e kind) :=
  rel.bind (rel.node _) fun _ => rel.pure _

theorem cast (S : Setting) (kind : KindId) (orRaise : Bool) (v : Value) :
    Rel (cast S kind orRaise v) (cast S kind orRaise v) := by
  cases v with
  | entity e =>
    refine rel.bind (rel.is_a S e kind) fun fits => ?_
    split
    · exact rel.pure _
    · split
      · exact rel.mismatch _ _
      · exact rel.pure _
  | null => exact rel.pure _
  | _ => exact rel.mismatch _ _

theorem accepts (S : Setting) (p : ArmPattern) (v : Value) :
    Rel (accepts S p v) (accepts S p v) := by
  unfold FrameM.accepts
  split
  · exact rel.pure _
  · exact rel.is_a S _ _
  · exact rel.pure _

theorem no_match (S : Setting) (v : Value) : Rel (noMatch S v : FrameM α) (noMatch S v) := by
  cases v with
  | entity e => exact rel.bind (rel.node _) fun _ => rel.fail _
  | _ => exact rel.fail _

mutual

theorem equations_of : (v : Value) → Rel (equationsOf v) (equationsOf v)
  | .equation id => by
    rw [equationsOf]
    exact rel.bind (rel.read_session _) fun _ => rel.pure _
  | .bool true => by rw [equationsOf]; exact rel.pure _
  | .bool false => by rw [equationsOf]; exact rel.pure _
  | .array ⟨items⟩ => by rw [equationsOf]; exact equations_of_all items
  | .null => rel.mismatch _ _
  | .unit => rel.mismatch _ _
  | .int _ => rel.mismatch _ _
  | .symbol _ => rel.mismatch _ _
  | .entity _ => rel.mismatch _ _
  | .env _ => rel.mismatch _ _
  | .logicVar _ => rel.mismatch _ _

theorem equations_of_all : (vs : List Value) → Rel (equationsOfAll vs) (equationsOfAll vs)
  | [] => by rw [equationsOfAll]; exact rel.pure _
  | v :: rest => by
    rw [equationsOfAll]
    exact rel.bind (equations_of v) fun _ =>
      rel.bind (equations_of_all rest) fun _ => rel.pure _

end

theorem candidates_of (vs : List Value) : Rel (candidatesOf vs) (candidatesOf vs) := by
  induction vs with
  | nil => exact rel.pure _
  | cons v rest ih =>
    cases v with
    | entity e => exact rel.bind ih fun _ => rel.pure _
    | null => exact ih
    | _ => exact rel.mismatch _ _

/-- An operand is evaluated, and has to be of the kind that is expected. -/
theorem operand {act act' : FrameM Value} {expect : Value → FrameM α} {next next' : α → FrameM β}
    (inside : Rel act act') (expects : ∀ v, Rel (expect v) (expect v))
    (rest : ∀ x, Rel (next x) (next' x)) :
    Rel (act >>= fun v => expect v >>= next) (act' >>= fun v => expect v >>= next') :=
  rel.bind inside fun v => rel.bind (expects v) rest

/-- Integer operands are evaluated before anything is done with them. -/
theorem binary {lhs lhs' rhs rhs' : FrameM Value} (left : Rel lhs lhs') (right : Rel rhs rhs')
    {op : BinaryOp} :
    Rel
      (do
        let a ← expectInt (← lhs)
        let b ← expectInt (← rhs)
        FrameM.arithmetic op a b)
      (do
        let a ← expectInt (← lhs')
        let b ← expectInt (← rhs')
        FrameM.arithmetic op a b) :=
  rel.operand left rel.expect_int fun a =>
    rel.operand right rel.expect_int fun b => rel.arithmetic op a b

/-- What a form with one operand does with its value. -/
theorem form_related {e operand : Expr} {form : Expr → Expr}
    (unary : e.operand? = some (operand, form)) (v : Value) :
    Rel (eval S m (form (.lit v))) (eval S m' (form (.lit v))) := by
  cases e <;> cases unary <;> simp only [eval, pure_bind]
  case child i =>
    refine rel.bind (rel.expect_entity v) fun _ => rel.bind (rel.node _) fun node => ?_
    cases node.children[i]? <;> exact rel.pure _
  case children =>
    exact rel.bind (rel.expect_entity v) fun _ => rel.bind (rel.node _) fun _ => rel.pure _
  case parent =>
    refine rel.bind (rel.expect_entity v) fun _ => rel.bind (rel.node _) fun node => ?_
    cases node.parent <;> exact rel.pure _
  case text =>
    exact rel.bind (rel.expect_entity v) fun _ => rel.bind (rel.node _) fun _ => rel.pure _
  case metadataFlag field => exact rel.bind (rel.expect_entity v) fun _ => rel.pure _
  case nodeEnv =>
    exact rel.bind (rel.expect_entity v) fun _ =>
      rel.bind (rel.read_session_e fun _ _ => Session.node_envs_unclaimed) fun _ => rel.pure _
  case childrenEnv =>
    exact rel.bind (rel.expect_entity v) fun _ =>
      rel.bind (rel.read_session_e fun _ _ => Session.node_envs_unclaimed) fun _ => rel.pure _
  case cast kind orRaise => exact rel.cast S kind orRaise v
  case not => exact rel.bind (rel.expect_bool v) fun _ => rel.pure _
  case isNull => exact rel.pure _
  case len => exact rel.bind (rel.expect_array v) fun _ => rel.pure _
  case logicVar i =>
    refine rel.bind (rel.expect_entity v) fun _ => rel.bind (rel.node _) fun node => ?_
    cases node.vars[i]? with
    | some v => exact rel.pure _
    | none => exact rel.fail _
  case logicValue =>
    exact rel.bind (rel.expect_logic_var v) fun _ =>
      rel.bind (rel.read_session_e fun _ _ => Session.logic_value_unclaimed) fun _ => rel.pure _

end Assembly
end FrameM

/-- Such a relation that holds of the forms that can be read differently as well, between
what `h` makes of them and what evaluation does. -/
structure Handling.Related (h : Handling) (S : Setting) (m m' : Machine)
    (Rel : ⦃α : Type⦄ → FrameM α → FrameM α → Prop) : Prop
    extends FrameM.Assembly S m m' Rel where
  arg : ∀ i, Rel (h.arg i) (eval S m' (.arg i))
  loc : ∀ around slot, Rel (h.loc around slot) (eval S m' (.loc slot))
  dynVar : ∀ v, Rel (h.dynVar v) (eval S m' (.dynVar v))
  handed : ∀ receiver p args,
    Rel (h.call receiver p args) ((Handling.plain S m').call receiver p args)
  constrain : ∀ p args enter enter', Rel enter enter' → Rel (h.constrain p args enter) enter'
  solve : ∀ e, Rel (h.solve e) ((Handling.plain S m').solve e)

section Related
open FrameM
variable {S : Setting} {m m' : Machine} {Rel : ⦃α : Type⦄ → FrameM α → FrameM α → Prop}
  {h : Handling}

/-- A reading that is special about solves at most. -/
theorem related_of_solve (rel : Composition S m m' Rel) {solve : Equation Entity → FrameM Bool}
    (solves : ∀ e, Rel (solve e) ((Handling.plain S m').solve e)) :
    ({ Handling.plain S m with solve } : Handling).Related S m m' Rel where
  toAssembly := rel.toAssembly
  arg i := by
    show Rel (eval S m (.arg i)) _
    rw [eval, eval]
    refine rel.bind (rel.read _) fun value => ?_
    cases value with
    | some value => exact rel.pure _
    | none => exact rel.fail _
  loc _ slot := by
    show Rel (eval S m (.loc slot)) _
    rw [eval, eval]
    exact rel.read _
  dynVar var := by
    show Rel (eval S m (.dynVar var)) _
    rw [eval, eval]
    refine rel.bind (rel.read _) fun value => ?_
    cases value with
    | some value => exact rel.pure _
    | none => exact rel.fail _
  handed _ _ _ := rel.bind (rel.read _) fun _ => rel.call _ _ _ _
  constrain _ _ _ _ entered := entered
  solve := solves

variable (rel : h.Related S m m' Rel)
include rel

/-- A form is related if its operand is and nothing else in it is evaluated. -/
theorem unary_related {around : List (Nat × Value)}
    {e operand : Expr} {form : Expr → Expr} (unary : e.operand? = some (operand, form))
    (inside : Rel (interpret h S m around operand) (eval S m' operand)) :
    Rel (interpret h S m around e) (eval S m' e) := by
  rw [interpret_operand unary, eval_operand unary]
  exact rel.bind inside (rel.form_related unary)

mutual

/-- What relates the forms that can be read differently, and what is left to the machines,
relates all expressions. The induction is on the expression, with one case for each form. -/
theorem interpret_related (around : List (Nat × Value)) :
    (e : Expr) → Rel (interpret h S m around e) (eval S m' e)
  | .lit value => by rw [interpret, eval, eval]; exact rel.pure _
  | .self => by rw [interpret, eval, eval]; exact rel.self
  | .raise message => by rw [interpret, eval, eval]; exact rel.fail _
  | .arg i => by rw [interpret]; exact rel.arg i
  | .loc slot => by rw [interpret]; exact rel.loc around slot
  | .dynVar var => by rw [interpret]; exact rel.dynVar var
  | .letIn slot value body => by
    rw [interpret, eval]
    exact rel.bind (interpret_related around value) fun _ =>
      rel.bind (rel.set_local _ _) fun _ => interpret_related _ body
  | .bindDynVar var value body => by
    rw [interpret, eval]
    exact rel.bind (interpret_related around value) fun _ =>
      rel.with_dyn_var _ _ (interpret_related around body)
  | .call receiver prop args => by
    rw [interpret, eval]
    exact rel.operand (interpret_related around receiver) rel.expect_entity fun _ =>
      rel.bind (interpret_all_related around args) fun _ => rel.handed _ _ _
  | .envGet env symbol first require => by
    rw [interpret, eval]
    refine rel.operand (interpret_related around env) rel.expect_env fun _ => ?_
    refine rel.operand (interpret_related around symbol) rel.expect_symbol fun _ => ?_
    simp only [eval, expectEnv, expectSymbol, pure_bind]
    split
    · refine rel.bind (rel.lookup_first _ _ _) fun found => ?_
      cases found <;> exact rel.pure _
    · exact rel.bind (rel.search _ _ _ _) fun _ => rel.pure _
  | .matchKind value arms => by
    rw [interpret, eval]
    exact rel.bind (interpret_related around value) fun v => interpret_arms_related around v arms
  | .ite c t e => by
    rw [interpret, eval]
    refine rel.operand (interpret_related around c) rel.expect_bool fun holds => ?_
    split
    · exact interpret_related around t
    · exact interpret_related around e
  | .binary .and lhs rhs => by
    rw [interpret, eval]
    refine rel.operand (interpret_related around lhs) rel.expect_bool fun holds => ?_
    split
    · exact rel.operand (interpret_related around rhs) rel.expect_bool fun _ => rel.pure _
    · exact rel.pure _
  | .binary .or lhs rhs => by
    rw [interpret, eval]
    refine rel.operand (interpret_related around lhs) rel.expect_bool fun holds => ?_
    split
    · exact rel.pure _
    · exact rel.operand (interpret_related around rhs) rel.expect_bool fun _ => rel.pure _
  | .binary .eq lhs rhs | .binary .ne lhs rhs => by
    simp only [interpret, eval, pure_bind]
    exact rel.bind (interpret_related around lhs) fun _ =>
      rel.bind (interpret_related around rhs) fun _ => rel.pure _
  | .binary .add lhs rhs | .binary .sub lhs rhs | .binary .mul lhs rhs | .binary .lt lhs rhs
  | .binary .le lhs rhs => by
    simp only [interpret, eval]
    exact rel.binary (interpret_related around lhs) (interpret_related around rhs)
  | .array items => by
    rw [interpret, eval]
    exact rel.bind (interpret_all_related around items) fun _ => rel.pure _
  | .map items slot body => by
    rw [interpret, eval]
    refine rel.operand (interpret_related around items) rel.expect_array fun items => ?_
    refine rel.bind (rel.map (fun item => ?_) items.toList) fun _ => rel.pure _
    exact rel.bind (rel.set_local _ _) fun _ => interpret_related _ body
  | .domain var values origin => by
    rw [interpret, eval]
    refine rel.operand (interpret_related around var) rel.expect_logic_var fun _ => ?_
    refine rel.operand (interpret_related around values) rel.expect_array fun _ => ?_
    exact rel.bind (rel.candidates_of _) fun _ => rel.equation _
  | .bind a b relation origin => by
    rw [interpret, eval]
    refine rel.operand (interpret_related around a) rel.expect_logic_var fun _ => ?_
    refine rel.operand (interpret_related around b) rel.expect_logic_var fun _ => ?_
    cases relation with
    | none => exact rel.equation _
    | some prop => exact rel.constrain _ _ _ _ (rel.equation _)
  | .predicate var prop origin => by
    rw [interpret, eval]
    refine rel.operand (interpret_related around var) rel.expect_logic_var fun _ => ?_
    exact rel.constrain _ _ _ _ (rel.equation _)
  | .all items | .any items => by
    rw [interpret, eval]
    exact rel.bind (interpret_equations_related around items) fun _ => rel.equation _
  | .solve e => by
    rw [interpret, eval]
    refine rel.bind (interpret_related around e) fun v => ?_
    cases v with
    | equation id =>
      refine rel.bind (rel.read_session _) fun e => ?_
      have solved := rel.bind (rel.solve e) fun b => rel.pure (Value.bool b)
      simpa only [Handling.plain, bind_assoc] using solved
    | _ => exact rel.mismatch _ _
  | .child e _ | .children e | .parent e | .text e | .metadataFlag e _ | .nodeEnv e
  | .childrenEnv e | .cast e _ _ | .not e | .isNull e | .len e | .logicVar e _
  | .logicValue e => unary_related rel rfl (interpret_related around e)

theorem interpret_all_related (around : List (Nat × Value)) :
    (es : List Expr) → Rel (interpretAll h S m around es) (evalAll S m' es)
  | [] => by rw [interpretAll, evalAll]; exact rel.pure _
  | e :: rest => by
    rw [interpretAll, evalAll]
    exact rel.bind (interpret_related around e) fun _ =>
      rel.bind (interpret_all_related around rest) fun _ => rel.pure _

theorem interpret_equations_related (around : List (Nat × Value)) :
    (es : List Expr) → Rel (interpretEquations h S m around es) (evalEquations S m' es)
  | [] => by rw [interpretEquations, evalEquations]; exact rel.pure _
  | e :: rest => by
    rw [interpretEquations, evalEquations]
    exact rel.operand (interpret_related around e) rel.equations_of fun _ =>
      rel.bind (interpret_equations_related around rest) fun _ => rel.pure _

theorem interpret_arms_related (around : List (Nat × Value)) (value : Value) :
    (arms : List (ArmPattern × Expr)) →
      Rel (interpretArms h S m around value arms) (evalArms S m' value arms)
  | [] => by rw [interpretArms, evalArms]; exact rel.no_match S value
  | (p, body) :: rest => by
    rw [interpretArms, evalArms]
    refine rel.bind (rel.accepts S p value) fun fits => ?_
    split
    · exact rel.bind (rel.set_local _ _) fun _ => interpret_related _ body
    · exact interpret_arms_related around value rest

end

end Related

/-- The plain reading is evaluation. -/
theorem interpret_plain (S : Setting) (m : Machine) (around : List (Nat × Value)) (e : Expr) :
    interpret (.plain S m) S m around e = eval S m e := by
  have rel : FrameM.Composition S m m fun _ act act' => act = act' :=
    { pure := fun _ => rfl
      read := fun _ => rfl
      look := fun _ => rfl
      set_local := fun _ _ => rfl
      equation := fun _ => rfl
      bind := fun first rest => by rw [first, funext rest]
      with_dyn_var := fun _ _ inside => by rw [inside]
      call := fun _ _ _ _ => rfl
      search := fun _ _ _ _ => rfl }
  exact interpret_related (related_of_solve rel fun _ => rfl) around e

/-- What is left to the machines relates all they evaluate. -/
theorem FrameM.Congruence.eval_related {S : Setting} {m m' : Machine}
    {Rel : ⦃α : Type⦄ → FrameM α → FrameM α → Prop} (rel : Congruence S m m' Rel) (e : Expr) :
    Rel (eval S m e) (eval S m' e) := by
  rw [← interpret_plain S m []]
  have plain : (Handling.plain S m).Related S m m' Rel :=
    related_of_solve rel.toComposition fun e => rel.bind (rel.read _) fun _ => rel.solve e _
  exact interpret_related plain [] e

end Trellis
