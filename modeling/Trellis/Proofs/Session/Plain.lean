import Trellis.Proofs.Session.Evaluation
import Trellis.Proofs.Session.Following

/-! Expressions that make and solve no equations. Their evaluation by one machine is
followed by that of every machine that answers the same calls and lookups. -/
namespace Trellis

namespace Expr

mutual

/-- Whether an expression neither builds an equation nor solves one nor asks for a
solved variable. -/
def isPlain : Expr → Bool
  | lit _ | self | arg _ | loc _ | dynVar _ | raise _ => true
  | child e _ | children e | parent e | text e | metadataFlag e _ | nodeEnv e | childrenEnv e
  | cast e _ _ | not e | isNull e | len e | logicVar e _ => e.isPlain
  | letIn _ a b | bindDynVar _ a b | envGet a b _ _ | binary _ a b | map a _ b =>
    a.isPlain && b.isPlain
  | ite c t e => c.isPlain && t.isPlain && e.isPlain
  | call receiver _ args => receiver.isPlain && arePlain args
  | matchKind value arms => value.isPlain && armsArePlain arms
  | array items => arePlain items
  | domain .. | bind .. | predicate .. | all _ | any _ | solve _ | logicValue _ => false

def arePlain : List Expr → Bool
  | [] => true
  | e :: rest => e.isPlain && arePlain rest

def armsArePlain : List (ArmPattern × Expr) → Bool
  | [] => true
  | (_, e) :: rest => e.isPlain && armsArePlain rest

end

end Expr

/-- A body that is a plain expression, or none at all. -/
def Body.IsPlain : Body → Prop
  | .expr body => body.isPlain = true
  | .external _ => False
  | .abstract _ | .pending => True

/-- A language in which every body is plain. -/
def Language.IsPlain (l : Language) : Prop :=
  ∀ index i, l.implementation? index = some i → i.body.IsPlain

variable {K : Pairing} {m : Machine} {ms : ℕ → Machine}

namespace FrameM

section Operands

theorem follows_expect_entity (v : Value) :
    Follows K (expectEntity v) (fun _ => expectEntity v) := by
  cases v <;> first | exact follows_pure _ | exact follows_fail _

theorem follows_expect_bool (v : Value) : Follows K (expectBool v) (fun _ => expectBool v) := by
  cases v <;> first | exact follows_pure _ | exact follows_fail _

theorem follows_expect_int (v : Value) : Follows K (expectInt v) (fun _ => expectInt v) := by
  cases v <;> first | exact follows_pure _ | exact follows_fail _

theorem follows_expect_symbol (v : Value) :
    Follows K (expectSymbol v) (fun _ => expectSymbol v) := by
  cases v <;> first | exact follows_pure _ | exact follows_fail _

theorem follows_expect_array (v : Value) : Follows K (expectArray v) (fun _ => expectArray v) := by
  cases v <;> first | exact follows_pure _ | exact follows_fail _

theorem follows_expect_env (v : Value) : Follows K (expectEnv v) (fun _ => expectEnv v) := by
  cases v <;> first | exact follows_pure _ | exact follows_fail _

theorem follows_arithmetic (op : BinaryOp) (a b : Int) :
    Follows K (arithmetic op a b) (fun _ => arithmetic op a b) := by
  have range (n : Int) : Follows K (checked n) (fun _ => checked n) := by
    unfold checked
    split
    · exact follows_pure _
    · exact follows_fail _
  cases op <;> first | exact range _ | exact follows_pure _

theorem follows_is_a (S : Setting) (e : Entity) (kind : KindId) :
    Follows K (isA S e kind) (fun _ => isA S e kind) :=
  follows_node (fun _ a b later _ => by rw [later.kind]) fun _ => follows_pure _

theorem follows_cast (S : Setting) (kind : KindId) (orRaise : Bool) (v : Value) :
    Follows K (cast S kind orRaise v) (fun _ => cast S kind orRaise v) := by
  cases v with
  | entity e =>
    refine follows_bind (follows_is_a S e kind) fun fits => ?_
    split
    · exact follows_pure _
    · split
      · exact follows_mismatch _ _
      · exact follows_pure _
  | null => exact follows_pure _
  | _ => exact follows_mismatch _ _

theorem follows_accepts (S : Setting) (p : ArmPattern) (v : Value) :
    Follows K (accepts S p v) (fun _ => accepts S p v) := by
  unfold accepts
  split
  · exact follows_pure _
  · exact follows_is_a S _ _
  · exact follows_pure _

theorem follows_no_match (S : Setting) (v : Value) {acts : ℕ → FrameM α} :
    Follows K (noMatch S v) acts := by
  cases v with
  | entity e =>
    refine fun f => SessionM.follows_refused fun s => ?_
    unfold noMatch FrameM.node
    rw [out_bind, out_session, bind_assoc, SessionM.run_bind, EvalM.node_eq]
    cases s.tree.node? e.node with
    | none => exact ⟨_, rfl⟩
    | some a => exact ⟨_, rfl⟩
  | _ => exact follows_fail _

theorem read_node_envs_eq (n : NodeId) (s : Session) :
    SessionM.readE (fun s => s.nodeEnvs n) s = match s.tree.node? n with
      | none => (.error (.failure (.of (.tree (.unknownNode n)))), s)
      | some a => match a.envs with
        | some envs => (.ok envs, s)
        | none => (.error (.failure (.of (.notPopulated n))), s) := by
  show SessionM.ofExcept (s.nodeEnvs n) s = _
  unfold Session.nodeEnvs Tree.node
  cases s.tree.node? n with
  | none => rfl
  | some a => dsimp only; cases a.envs <;> rfl

/-- A node that is populated keeps its environments. -/
theorem follows_node_envs (n : NodeId) :
    Follows K (session (SessionM.readE fun s => s.nodeEnvs n))
      (fun _ => session (SessionM.readE fun s => s.nodeEnvs n)) := by
  refine follows_session fun u => ?_
  unfold SessionM.FollowsAt
  rw [read_node_envs_eq]
  cases held : u.tree.node? n with
  | none => exact ⟨K.course_refl u, fun w envs v _ ran => nomatch ran⟩
  | some a =>
    dsimp only
    cases given : a.envs with
    | none => exact ⟨K.course_refl u, fun w envs v _ ran => nomatch ran⟩
    | some envs =>
      refine ⟨K.course_refl u, fun w x v paired ran ahead => .inl ⟨w, ?_⟩⟩
      cases ran
      obtain ⟨b, there, later, -⟩ := K.nodes paired ahead held
      refine ⟨paired, .of_forall fun _ => ?_⟩
      rw [read_node_envs_eq, there]
      simp only [later.envs _ given]

end Operands

/-- An operand is evaluated, and has to be of the kind that is expected. -/
theorem follows_operand {act : FrameM Value} {acts : ℕ → FrameM Value} {expect : Value → FrameM α}
    {next : α → FrameM β} {nexts : ℕ → α → FrameM β} (inside : Follows K act acts)
    (expects : ∀ v, Follows K (expect v) (fun _ => expect v))
    (rest : ∀ x, Follows K (next x) (nexts · x)) :
    Follows K (act >>= fun v => expect v >>= next)
      (fun k => acts k >>= fun v => expect v >>= nexts k) :=
  follows_bind inside fun v => follows_bind (expects v) rest

theorem arithmetic_follows {lhs rhs : FrameM Value} {lhss rhss : ℕ → FrameM Value}
    (left : Follows K lhs lhss) (right : Follows K rhs rhss) {op : BinaryOp} :
    Follows K (do
      let a ← expectInt (← lhs)
      let b ← expectInt (← rhs)
      arithmetic op a b) (fun k => do
      let a ← expectInt (← lhss k)
      let b ← expectInt (← rhss k)
      arithmetic op a b) :=
  follows_operand left follows_expect_int fun a =>
    follows_operand right follows_expect_int fun b => follows_arithmetic op a b

section Eval
variable (l : Language) (c c' : EvalConfig)

mutual

/-- A plain expression is evaluated alike by machines that answer alike. -/
theorem eval_follows (machine : m.Follows K ms) : (e : Expr) → e.isPlain = true →
    Follows K (eval ⟨l, c⟩ m e) (fun k => eval ⟨l, c'⟩ (ms k) e)
  | .lit value, _ => by simp only [eval]; exact follows_pure _
  | .self, _ => by simp only [eval]; exact follows_read _
  | .arg i, _ => by
    simp only [eval]
    refine follows_bind (follows_read _) fun value => ?_
    cases value with
    | some value => exact follows_pure _
    | none => exact follows_fail _
  | .loc slot, _ => by simp only [eval]; exact follows_read _
  | .letIn slot value body, plain => by
    simp only [Expr.isPlain, Bool.and_eq_true] at plain
    simp only [eval]
    exact follows_bind (eval_follows machine value plain.1) fun _ =>
      follows_bind (follows_set_local _ _) fun _ => eval_follows machine body plain.2
  | .dynVar var, _ => by
    simp only [eval]
    refine follows_bind (follows_read _) fun value => ?_
    cases value with
    | some value => exact follows_pure _
    | none => exact follows_fail _
  | .bindDynVar var value body, plain => by
    simp only [Expr.isPlain, Bool.and_eq_true] at plain
    simp only [eval]
    exact follows_bind (eval_follows machine value plain.1) fun _ =>
      follows_with_dyn_var _ _ (eval_follows machine body plain.2)
  | .child e i, plain => by
    simp only [eval]
    refine follows_operand (eval_follows machine e plain) follows_expect_entity fun entity => ?_
    refine follows_node (fun _ a b later _ => by rw [later.children]) fun node => ?_
    cases node.children[i]? <;> exact follows_pure _
  | .children e, plain => by
    simp only [eval]
    refine follows_operand (eval_follows machine e plain) follows_expect_entity fun entity => ?_
    exact follows_node (fun _ a b later _ => by rw [later.children]) fun _ => follows_pure _
  | .parent e, plain => by
    simp only [eval]
    refine follows_operand (eval_follows machine e plain) follows_expect_entity fun entity => ?_
    refine follows_node (fun _ a b _ parent => by rw [parent]) fun node => ?_
    cases node.parent <;> exact follows_pure _
  | .text e, plain => by
    simp only [eval]
    refine follows_operand (eval_follows machine e plain) follows_expect_entity fun entity => ?_
    exact follows_node (fun _ a b later _ => by rw [later.text]) fun _ => follows_pure _
  | .metadataFlag e field, plain => by
    simp only [eval]
    exact follows_operand (eval_follows machine e plain) follows_expect_entity fun _ =>
      follows_pure _
  | .call receiver prop args, plain => by
    simp only [Expr.isPlain, Bool.and_eq_true] at plain
    simp only [eval]
    refine follows_operand (eval_follows machine receiver plain.1) follows_expect_entity fun _ => ?_
    refine follows_bind (eval_all_follows machine args plain.2) fun _ =>
      follows_bind (follows_read _) fun _ => ?_
    exact follows_session (machine.call _ _ _ _)
  | .nodeEnv e, plain => by
    simp only [eval]
    refine follows_operand (eval_follows machine e plain) follows_expect_entity fun _ => ?_
    exact follows_bind (follows_node_envs _) fun _ => follows_pure _
  | .childrenEnv e, plain => by
    simp only [eval]
    refine follows_operand (eval_follows machine e plain) follows_expect_entity fun _ => ?_
    exact follows_bind (follows_node_envs _) fun _ => follows_pure _
  | .envGet env symbol first require, plain => by
    simp only [Expr.isPlain, Bool.and_eq_true] at plain
    simp only [eval]
    refine follows_operand (eval_follows machine env plain.1) follows_expect_env fun _ => ?_
    refine follows_operand (eval_follows machine symbol plain.2) follows_expect_symbol fun _ => ?_
    split
    · refine follows_bind (follows_session (machine.lookup_first _ _ _)) fun found => ?_
      cases found <;> exact follows_pure _
    · exact follows_bind (follows_session (machine.search _ _ _ _)) fun _ => follows_pure _
  | .cast value kind orRaise, plain => by
    simp only [eval]
    exact follows_bind (eval_follows machine value plain) fun v =>
      follows_cast ⟨l, c⟩ kind orRaise v
  | .matchKind value arms, plain => by
    simp only [Expr.isPlain, Bool.and_eq_true] at plain
    simp only [eval]
    exact follows_bind (eval_follows machine value plain.1) fun v =>
      eval_arms_follows machine v arms plain.2
  | .ite cond t e, plain => by
    simp only [Expr.isPlain, Bool.and_eq_true] at plain
    simp only [eval]
    refine follows_operand (eval_follows machine cond plain.1.1) follows_expect_bool fun holds => ?_
    cases holds with
    | true => exact eval_follows machine t plain.1.2
    | false => exact eval_follows machine e plain.2
  | .binary .and lhs rhs, plain => by
    simp only [Expr.isPlain, Bool.and_eq_true] at plain
    simp only [eval]
    refine follows_operand (eval_follows machine lhs plain.1) follows_expect_bool fun holds => ?_
    cases holds with
    | true => exact follows_operand (eval_follows machine rhs plain.2) follows_expect_bool fun _ =>
        follows_pure _
    | false => exact follows_pure _
  | .binary .or lhs rhs, plain => by
    simp only [Expr.isPlain, Bool.and_eq_true] at plain
    simp only [eval]
    refine follows_operand (eval_follows machine lhs plain.1) follows_expect_bool fun holds => ?_
    cases holds with
    | true => exact follows_pure _
    | false => exact follows_operand (eval_follows machine rhs plain.2) follows_expect_bool fun _ =>
        follows_pure _
  | .binary .eq lhs rhs, plain => by
    simp only [Expr.isPlain, Bool.and_eq_true] at plain
    simp only [eval]
    exact follows_bind (eval_follows machine lhs plain.1) fun _ =>
      follows_bind (eval_follows machine rhs plain.2) fun _ => follows_pure _
  | .binary .ne lhs rhs, plain => by
    simp only [Expr.isPlain, Bool.and_eq_true] at plain
    simp only [eval]
    exact follows_bind (eval_follows machine lhs plain.1) fun _ =>
      follows_bind (eval_follows machine rhs plain.2) fun _ => follows_pure _
  | .binary .add lhs rhs, plain => by
    simp only [Expr.isPlain, Bool.and_eq_true] at plain
    simp only [eval]
    exact arithmetic_follows (eval_follows machine lhs plain.1) (eval_follows machine rhs plain.2)
  | .binary .sub lhs rhs, plain => by
    simp only [Expr.isPlain, Bool.and_eq_true] at plain
    simp only [eval]
    exact arithmetic_follows (eval_follows machine lhs plain.1) (eval_follows machine rhs plain.2)
  | .binary .mul lhs rhs, plain => by
    simp only [Expr.isPlain, Bool.and_eq_true] at plain
    simp only [eval]
    exact arithmetic_follows (eval_follows machine lhs plain.1) (eval_follows machine rhs plain.2)
  | .binary .lt lhs rhs, plain => by
    simp only [Expr.isPlain, Bool.and_eq_true] at plain
    simp only [eval]
    exact arithmetic_follows (eval_follows machine lhs plain.1) (eval_follows machine rhs plain.2)
  | .binary .le lhs rhs, plain => by
    simp only [Expr.isPlain, Bool.and_eq_true] at plain
    simp only [eval]
    exact arithmetic_follows (eval_follows machine lhs plain.1) (eval_follows machine rhs plain.2)
  | .not e, plain => by
    simp only [eval]
    exact follows_operand (eval_follows machine e plain) follows_expect_bool fun _ => follows_pure _
  | .isNull e, plain => by
    simp only [eval]
    exact follows_bind (eval_follows machine e plain) fun _ => follows_pure _
  | .raise message, _ => by simp only [eval]; exact follows_fail _
  | .array items, plain => by
    simp only [eval]
    exact follows_bind (eval_all_follows machine items plain) fun _ => follows_pure _
  | .map items slot body, plain => by
    simp only [Expr.isPlain, Bool.and_eq_true] at plain
    simp only [eval]
    refine follows_operand (eval_follows machine items plain.1) follows_expect_array fun items => ?_
    refine follows_bind (follows_map (fun item => ?_) items.toList) fun _ => follows_pure _
    exact follows_bind (follows_set_local _ _) fun _ => eval_follows machine body plain.2
  | .len items, plain => by
    simp only [eval]
    exact follows_operand (eval_follows machine items plain) follows_expect_array fun _ =>
      follows_pure _
  | .logicVar e i, plain => by
    simp only [eval]
    refine follows_operand (eval_follows machine e plain) follows_expect_entity fun _ => ?_
    refine follows_node (fun _ a b later _ => by rw [later.vars]) fun node => ?_
    cases node.vars[i]? with
    | some v => exact follows_pure _
    | none => exact follows_fail _

theorem eval_all_follows (machine : m.Follows K ms) : (es : List Expr) → Expr.arePlain es = true →
    Follows K (evalAll ⟨l, c⟩ m es) (fun k => evalAll ⟨l, c'⟩ (ms k) es)
  | [], _ => by simp only [evalAll]; exact follows_pure _
  | e :: rest, plain => by
    simp only [Expr.arePlain, Bool.and_eq_true] at plain
    simp only [evalAll]
    exact follows_bind (eval_follows machine e plain.1) fun _ =>
      follows_bind (eval_all_follows machine rest plain.2) fun _ => follows_pure _

theorem eval_arms_follows (machine : m.Follows K ms) (value : Value) :
    (arms : List (ArmPattern × Expr)) → Expr.armsArePlain arms = true →
    Follows K (evalArms ⟨l, c⟩ m value arms) (fun k => evalArms ⟨l, c'⟩ (ms k) value arms)
  | [], _ => by simp only [evalArms]; exact follows_no_match _ _
  | (p, body) :: rest, plain => by
    simp only [Expr.armsArePlain, Bool.and_eq_true] at plain
    simp only [evalArms]
    refine follows_bind (follows_accepts ⟨l, c⟩ p value) fun fits => ?_
    cases fits with
    | true => exact follows_bind (follows_set_local _ _) fun _ => eval_follows machine body plain.1
    | false => exact eval_arms_follows machine value rest plain.2

end

end Eval

end FrameM
end Trellis
