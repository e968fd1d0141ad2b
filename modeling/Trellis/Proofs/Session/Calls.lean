import Trellis.Proofs.Session.Moves
import Trellis.Session.Call

/-! What a call of a property comes to. Either it is refused, and then the session
is as it was, or it is answered by the body for the receiver's kind; whether it is
refused depends on nothing but the tree and on the dynamic variables that the
property declares. -/
namespace Trellis

/-- A call that a body answers. The key is the call as it is remembered: of the
dynamic variables that the caller has bound it holds those the property declares. -/
structure Called (S : Setting) (s : Session) (key : MemoKey) (dynVars : DynVars) (node : Node)
    (info : PropertyInfo) (index : Nat) : Prop where
  held : s.tree.node? key.entity.node = some node
  known : S.language.property? key.prop = some info
  arity : key.args.length = info.params.length
  fitting : ∀ p ∈ key.args.zip info.paramTypes, s.conforms S.language p.2 p.1 = true
  declared : dynVars.restrict info.dynVars = .ok key.dynVars
  dispatched : S.language.dispatch node.kind key.prop = some (.runs index)

/-- A session one call deeper. -/
def Session.deeper (s : Session) : Session := { s with depth := s.depth + 1 }

def Session.shallower (s : Session) : Session := { s with depth := s.depth - 1 }

/-- Whether a session can go one call deeper. -/
def Session.Within (s : Session) (limit : Nat) : Prop := limit = 0 ∨ s.depth < limit

namespace EvalM
open SessionM

/-- The body that answers a call. -/
def bodyOf (S : Setting) (m : Machine) (kind : KindId) (index : Nat) (key : MemoKey) :
    EvalM Value :=
  match S.language.implementation? index with
  | some i => runBody S m i kind key.entity key.args key.dynVars
  | none => noImplementation S.language kind key.prop

/-- Run the body one call deeper, and check what it gives. -/
def compute (S : Setting) (m : Machine) (kind : KindId) (info : PropertyInfo) (index : Nat)
    (key : MemoKey) : EvalM Value := do
  let value ← deeper S.config.maxCallDepth (bodyOf S m kind index key)
  expectType S.language info.returns value
  return value

/-- Answer a call, from memory if that is possible. -/
def answer (S : Setting) (m : Machine) (kind : KindId) (info : PropertyInfo) (index : Nat)
    (key : MemoKey) : EvalM Value :=
  if S.config.memoize && info.memoized then memoized info.name key (compute S m kind info index key)
  else compute S m kind info index key

/-- Run a body one call deeper, and check what it gives. -/
def computeBy (S : Setting) (info : PropertyInfo) (body : EvalM Value) : EvalM Value := do
  let value ← deeper S.config.maxCallDepth body
  expectType S.language info.returns value
  return value

/-- Answer a call, from memory if that is possible, whatever it is that runs the body. -/
def answerBy (S : Setting) (info : PropertyInfo) (key : MemoKey) (body : EvalM Value) :
    EvalM Value :=
  if S.config.memoize && info.memoized then memoized info.name key (computeBy S info body)
  else computeBy S info body

/-- Call a property, whatever it is that runs the body for a kind. -/
def callBy (S : Setting) (body : KindId → Nat → MemoKey → EvalM Value) (entity : Entity)
    (prop : PropId) (args : List Value) (dynVars : DynVars) : EvalM Value :=
  SessionM.mapError (·.claimedBy entity.node prop) do
    let l := S.language
    let kind := (← EvalM.node entity.node).kind
    match l.property? prop with
    | none => noImplementation l kind prop
    | some info => do
      checkArgs l info args
      match dynVars.restrict info.dynVars with
      | .error var => fail (.missingDynVar (l.dynVarName var))
      | .ok declared =>
        match l.dispatch kind prop with
        | none | some .missing => noImplementation l kind prop
        | some (.runs index) =>
          let key : MemoKey := ⟨prop, entity, args, declared⟩
          if S.config.memoize && info.memoized then
            memoized info.name key (computeBy S info (body kind index key))
          else computeBy S info (body kind index key)

theorem call_by_body_of (S : Setting) (m : Machine) : callBy S (bodyOf S m) = callWith S m := rfl

theorem expect_type_eq (l : Language) (type : ValueType) (v : Value) (s : Session) :
    expectType l type v s =
      if s.conforms l type v then (.ok (), s)
      else (.error (.failure (.of (.typeMismatch type.text v.typeName))), s) := by
  unfold expectType
  rw [run_bind, run_read]
  cases s.conforms l type v <;> rfl

/-- Checks, one after the other, that all pass. -/
theorem checks_pass {l : Language} {ps : List (Value × ValueType)} {s : Session}
    (fits : ∀ p ∈ ps, s.conforms l p.2 p.1 = true) :
    (ps.forM fun p => expectType l p.2 p.1) s = (.ok (), s) := by
  induction ps with
  | nil => rfl
  | cons p rest ih =>
    have first : expectType l p.2 p.1 s = (.ok (), s) := by
      rw [expect_type_eq, if_pos (fits p List.mem_cons_self)]
    show (expectType l p.2 p.1 >>= fun _ => rest.forM fun p => expectType l p.2 p.1) s = _
    rw [run_bind, first]
    exact ih fun q mem => fits q (List.mem_cons_of_mem p mem)

theorem checks_cases (l : Language) (ps : List (Value × ValueType)) (s : Session) :
    (∀ p ∈ ps, s.conforms l p.2 p.1 = true) ∨
    ∃ e, (ps.forM fun p => expectType l p.2 p.1) s = (.error (.failure e), s) := by
  induction ps with
  | nil => exact .inl fun p mem => (List.not_mem_nil mem).elim
  | cons p rest ih =>
    have eq : ((p :: rest).forM fun p => expectType l p.2 p.1) s =
        (expectType l p.2 p.1 >>= fun _ => rest.forM fun p => expectType l p.2 p.1) s := rfl
    rw [eq, run_bind, expect_type_eq]
    by_cases fits : s.conforms l p.2 p.1 = true
    · rw [if_pos fits]
      exact ih.imp_left fun all => List.forall_mem_cons.2 ⟨fits, all⟩
    · rw [if_neg fits]
      exact .inr ⟨_, rfl⟩

theorem check_args_pass {l : Language} {info : PropertyInfo} {args : List Value} {s : Session}
    (arity : args.length = info.params.length)
    (fits : ∀ p ∈ args.zip info.paramTypes, s.conforms l p.2 p.1 = true) :
    checkArgs l info args s = (.ok (), s) := by
  unfold checkArgs
  rw [if_neg (by simp [arity])]
  exact checks_pass fits

theorem check_args_cases (l : Language) (info : PropertyInfo) (args : List Value) (s : Session) :
    args.length = info.params.length ∧
      (∀ p ∈ args.zip info.paramTypes, s.conforms l p.2 p.1 = true) ∨
    ∃ e, checkArgs l info args s = (.error (.failure e), s) := by
  unfold checkArgs
  by_cases same : args.length = info.params.length
  · rw [if_neg (by simp [same])]
    exact (checks_cases l (args.zip info.paramTypes) s).imp_left fun all => ⟨same, all⟩
  · rw [if_pos (bne_iff_ne.2 same)]
    exact .inr ⟨_, rfl⟩

theorem node_eq (n : NodeId) (s : Session) : EvalM.node n s = match s.tree.node? n with
    | some node => (.ok node, s)
    | none => (.error (.failure (.of (.tree (.unknownNode n)))), s) := by
  unfold EvalM.node Tree.node
  cases s.tree.node? n <;> rfl

/-- An operation that leaves the session alone; where it fails no call has claimed the failure
yet. -/
def Looks (act : EvalM α) : Prop :=
  ∀ s, ∃ r : Except Fault α, act s = (r.mapError fun fault => .failure (.of fault), s)

theorem looks_fail (fault : Fault) : (EvalM.fail fault : EvalM α).Looks :=
  fun _ => ⟨.error fault, rfl⟩

theorem looks_bind {act : EvalM α} {next : α → EvalM β} (first : act.Looks)
    (rest : ∀ x, (next x).Looks) : (act >>= next).Looks := by
  intro s
  obtain ⟨fault | x, same⟩ := first s
  · exact ⟨.error fault, by rw [run_bind, same]; rfl⟩
  · obtain ⟨r, there⟩ := rest x s
    exact ⟨r, by rw [run_bind, same]; exact there⟩

theorem node_looks (n : NodeId) : (EvalM.node n).Looks := by
  intro s
  rw [node_eq]
  cases s.tree.node? n with
  | none => exact ⟨.error (.tree (.unknownNode n)), rfl⟩
  | some node => exact ⟨.ok node, rfl⟩

theorem expect_type_looks (l : Language) (type : ValueType) (v : Value) :
    (expectType l type v).Looks := by
  intro s
  rw [expect_type_eq]
  split
  · exact ⟨.ok (), rfl⟩
  · exact ⟨.error (.typeMismatch type.text v.typeName), rfl⟩

theorem check_args_looks (l : Language) (info : PropertyInfo) (args : List Value) :
    (checkArgs l info args).Looks := by
  have checks (ps : List (Value × ValueType)) :
      (ps.forM fun p => expectType l p.2 p.1).Looks := by
    induction ps with
    | nil => exact fun _ => ⟨.ok (), rfl⟩
    | cons p rest ih => exact looks_bind (expect_type_looks l p.2 p.1) fun _ => ih
  unfold checkArgs
  split
  · exact looks_bind (looks_fail _) fun _ => checks _
  · exact checks _

/-- A call is refused, with the session as it was, or what runs the body answers it. -/
theorem call_by_cases (S : Setting) (body : KindId → Nat → MemoKey → EvalM Value) (entity : Entity)
    (prop : PropId) (args : List Value) (dynVars : DynVars) (s : Session) :
    (∃ e, callBy S body entity prop args dynVars s = (.error (.failure e), s)) ∨
    ∃ declared node info index, Called S s ⟨prop, entity, args, declared⟩ dynVars node info index ∧
      callBy S body entity prop args dynVars s =
        (answerBy S info ⟨prop, entity, args, declared⟩
          (body node.kind index ⟨prop, entity, args, declared⟩)).mapError
          (·.claimedBy entity.node prop) s := by
  unfold callBy mapError
  rw [run_bind, node_eq]
  cases held : s.tree.node? entity.node with
  | none => exact .inl ⟨_, rfl⟩
  | some node =>
    dsimp only
    cases known : S.language.property? prop with
    | none => exact .inl ⟨_, rfl⟩
    | some info =>
      dsimp only
      rw [run_bind]
      rcases check_args_cases S.language info args s with ⟨arity, fitting⟩ | ⟨e, checked⟩
      · rw [check_args_pass arity fitting]
        dsimp only
        cases declared : dynVars.restrict info.dynVars with
        | error var => exact .inl ⟨_, rfl⟩
        | ok cut =>
          dsimp only
          cases dispatched : S.language.dispatch node.kind prop with
          | none => exact .inl ⟨_, rfl⟩
          | some found =>
            cases found with
            | missing => exact .inl ⟨_, rfl⟩
            | runs index =>
              exact .inr ⟨cut, node, info, index,
                ⟨held, known, arity, fitting, declared, dispatched⟩, rfl⟩
      · rw [checked]
        exact .inl ⟨_, rfl⟩

/-- A call is refused, with the session as it was, or a body answers it. -/
theorem call_with_cases (S : Setting) (m : Machine) (entity : Entity) (prop : PropId)
    (args : List Value) (dynVars : DynVars) (s : Session) :
    (∃ e, callWith S m entity prop args dynVars s = (.error (.failure e), s)) ∨
    ∃ declared node info index, Called S s ⟨prop, entity, args, declared⟩ dynVars node info index ∧
      callWith S m entity prop args dynVars s =
        (answer S m node.kind info index ⟨prop, entity, args, declared⟩).mapError
          (·.claimedBy entity.node prop) s :=
  call_by_cases S (bodyOf S m) entity prop args dynVars s

/-! What computing an answer comes to, one lemma for each way it can go. -/

section Compute
variable {S : Setting} {m : Machine} {kind : KindId} {info : PropertyInfo} {index : Nat}
  {key : MemoKey} {s t : Session}

theorem compute_too_deep (deep : ¬ s.Within S.config.maxCallDepth) :
    compute S m kind info index key s =
      (.error (.failure (.of (.depthExceeded S.config.maxCallDepth))), s) := by
  have limited : S.config.maxCallDepth ≠ 0 ∧ S.config.maxCallDepth ≤ s.depth := by
    unfold Session.Within at deep
    omega
  unfold compute
  rw [run_bind, deeper, if_pos limited]

theorem deeper_eq {act : EvalM Value} (within : s.Within limit) :
    deeper limit act s = ((act s.deeper).1, (act s.deeper).2.shallower) := by
  unfold deeper
  rw [if_neg (by unfold Session.Within at within; omega)]
  rfl

/-- What is computed depends on nothing but what the body does one call deeper. -/
theorem compute_congr {m' : Machine}
    (same : s.Within S.config.maxCallDepth →
      bodyOf S m kind index key s.deeper = bodyOf S m' kind index key s.deeper) :
    compute S m kind info index key s = compute S m' kind info index key s := by
  by_cases within : s.Within S.config.maxCallDepth
  · unfold compute
    rw [run_bind, run_bind, deeper_eq within, deeper_eq within, same within]
  · rw [compute_too_deep within, compute_too_deep within]

theorem compute_of_body (within : s.Within S.config.maxCallDepth)
    (ran : bodyOf S m kind index key s.deeper = (.ok v, t))
    (fits : t.shallower.conforms S.language info.returns v = true) :
    compute S m kind info index key s = (.ok v, t.shallower) := by
  unfold compute
  rw [run_bind, deeper_eq within, ran]
  simp only [run_bind, expect_type_eq, fits]
  rfl

theorem compute_of_failure (within : s.Within S.config.maxCallDepth)
    (failed : bodyOf S m kind index key s.deeper = (.error halt, t)) :
    compute S m kind info index key s = (.error halt, t.shallower) := by
  unfold compute
  rw [run_bind, deeper_eq within, failed]

theorem compute_state (within : s.Within S.config.maxCallDepth) :
    (compute S m kind info index key s).2 = (bodyOf S m kind index key s.deeper).2.shallower := by
  unfold compute
  rw [run_bind, deeper_eq within]
  rcases bodyOf S m kind index key s.deeper with ⟨halt | v, t⟩
  · rfl
  · simp only [run_bind, expect_type_eq]
    cases t.shallower.conforms S.language info.returns v <;> rfl

theorem compute_ok (ran : compute S m kind info index key s = (.ok v, t)) :
    s.Within S.config.maxCallDepth ∧ ∃ t', bodyOf S m kind index key s.deeper = (.ok v, t') ∧
      t'.shallower.conforms S.language info.returns v = true ∧ t = t'.shallower := by
  by_cases within : s.Within S.config.maxCallDepth
  · refine ⟨within, ?_⟩
    rcases body : bodyOf S m kind index key s.deeper with ⟨halt | x, t'⟩
    · rw [compute_of_failure within body] at ran
      cases ran
    · unfold compute at ran
      rw [run_bind, deeper_eq within, body] at ran
      simp only [run_bind, expect_type_eq] at ran
      cases fits : t'.shallower.conforms S.language info.returns x with
      | true => simp only [fits, if_true] at ran; cases ran; exact ⟨t', rfl, fits, rfl⟩
      | false => simp only [fits] at ran; cases ran
  · rw [compute_too_deep within] at ran
    cases ran

end Compute

/-- A result that is given comes from memory, or it was computed and is remembered. -/
theorem memoized_ok {act : EvalM Value} (ran : memoized name key act s = (.ok v, t)) :
    s.memo.done[key]? = some v ∧ t = { s with memo := s.memo.hit } ∨
    s.memo.done[key]? = none ∧ key ∉ s.memo.running ∧
      ∃ t', act { s with memo := s.memo.start key } = (.ok v, t') ∧
        t = { t' with memo := t'.memo.finish key v } := by
  unfold memoized at ran
  split at ran
  · next known => cases ran; exact .inl ⟨known, rfl⟩
  · next unknown =>
    split at ran
    · cases ran
    · next idle =>
      obtain ⟨t', computed, rfl⟩ := bracket_ok ran
      exact .inr ⟨unknown, idle, t', computed, rfl⟩

theorem memoized_of_known {act : EvalM Value} (known : s.memo.done[key]? = some v) :
    memoized name key act s = (.ok v, { s with memo := s.memo.hit }) := by
  unfold memoized
  rw [known]

theorem memoized_of_computed {act : EvalM Value} (unknown : s.memo.done[key]? = none)
    (idle : key ∉ s.memo.running) (ran : act { s with memo := s.memo.start key } = (.ok v, t)) :
    memoized name key act s = (.ok v, { t with memo := t.memo.finish key v }) := by
  unfold memoized bracket
  rw [unknown]
  dsimp only
  rw [if_neg idle, ran]

theorem memoized_of_failed {act : EvalM Value} (unknown : s.memo.done[key]? = none)
    (idle : key ∉ s.memo.running)
    (failed : act { s with memo := s.memo.start key } = (.error halt, t)) :
    memoized name key act s = (.error halt, { t with memo := t.memo.abandon key }) := by
  unfold memoized bracket
  rw [unknown]
  dsimp only
  rw [if_neg idle, failed]

theorem memoized_of_running {act : EvalM Value} (unknown : s.memo.done[key]? = none)
    (running : key ∈ s.memo.running) :
    memoized name key act s = (.error (.failure (.of (.infiniteRecursion name))), s) := by
  unfold memoized
  rw [unknown]
  exact if_pos running

end EvalM

section Called
variable {S : Setting} {s t : Session} {key : MemoKey} {dynVars : DynVars} {node : Node}
  {info : PropertyInfo} {index : Nat}

open EvalM in
/-- Where a body answers a call, that is what the call does. -/
theorem called_eq (called : Called S s key dynVars node info index) (m : Machine) :
    callWith S m key.entity key.prop key.args dynVars s =
      (answer S m node.kind info index key).mapError
        (·.claimedBy key.entity.node key.prop) s := by
  unfold callWith SessionM.mapError callUnclaimed
  rw [SessionM.run_bind, node_eq, called.held]
  simp only [called.known, SessionM.run_bind, check_args_pass called.arity called.fitting,
    called.declared, called.dispatched]
  rfl

/-- Of the dynamic variables only those count that the property declares. -/
theorem called_declared (called : Called S s key dynVars node info index) :
    Called S s key key.dynVars node info index :=
  { called with declared := DynVars.restrict_restrict called.declared }

end Called

end Trellis
