import Trellis.Proofs.DynVars
import Trellis.Proofs.Session.Calls
import Trellis.Proofs.Session.Congruence
import Trellis.Proofs.Session.Trusted
import Trellis.Proofs.Session.Uncached

/-! Analyses that read expressions in another way. Expressions are evaluated in two
places: the body of a property is, when the property is called, and the expressions
of an environment specification are, when a node is populated. Here both are given
with the reading of expressions left open, and where the checks of a build have
passed, a reading that trusts them makes no difference in either place. -/
namespace Trellis
open FrameM

/-! ## Calls -/

namespace EvalM

/-- An answer depends on no more of a body than what it does in sessions with the same
tree. -/
theorem answer_by_congr (S : Setting) {body body' : EvalM Value} (info : PropertyInfo)
    (key : MemoKey) {s : Session} (same : ∀ t, t.tree = s.tree → body t = body' t) :
    answerBy S info key body s = answerBy S info key body' s := by
  have deeper (limit : Nat) (t : Session) (tree : t.tree = s.tree) :
      deeper limit body t = deeper limit body' t := by
    unfold EvalM.deeper SessionM.bracket
    rw [same { t with depth := t.depth + 1 } tree]
  have computed (t : Session) (tree : t.tree = s.tree) :
      computeBy S info body t = computeBy S info body' t := by
    unfold computeBy
    rw [SessionM.run_bind, SessionM.run_bind, deeper _ t tree]
  unfold answerBy
  split
  · unfold memoized SessionM.bracket
    rw [computed { s with memo := s.memo.start key } rfl]
  · exact computed s rfl

/-- What a call does depends on what is bound around it, and on bodies, only through the cut
of the bindings and the answer that is given for it. -/
theorem call_by_congr_across {S : Setting} {body body' : KindId → Nat → MemoKey → EvalM Value}
    {entity : Entity} {prop : PropId} {args : List Value} {d d' : DynVars} {s : Session}
    (same : ∀ info, S.language.property? prop = some info →
      (∃ var, d.restrict info.dynVars = .error var ∧ d'.restrict info.dynVars = .error var) ∨
      ∃ cut cut', d.restrict info.dynVars = .ok cut ∧ d'.restrict info.dynVars = .ok cut' ∧
        ∀ node index, Called S s ⟨prop, entity, args, cut⟩ d node info index →
          answerBy S info ⟨prop, entity, args, cut⟩
              (body node.kind index ⟨prop, entity, args, cut⟩) s =
            answerBy S info ⟨prop, entity, args, cut'⟩
              (body' node.kind index ⟨prop, entity, args, cut'⟩) s) :
    callBy S body entity prop args d s = callBy S body' entity prop args d' s := by
  unfold callBy SessionM.mapError
  rw [SessionM.run_bind, SessionM.run_bind, node_eq]
  cases held : s.tree.node? entity.node with
  | none => rfl
  | some node =>
    dsimp only
    cases known : S.language.property? prop with
    | none => rfl
    | some info =>
      dsimp only
      rw [SessionM.run_bind, SessionM.run_bind]
      rcases check_args_cases S.language info args s with ⟨arity, fitting⟩ | ⟨e, checked⟩
      · rw [check_args_pass arity fitting]
        dsimp only
        rcases same info known with ⟨var, missing, missing'⟩ | ⟨cut, cut', declared, declared', answers⟩
        · rw [missing, missing']
        rw [declared, declared']
        dsimp only
        cases dispatched : S.language.dispatch node.kind prop with
        | none => rfl
        | some found =>
          cases found with
          | missing => rfl
          | runs index =>
            have answered :=
              answers node index ⟨held, known, arity, fitting, declared, dispatched⟩
            unfold answerBy at answered
            dsimp only
            rw [answered]
      · rw [checked]

/-- Bodies count only where they answer a call, and there in sessions with the same tree. -/
theorem call_by_congr_at {S : Setting} {body body' : KindId → Nat → MemoKey → EvalM Value}
    (same : ∀ s key dynVars node info index, Called S s key dynVars node info index →
      ∀ t, t.tree = s.tree → body node.kind index key t = body' node.kind index key t) :
    callBy S body = callBy S body' := by
  funext entity prop args dynVars s
  refine call_by_congr_across fun info known => ?_
  cases declared : dynVars.restrict info.dynVars with
  | error var => exact .inl ⟨var, rfl, rfl⟩
  | ok cut =>
    exact .inr ⟨cut, cut, rfl, rfl, fun node index called =>
      answer_by_congr S info ⟨prop, entity, args, cut⟩
        (same s ⟨prop, entity, args, cut⟩ dynVars node info index called)⟩

/-- Bodies count only where they answer a call. -/
theorem call_by_congr {S : Setting} {body body' : KindId → Nat → MemoKey → EvalM Value}
    (same : ∀ s key dynVars node info index, Called S s key dynVars node info index →
      body node.kind index key = body' node.kind index key) : callBy S body = callBy S body' :=
  call_by_congr_at fun s key dynVars node info index called t _ =>
    congrFun (same s key dynVars node info index called) t

/-- The body that answers a call, its expression read as `h` does. -/
def bodyRead (S : Setting) (m : Machine) (h : Handling) (kind : KindId) (index : Nat)
    (key : MemoKey) : EvalM Value :=
  match S.language.implementation? index with
  | none => noImplementation S.language kind key.prop
  | some i =>
    match i.body with
    | .expr body =>
      runIn (.new key.entity key.args key.dynVars i.frameSize) (interpret h S m [] body)
    | _ => runBody S m i kind key.entity key.args key.dynVars

end EvalM

/-- The machine that follows activities nested up to a depth, where the bodies of
properties are read as `h` does. -/
def Machine.reading (S : Setting) (h : Machine → Handling) : (depth : Nat) → Machine
  | 0 => .exhausted
  | n + 1 =>
    let m := Machine.reading S h n
    ⟨EvalM.callBy S (EvalM.bodyRead S m (h m)), EvalM.searchWith m, EvalM.resolveWith S m⟩

/-- Where all forms are read plainly, the machine is the usual one. -/
theorem reading_plain (S : Setting) (depth : Nat) :
    Machine.reading S (.plain S) depth = .upTo S depth := by
  have bodies (m : Machine) : EvalM.bodyRead S m (.plain S m) = EvalM.bodyOf S m := by
    funext kind index key
    unfold EvalM.bodyRead EvalM.bodyOf
    cases S.language.implementation? index with
    | none => rfl
    | some i =>
      dsimp only
      unfold EvalM.runBody
      cases i.body with
      | expr body => exact congrArg (runIn _) (interpret_plain S m [] body)
      | _ => rfl
  induction depth with
  | zero => rfl
  | succ n ih =>
    rw [Machine.reading, ih, bodies, EvalM.call_by_body_of]
    rfl

/-! ## Populations -/

section Spec
variable (run : Expr → FrameM Value)

def evalEnvBy (e : Expr) : FrameM EnvId := do return (← expectEnv (← run e)).env

def initialEnvBy (ambient : EnvId) : List EnvAction → FrameM EnvId
  | [] => pure ambient
  | .setInitialEnv e :: rest => do initialEnvBy (← evalEnvBy run e) rest
  | _ :: rest => initialEnvBy ambient rest

def addToEnvBy (n : NodeId) (ambient : EnvId) (key value : Expr) (metadata : Metadata)
    (dest : Option Expr) : FrameM Unit := do
  let noKey : FrameM Unit := session (modify (Session.reportNullKey · n))
  match ← run key with
  | .null => noKey
  | .symbol symbol =>
    if symbol.isEmpty then noKey
    else match ← run value with
      | .null => return
      | .entity e => do
        let target ← match dest with
          | none => pure ambient
          | some dest => do
            match ← run dest with
            | .env target => pure target.env
            | v => mismatch "env" v
        session (EvalM.changeEnvs (·.addBinding target symbol e metadata))
      | v => mismatch "entity" v
  | v => mismatch "symbol" v

def runActionBy (n : NodeId) (ambient : EnvId) : EnvAction → FrameM EnvId
  | .setInitialEnv _ => pure ambient
  | .addToEnv key value metadata dest => do
    addToEnvBy run n ambient key value metadata dest
    return ambient
  | .addEnv => session fun s =>
    let (env, envs) := s.envs.create (some ambient) (some n)
    (.ok env, { s with envs })
  | .reference nodes through metadata rebind => do
    let targets ← referenceTargets (← run nodes)
    let rebind ← match rebind with
      | none => pure none
      | some (old, new) => do
        let old ← evalEnvBy run old
        let new ← evalEnvBy run new
        pure (some (old, new))
    targets.forM fun e => addReference ambient (.property e through) ⟨metadata, rebind⟩
    return ambient
  | .referenceUnit name => do
    addReference ambient (.unit name) .none
    return ambient

/-- Run the actions of a node, whatever it is that evaluates their expressions. -/
def runSpecBy (n : NodeId) (ambient : EnvId) (spec : EnvSpec) : EvalM NodeEnvs :=
  runIn (.new (.bare n) [] .none spec.frameSize) do
    let own ← initialEnvBy run ambient spec.actions
    let inner ← spec.actions.foldlM (runActionBy run n) own
    return ⟨own, inner⟩

end Spec

section SpecEq
variable {run : Expr → FrameM Value} {S : Setting} {m : Machine}

theorem eval_env_by_eq (same : run e = eval S m e) : evalEnvBy run e = evalEnv S m e := by
  unfold evalEnvBy evalEnv
  rw [same]

theorem initial_env_by_eq {actions : List EnvAction}
    (same : ∀ action ∈ actions, ∀ e ∈ action.exprs, run e = eval S m e) (ambient : EnvId) :
    initialEnvBy run ambient actions = initialEnv S m ambient actions := by
  induction actions generalizing ambient with
  | nil => rfl
  | cons action rest ih =>
    have later := ih fun action mem => same action (List.mem_cons_of_mem _ mem)
    have here := same action List.mem_cons_self
    cases action with
    | setInitialEnv e =>
      rw [initialEnvBy, initialEnv, eval_env_by_eq (here e List.mem_cons_self)]
      exact congrArg (evalEnv S m e >>= ·) (funext later)
    | _ => exact later ambient

theorem run_action_by_eq {action : EnvAction} (same : ∀ e ∈ action.exprs, run e = eval S m e)
    (n : NodeId) (ambient : EnvId) :
    runActionBy run n ambient action = runAction S m n ambient action := by
  cases action with
  | addToEnv key value metadata dest =>
    have evaluated : addToEnvBy (eval S m) n ambient key value metadata dest =
        addToEnv S m n ambient key value metadata dest := rfl
    have added : addToEnvBy run n ambient key value metadata dest =
        addToEnvBy (eval S m) n ambient key value metadata dest := by
      unfold addToEnvBy
      rw [same key (by simp [EnvAction.exprs]), same value (by simp [EnvAction.exprs])]
      cases dest with
      | none => rfl
      | some dest =>
        dsimp only
        rw [same dest (by simp [EnvAction.exprs])]
    rw [runActionBy, runAction, added, evaluated]
  | reference nodes through metadata rebind =>
    rcases rebind with _ | ⟨old, new⟩
    · rw [runActionBy, runAction, same nodes (by simp [EnvAction.exprs])]
    · rw [runActionBy, runAction, same nodes (by simp [EnvAction.exprs])]
      dsimp only
      rw [eval_env_by_eq (same old (by simp [EnvAction.exprs])),
        eval_env_by_eq (same new (by simp [EnvAction.exprs]))]
  | _ => rfl

/-- Of evaluation only that of the expressions in it counts for a specification. -/
theorem run_spec_by_eq {spec : EnvSpec} (same : ∀ e ∈ spec.exprs, run e = eval S m e)
    (n : NodeId) (ambient : EnvId) :
    runSpecBy run n ambient spec = runSpec S m n ambient spec := by
  have each : ∀ action ∈ spec.actions, ∀ e ∈ action.exprs, run e = eval S m e :=
    fun action mem e among => same e (List.mem_flatMap.2 ⟨action, mem, among⟩)
  have acted : ∀ (actions : List EnvAction) (own : EnvId),
      (∀ action ∈ actions, ∀ e ∈ action.exprs, run e = eval S m e) →
      actions.foldlM (runActionBy run n) own = actions.foldlM (runAction S m n) own := by
    intro actions
    induction actions with
    | nil => exact fun _ _ => rfl
    | cons action rest ih =>
      intro own same
      rw [List.foldlM_cons, List.foldlM_cons, run_action_by_eq (same action List.mem_cons_self)]
      exact congrArg (runAction S m n own action >>= ·) (funext fun inner =>
        ih inner fun action mem => same action (List.mem_cons_of_mem _ mem))
  unfold runSpecBy runSpec
  simp only [initial_env_by_eq each, acted spec.actions _ each]

end SpecEq

/-! ## Languages that were built -/

theorem spec_listed {l : Language} {s : KindEnvSpec} (found : l.envSpec kind = some s) :
    s ∈ l.envSpecs := by
  obtain ⟨ancestor, -, held⟩ := List.exists_of_findSome?_eq_some found
  exact Array.mem_of_find?_eq_some held

theorem FrameM.run_in_congr {frame : Frame} {act act' : FrameM α}
    (same : ∀ s, act frame s = act' frame s) : runIn frame act = runIn frame act' := by
  funext s
  unfold runIn
  rw [same s]

section Built
variable {declarations : List Declaration} {S : Setting} {m : Machine} {node : Node}
  (built : (Builder.declare declarations).build = .ok S.language)
include built

/-- In the frame of a call a reading that trusts the checks does as evaluation does. -/
theorem body_read_eq {h : Handling} (trusts : h.Trusts S m)
    (called : Called S s key dynVars node info index) :
    EvalM.bodyRead S m h node.kind index key = EvalM.bodyOf S m node.kind index key := by
  obtain ⟨same, resolved, -⟩ := Builder.build_ok built
  have indexed : S.language.Indexed := same ▸ Builder.declare_indexed declarations
  obtain ⟨i, found, its⟩ := Language.dispatch_runs indexed resolved called.dispatched
  unfold EvalM.bodyRead EvalM.bodyOf
  rw [found]
  dsimp only
  cases body : i.body with
  | expr e =>
    have clean := Builder.built_implementation built found
    unfold Definition.checkImplementation at clean
    rw [body, its, called.known] at clean
    have same := interpret_trusted trusts rfl ⟨[], []⟩ [] rfl e clean
    unfold EvalM.runBody
    rw [body]
    refine run_in_congr fun t => same _ t ⟨Nat.le_of_eq called.arity.symm, fun v mem => ?_⟩
    exact DynVars.restrict_binds called.declared v (by simpa using mem)
  | _ => rfl

/-- No call depends on how bodies are read, as long as the checks are trusted. -/
theorem reading_eq {h : Machine → Handling} (trusts : ∀ m, (h m).Trusts S m) (depth : Nat) :
    Machine.reading S h depth = .upTo S depth := by
  induction depth with
  | zero => rfl
  | succ n ih =>
    have bodies := EvalM.call_by_congr fun _ _ _ _ _ _ called =>
      body_read_eq built (trusts (.upTo S n)) called
    rw [Machine.reading, ih, up_to_succ, ← EvalM.call_by_body_of, bodies]

/-- Nor does a population. -/
theorem run_spec_read {h : Handling} (trusts : h.Trusts S m) {s : KindEnvSpec}
    (found : S.language.envSpec kind = some s) (n : NodeId) (ambient : EnvId) :
    runSpecBy (interpret h S m []) n ambient s.spec = runSpec S m n ambient s.spec := by
  refine run_spec_by_eq (fun e among => ?_) n ambient
  obtain ⟨action, mem, among⟩ := List.mem_flatMap.1 among
  have clean := Builder.built_action built (spec_listed found) mem
  have ofExpr := CheckContext.clean_action _ clean e among
  funext f t
  refine interpret_trusted trusts rfl ⟨[], []⟩ [] rfl e ofExpr f t ⟨Nat.zero_le _, ?_⟩
  exact fun v mem => (List.not_mem_nil mem).elim

/-- The property that a reference goes through can be called without arguments and
without dynamic variables. -/
theorem reference_ready {s : KindEnvSpec} (found : S.language.envSpec kind = some s)
    (mem : .reference nodes through metadata rebind ∈ s.spec.actions) :
    S.language.ready through 0 .none = true := by
  have clean := Builder.built_action built (spec_listed found) mem
  have ofReference := ((Report.clean_append _ _).1 clean).2
  exact Definition.ready_of_callable (CheckContext.clean_reference _ ofReference)
    fun v mem => (List.not_mem_nil mem).elim

end Built

end Trellis
