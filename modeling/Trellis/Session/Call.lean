import Trellis.Session.Perform

/-! Calling properties. A call is checked, its dynamic variables are cut down
to those the property declares, and the body for the receiver's kind runs,
unless the result is remembered from an earlier call. -/
namespace Trellis

mutual

/-- Whether a value is of a type, as far as the tree is known. -/
def Session.conforms (l : Language) (s : Session) : ValueType → Value → Bool
  | .any, _ | .unit, .unit | .bool, .bool _ | .int, .int _ | .symbol, .symbol _ | .env, .env _
  | .logicVar, .logicVar _ | .equation, .equation _ | .entity _, .null => true
  | .entity kind, .entity e => (s.tree.node? e.node).any fun n => l.isSubkind n.kind kind
  | .array element, .array ⟨items⟩ => s.conformsAll l element items
  | _, _ => false

/-- Whether every value of a list is of a type. -/
def Session.conformsAll (l : Language) (s : Session) (type : ValueType) : List Value → Bool
  | [] => true
  | v :: rest => s.conforms l type v && s.conformsAll l type rest

end

namespace EvalM

def expectType (l : Language) (type : ValueType) (v : Value) : EvalM Unit := do
  if !(← SessionM.read fun s => s.conforms l type v) then
    fail (.typeMismatch type.text v.typeName)

def checkArgs (l : Language) (info : PropertyInfo) (args : List Value) : EvalM Unit := do
  if args.length != info.params.length then
    fail (.arity info.name info.params.length args.length)
  (args.zip info.paramTypes).forM fun (v, type) => expectType l type v

/-- Run something one call deeper. -/
def deeper (limit : Nat) (act : EvalM α) : EvalM α := fun s =>
  if limit ≠ 0 ∧ limit ≤ s.depth then (.error (.failure (.of (.depthExceeded limit))), s)
  else SessionM.bracket (fun s => { s with depth := s.depth + 1 }) act
    (fun _ s => { s with depth := s.depth - 1 }) s

/-- Look a result up, or compute and remember it. To need a result while it is
being computed is a failure. -/
def memoized (name : String) (key : MemoKey) (act : EvalM Value) : EvalM Value := fun s =>
  match s.memo.done[key]? with
  | some value => (.ok value, { s with memo := s.memo.hit })
  | none =>
    if key ∈ s.memo.running then (.error (.failure (.of (.infiniteRecursion name))), s)
    else SessionM.bracket (fun s => { s with memo := s.memo.start key }) act
      (fun
        | .ok value => fun s => { s with memo := s.memo.finish key value }
        | .error _ => fun s => { s with memo := s.memo.abandon key }) s

def noImplementation (l : Language) (kind : KindId) (prop : PropId) : EvalM α :=
  fail (.dispatch (l.kindName kind) (l.propertyName prop))

/-- Run the body of an implementation. -/
def runBody (S : Setting) (m : Machine) (i : Implementation) (kind : KindId) (entity : Entity)
    (args : List Value) (dynVars : DynVars) : EvalM Value :=
  match i.body with
  | .expr body => FrameM.runIn (.new entity args dynVars i.frameSize) (eval S m body)
  | .external run => do
    let text ← SessionM.read fun s =>
      s.pool.text (((s.tree.node? entity.node).map (·.text)).getD .empty)
    runScript S m (run ⟨entity, i.prop, args, dynVars, text⟩)
  | .abstract _ | .pending => noImplementation S.language kind i.prop

def callUnclaimed (S : Setting) (m : Machine) (entity : Entity) (prop : PropId)
    (args : List Value) (dynVars : DynVars) : EvalM Value := do
  let l := S.language
  let kind := (← EvalM.node entity.node).kind
  match l.property? prop with
  | none => noImplementation l kind prop
  | some info => do
    checkArgs l info args
    match dynVars.restrict info.dynVars with
    | .error var => fail (.missingDynVar (l.dynVarName var))
    | .ok declared =>
      match l.dispatch kind prop with
      | none | some .missing => noImplementation l kind prop
      | some (.runs index) => do
        let run : EvalM Value := do
          let value ← deeper S.config.maxCallDepth <|
            match l.implementation? index with
            | some i => runBody S m i kind entity args declared
            | none => noImplementation l kind prop
          expectType l info.returns value
          return value
        if S.config.memoize && info.memoized then
          memoized info.name ⟨prop, entity, args, declared⟩ run
        else run

/-- Call a property on an entity. A failure belongs to the innermost call. -/
def callWith (S : Setting) (m : Machine) (entity : Entity) (prop : PropId) (args : List Value)
    (dynVars : DynVars) : EvalM Value :=
  (callUnclaimed S m entity prop args dynVars).mapError (·.claimedBy entity.node prop)

end EvalM
end Trellis
