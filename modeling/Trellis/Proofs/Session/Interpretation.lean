import Trellis.Proofs.Session.Frames

/-! Other ways to read expressions. Most forms of an expression look at nothing but
the values of their operands. The few that look at what is around them, at the
arguments, the local slots and the dynamic variables, and those that hand something
on to calls and to solves, can be read in another way while all the others are left
as they are. Such a reading also knows which binders enclose the place it has come
to, and what each of them bound. -/
namespace Trellis
open FrameM

/-- How the forms are read that look at what is around them. -/
structure Handling where
  arg : (index : Nat) → FrameM Value
  /-- A local slot, given the enclosing binders from the inside to the outside. -/
  loc : (around : List (Nat × Value)) → (slot : Nat) → FrameM Value
  dynVar : DynVarId → FrameM Value
  call : Entity → PropId → List Value → FrameM Value
  /-- Enter a constraint that asks a property with so many arguments. -/
  constrain : PropId → (args : Nat) → (enter : FrameM Value) → FrameM Value
  solve : Equation Entity → FrameM Bool

/-- The reading that evaluation gives these forms. -/
def Handling.plain (S : Setting) (m : Machine) : Handling where
  arg index := eval S m (.arg index)
  loc _ slot := eval S m (.loc slot)
  dynVar var := eval S m (.dynVar var)
  call receiver prop args := do
    let dynVars ← read (·.dynVars)
    session (m.call receiver prop args dynVars)
  constrain _ _ enter := enter
  solve e := do
    let dynVars ← read (·.dynVars)
    session (EvalM.solve S m e dynVars)

mutual

/-- Evaluate an expression inside the binders of `around`. -/
def interpret (h : Handling) (S : Setting) (m : Machine) (around : List (Nat × Value)) :
    Expr → FrameM Value
  | .lit value => eval S m (.lit value)
  | .self => eval S m .self
  | .raise message => eval S m (.raise message)
  | .arg i => h.arg i
  | .loc slot => h.loc around slot
  | .dynVar var => h.dynVar var
  | .letIn slot value body => do
    let value ← interpret h S m around value
    setLocal slot value
    interpret h S m ((slot, value) :: around) body
  | .map items slot body => do
    let items ← expectArray (← interpret h S m around items)
    let values ← items.toList.mapM fun item => do
      setLocal slot item
      interpret h S m ((slot, item) :: around) body
    return .array values.toArray
  | .matchKind value arms => do
    let value ← interpret h S m around value
    interpretArms h S m around value arms
  | .bindDynVar var value body => do
    let value ← interpret h S m around value
    withDynVar var value (interpret h S m around body)
  | .call receiver prop args => do
    let receiver ← expectEntity (← interpret h S m around receiver)
    let args ← interpretAll h S m around args
    h.call receiver prop args
  | .bind a b relation origin => do
    let a ← expectLogicVar (← interpret h S m around a)
    let b ← expectLogicVar (← interpret h S m around b)
    let enter := equation (.atom (.bind a b (relation.map PropId.pred) (some origin)))
    match relation with
    | none => enter
    | some prop => h.constrain prop 1 enter
  | .predicate var prop origin => do
    let v ← expectLogicVar (← interpret h S m around var)
    h.constrain prop 0 (equation (.atom (.predicate v prop.pred (some origin))))
  | .solve e => do
    match ← interpret h S m around e with
    | .equation id => do
      let e ← session (SessionM.read fun s => s.pool.equation id)
      return .bool (← h.solve e)
    | v => mismatch "equation" v
  | .domain var values origin => do
    let v ← expectLogicVar (← interpret h S m around var)
    let candidates ← candidatesOf (← expectArray (← interpret h S m around values)).toList
    equation (.atom (.domain v candidates (some origin)))
  | .all items => do equation (.all (← interpretEquations h S m around items))
  | .any items => do equation (.any (← interpretEquations h S m around items))
  | .array items => do return .array (← interpretAll h S m around items).toArray
  | .ite c t e => do
    if ← expectBool (← interpret h S m around c) then interpret h S m around t
    else interpret h S m around e
  | .binary .and lhs rhs => do
    if ← expectBool (← interpret h S m around lhs) then
      return .bool (← expectBool (← interpret h S m around rhs))
    else return .bool false
  | .binary .or lhs rhs => do
    if ← expectBool (← interpret h S m around lhs) then return .bool true
    else return .bool (← expectBool (← interpret h S m around rhs))
  | .binary .eq lhs rhs => do
    let a ← interpret h S m around lhs
    let b ← interpret h S m around rhs
    eval S m (.binary .eq (.lit a) (.lit b))
  | .binary .ne lhs rhs => do
    let a ← interpret h S m around lhs
    let b ← interpret h S m around rhs
    eval S m (.binary .ne (.lit a) (.lit b))
  | .binary op lhs rhs => do
    let a ← expectInt (← interpret h S m around lhs)
    let b ← expectInt (← interpret h S m around rhs)
    arithmetic op a b
  | .envGet env symbol first require => do
    let env ← expectEnv (← interpret h S m around env)
    let symbol ← expectSymbol (← interpret h S m around symbol)
    eval S m (.envGet (.lit (.env env)) (.lit (.symbol symbol)) first require)
  | .child e i => do eval S m (.child (.lit (← interpret h S m around e)) i)
  | .children e => do eval S m (.children (.lit (← interpret h S m around e)))
  | .parent e => do eval S m (.parent (.lit (← interpret h S m around e)))
  | .text e => do eval S m (.text (.lit (← interpret h S m around e)))
  | .metadataFlag e field => do eval S m (.metadataFlag (.lit (← interpret h S m around e)) field)
  | .nodeEnv e => do eval S m (.nodeEnv (.lit (← interpret h S m around e)))
  | .childrenEnv e => do eval S m (.childrenEnv (.lit (← interpret h S m around e)))
  | .cast e kind orRaise => do eval S m (.cast (.lit (← interpret h S m around e)) kind orRaise)
  | .not e => do eval S m (.not (.lit (← interpret h S m around e)))
  | .isNull e => do eval S m (.isNull (.lit (← interpret h S m around e)))
  | .len e => do eval S m (.len (.lit (← interpret h S m around e)))
  | .logicVar e i => do eval S m (.logicVar (.lit (← interpret h S m around e)) i)
  | .logicValue e => do eval S m (.logicValue (.lit (← interpret h S m around e)))

def interpretAll (h : Handling) (S : Setting) (m : Machine) (around : List (Nat × Value)) :
    List Expr → FrameM (List Value)
  | [] => pure []
  | e :: rest => do
    let v ← interpret h S m around e
    return v :: (← interpretAll h S m around rest)

def interpretEquations (h : Handling) (S : Setting) (m : Machine) (around : List (Nat × Value)) :
    List Expr → FrameM (List (Equation Entity))
  | [] => pure []
  | e :: rest => do
    let es ← equationsOf (← interpret h S m around e)
    return es ++ (← interpretEquations h S m around rest)

def interpretArms (h : Handling) (S : Setting) (m : Machine) (around : List (Nat × Value))
    (value : Value) : List (ArmPattern × Expr) → FrameM Value
  | [] => noMatch S value
  | (p, body) :: rest => do
    if ← accepts S p value then
      setLocal p.slot (matched p value)
      interpret h S m ((p.slot, matched p value) :: around) body
    else interpretArms h S m around value rest

end

/-! ## Forms that look at nothing but one operand -/

/-- The operand of a form that does nothing with it but look at its value, and the
form around another operand. -/
def Expr.operand? : Expr → Option (Expr × (Expr → Expr))
  | child e i => some (e, (child · i))
  | children e => some (e, children)
  | parent e => some (e, parent)
  | text e => some (e, text)
  | metadataFlag e field => some (e, (metadataFlag · field))
  | nodeEnv e => some (e, nodeEnv)
  | childrenEnv e => some (e, childrenEnv)
  | cast e kind orRaise => some (e, (cast · kind orRaise))
  | not e => some (e, not)
  | isNull e => some (e, isNull)
  | len e => some (e, len)
  | logicVar e i => some (e, (logicVar · i))
  | logicValue e => some (e, logicValue)
  | _ => none

section Operand
variable {S : Setting} {m : Machine} {e operand : Expr} {form : Expr → Expr}

theorem eval_operand (unary : e.operand? = some (operand, form)) :
    eval S m e = eval S m operand >>= fun v => eval S m (form (.lit v)) := by
  cases e <;> cases unary <;> simp [eval]

theorem interpret_operand (unary : e.operand? = some (operand, form)) :
    interpret h S m around e =
      interpret h S m around operand >>= fun v => eval S m (form (.lit v)) := by
  cases e <;> cases unary <;> simp [interpret]

end Operand

/-! ## Readings that come to the same -/

/-- Two actions do the same in every frame that satisfies `pre`. -/
def FrameM.SameIn (pre : Frame → Prop) (act act' : FrameM α) : Prop :=
  ∀ (f : Frame) (s : Session), pre f → act f s = act' f s

section Same
variable {pre mid : Frame → Prop} {slots : List Nat}

theorem same_refl (act : FrameM α) : SameIn pre act act := fun _ _ _ => rfl

/-- Where the first steps do the same, what follows needs to do so only in frames
that the first step can leave behind, and for what it can give. -/
theorem same_bind_given {act act' : FrameM α} {next next' : α → FrameM β} {given : α → Prop}
    (first : SameIn pre act act') (alters : AltersOnly slots act')
    (gives : ∀ f s x, (act' f s).1.1 = .ok x → given x)
    (carried : ∀ f g, f.AlikeBut slots g → pre f → mid g)
    (rest : ∀ x, given x → SameIn mid (next x) (next' x)) :
    SameIn pre (act >>= next) (act' >>= next') := by
  intro f s holds
  have there := alters f s
  have gave := gives f s
  rw [run_bind, run_bind, first f s holds]
  rcases ran : act' f s with ⟨⟨halt | x, g⟩, t⟩
  · rfl
  · rw [ran] at there gave
    exact rest x (gave x rfl) g t (carried f g there holds)

theorem same_bind {act act' : FrameM α} {next next' : α → FrameM β} (first : SameIn pre act act')
    (alters : AltersOnly slots act') (carried : ∀ f g, f.AlikeBut slots g → pre f → mid g)
    (rest : ∀ x, SameIn mid (next x) (next' x)) :
    SameIn pre (act >>= next) (act' >>= next') := by
  have anything : ∀ f s x, (act' f s).1.1 = .ok x → True := fun _ _ _ _ => trivial
  exact same_bind_given first alters anything carried fun x _ => rest x

/-- What follows may be anything if it is the same. -/
theorem same_bind_left {act act' : FrameM α} (first : SameIn pre act act')
    (next : α → FrameM β) : SameIn pre (act >>= next) (act' >>= next) := by
  intro f s holds
  rw [run_bind, run_bind, first f s holds]

/-- The same for a condition on frames that such a step cannot break. -/
theorem same_bind_steady {act act' : FrameM α} {next next' : α → FrameM β}
    (steady : ∀ f g, f.AlikeBut slots g → pre f → pre g) (first : SameIn pre act act')
    (alters : AltersOnly slots act') (rest : ∀ x, SameIn pre (next x) (next' x)) :
    SameIn pre (act >>= next) (act' >>= next') :=
  same_bind first alters steady rest

theorem same_map {act act' : α → FrameM β} (steady : ∀ f g, f.AlikeBut slots g → pre f → pre g)
    (each : ∀ x, SameIn pre (act x) (act' x)) (alters : ∀ x, AltersOnly slots (act' x))
    (xs : List α) : SameIn pre (xs.mapM act) (xs.mapM act') := by
  induction xs with
  | nil => exact same_refl _
  | cons x xs ih =>
    simp only [List.mapM_cons]
    exact same_bind_steady steady (each x) (alters x) fun _ =>
      same_bind_steady steady ih (alters_map alters xs) fun _ => same_refl _

end Same

end Trellis
