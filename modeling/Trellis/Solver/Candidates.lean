import Trellis.Handle
import Std.Data.HashMap

/-! What is known about each variable of an equation while it is being solved:
nothing yet, or a list of candidates. Once a variable has candidates it can
only lose some of them, and every change brings the table closer to one that
cannot change any more; `Tighter` says so, and the solver ends because of it. -/
namespace Trellis.Solver

/-- The variables of an equation in order of first appearance, and the candidates
of those that something has supplied with any. -/
structure Candidates (V : Type) where
  vars : List VarId
  known : Std.HashMap VarId (List V)
  listed : ∀ v, v ∈ known → v ∈ vars

namespace Candidates

/-- All variables without candidates. -/
def unknown (vars : List VarId) : Candidates V := ⟨vars, ∅, by simp⟩

instance : Inhabited (Candidates V) := ⟨unknown []⟩

/-- The candidates of a variable, if something has supplied them. -/
def get? (c : Candidates V) (v : VarId) : Option (List V) := c.known[v]?

theorem mem_vars {c : Candidates V} (h : c.get? v = some values) : v ∈ c.vars :=
  c.listed v (Std.HashMap.mem_iff_isSome_getElem?.2 (by rw [← get?, h]; rfl))

/-- Give a variable new candidates. -/
def put (c : Candidates V) (v : VarId) (values : List V) (h : v ∈ c.vars) : Candidates V where
  vars := c.vars
  known := c.known.insert v values
  listed w held := by
    rcases Std.HashMap.mem_insert.1 held with eq | old
    · exact eq_of_beq eq ▸ h
    · exact c.listed w old

theorem get?_put (c : Candidates V) (h : v ∈ c.vars) (values : List V) (w : VarId) :
    (c.put v values h).get? w = if v = w then some values else c.get? w := by
  simp [get?, put, Std.HashMap.getElem?_insert]

/-- Give a variable new candidates if the table lists it. -/
def set (c : Candidates V) (v : VarId) (values : List V) : Candidates V :=
  if h : v ∈ c.vars then c.put v values h else c

/-- How many variables are without candidates. -/
def free (c : Candidates V) : Nat := c.vars.countP fun v => (c.get? v).isNone

/-- How many candidates there are in all. -/
def total (c : Candidates V) : Nat :=
  c.vars.foldr (fun v n => ((c.get? v).map List.length).getD 0 + n) 0

/-- Fewer variables without candidates, or as many and fewer candidates. -/
def Tighter (d c : Candidates V) : Prop :=
  d.free < c.free ∨ d.free = c.free ∧ d.total < c.total

theorem Tighter.trans {c d e : Candidates V} (h : Tighter e d) (k : Tighter d c) :
    Tighter e c := by
  unfold Tighter at *
  omega

/-- A tighter table is the smaller one, in the order by which propagation ends. -/
theorem Tighter.decreases {c d : Candidates V} (h : Tighter d c) :
    Prod.Lex (· < ·) (· < ·) (d.free, d.total) (c.free, c.total) :=
  h.elim (Prod.Lex.left _ _ ·) fun ⟨same, less⟩ => same ▸ Prod.Lex.right _ less

private theorem countP_lt {p q : α → Bool} (fewer : ∀ x, q x = true → p x = true)
    {xs : List α} (mem : v ∈ xs) (hp : p v = true) (hq : q v = false) :
    xs.countP q < xs.countP p := by
  induction xs with
  | nil => cases mem
  | cons x rest ih =>
    have within : rest.countP q ≤ rest.countP p := List.countP_mono_left fun y _ => fewer y
    rcases List.mem_cons.1 mem with rfl | later
    · simp only [List.countP_cons, hp, hq]
      simp
      omega
    · have := ih later
      have := fewer x
      grind

private theorem foldr_add_lt {f g : α → Nat} (le : ∀ x, f x ≤ g x) {xs : List α}
    (mem : v ∈ xs) (lt : f v < g v) :
    xs.foldr (fun x n => f x + n) 0 < xs.foldr (fun x n => g x + n) 0 := by
  have within (ys : List α) :
      ys.foldr (fun x n => f x + n) 0 ≤ ys.foldr (fun x n => g x + n) 0 := by
    induction ys with
    | nil => simp
    | cons y rest ih => simp only [List.foldr_cons]; have := le y; omega
  induction xs with
  | nil => cases mem
  | cons x rest ih =>
    simp only [List.foldr_cons]
    rcases List.mem_cons.1 mem with rfl | later
    · have := within rest
      omega
    · have := ih later
      have := le x
      omega

/-- Supplying a variable that had no candidates tightens the table. -/
theorem put_supplied (c : Candidates V) (h : v ∈ c.vars) (none : c.get? v = none)
    (values : List V) : Tighter (c.put v values h) c := by
  refine .inl (countP_lt (v := v) (fun w free => ?_) h (by rw [none]; rfl) ?_)
  · rw [get?_put] at free
    split at free
    · cases free
    · exact free
  · rw [get?_put, if_pos rfl]; rfl

/-- Taking candidates away tightens the table. -/
theorem put_narrowed (c : Candidates V) (held : c.get? v = some old) (values : List V)
    (fewer : values.length < old.length) : Tighter (c.put v values (mem_vars held)) c := by
  have listed := mem_vars held
  refine .inr ⟨?_, foldr_add_lt (v := v) (fun w => ?_) listed ?_⟩
  · refine congrArg (c.vars.countP ·) (funext fun w => ?_)
    rw [get?_put]
    split
    · next eq => rw [← eq, held]; rfl
    · rfl
  · rw [get?_put]
    split
    · next eq => rw [← eq, held]; exact Nat.le_of_lt fewer
    · exact Nat.le_refl _
  · rw [get?_put, if_pos rfl, held]; exact fewer

end Candidates

/-- What applying one constraint did to the table `c`. -/
inductive Effect (c : Candidates V) where
  | unchanged
  | tightened (next : Candidates V) (tighter : next.Tighter c)
  | emptied (var : VarId)

/-- Replace the candidates of a variable by some of them. -/
def narrow (c : Candidates V) (v : VarId) (values : List V) : Effect c :=
  match held : c.get? v with
  | some old =>
    if values.isEmpty then .emptied v
    else if fewer : values.length < old.length then
      .tightened (c.put v values (Candidates.mem_vars held)) (c.put_narrowed held values fewer)
    else .unchanged
  | none =>
    if listed : v ∈ c.vars then
      if values.isEmpty then .emptied v
      else .tightened (c.put v values listed) (c.put_supplied listed held values)
    else .unchanged

/-- What follows from doing `first` and then something to the table it left. -/
def Effect.after {c : Candidates V} (tighter : Candidates.Tighter d c) : Effect d → Effect c
  | unchanged => .tightened d tighter
  | tightened next h => .tightened next (h.trans tighter)
  | emptied v => .emptied v

end Trellis.Solver
