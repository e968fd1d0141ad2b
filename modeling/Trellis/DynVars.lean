import Trellis.Value

/-! Bindings of dynamic variables, in the order of the variables' handles. Each
variable is bound at most once, so two sets of bindings are equal exactly when
they bind the same variables to the same values. Thanks to the order a binding is
found by halving what is left to search. -/
namespace Trellis

/-- In the order of handles, each variable at most once. -/
def DynVars.Ascending (bindings : List (DynVarId × Value)) : Prop :=
  bindings.Pairwise fun a b => a.1.raw < b.1.raw

structure DynVars where
  bindings : List (DynVarId × Value)
  ascending : DynVars.Ascending bindings
deriving DecidableEq, Repr

namespace DynVars

instance : Hashable DynVars := ⟨fun d => hash d.bindings⟩

def none : DynVars := ⟨[], .nil⟩

instance : Inhabited DynVars := ⟨none⟩

/-! ## Finding a variable -/

/-- The first place from `low` on whose variable does not come before `var`, and
`high` if there is none before that. A step looks at the place in the middle. -/
def bisect (bs : List (DynVarId × Value)) (var : DynVarId) : (steps low high : Nat) → Nat
  | 0, low, _ => low
  | steps + 1, low, high =>
    if low < high then
      let middle := low + (high - low) / 2
      if bs[middle]?.any (·.1.raw < var.raw) then bisect bs var steps (middle + 1) high
      else bisect bs var steps low middle
    else low

/-- The place of the variable's binding, or as a failure the place where one
belongs. There are never more steps than bindings. -/
def search (bs : List (DynVarId × Value)) (var : DynVarId) : Except Nat Nat :=
  let place := bisect bs var bs.length 0 bs.length
  if bs[place]?.any (·.1 = var) then .ok place else .error place

/-- How many bindings come before that of a variable. -/
def countBelow (bs : List (DynVarId × Value)) (var : DynVarId) : Nat :=
  bs.countP (·.1.raw < var.raw)

theorem countBelow_le (bs : List (DynVarId × Value)) (var : DynVarId) :
    countBelow bs var ≤ bs.length := List.countP_le_length

theorem countBelow_cons_below (first : w.raw < var.raw) (old : Value)
    (rest : List (DynVarId × Value)) :
    countBelow ((w, old) :: rest) var = countBelow rest var + 1 :=
  List.countP_cons_of_pos (decide_eq_true first)

/-- The bindings after one that does not come before the variable do not either. -/
theorem countBelow_cons_above (ascending : Ascending ((w, old) :: rest))
    (first : var.raw ≤ w.raw) : countBelow ((w, old) :: rest) var = 0 := by
  refine List.countP_eq_zero.2 fun b mem below => ?_
  have below : b.1.raw < var.raw := of_decide_eq_true below
  rcases List.mem_cons.1 mem with rfl | later
  · exact Nat.not_lt.2 first below
  · exact Nat.not_lt.2 first (Nat.lt_trans ((List.pairwise_cons.1 ascending).1 b later) below)

/-- In the order of handles, the bindings before a variable are the first ones. -/
theorem below_iff (ascending : Ascending bs) (held : bs[i]? = some b) :
    b.1.raw < var.raw ↔ i < countBelow bs var := by
  induction bs generalizing i with
  | nil => cases held
  | cons c rest ih =>
    obtain ⟨w, old⟩ := c
    obtain ⟨after, tail⟩ := List.pairwise_cons.1 ascending
    by_cases first : w.raw < var.raw
    · rw [countBelow_cons_below first]
      cases i with
      | zero =>
        cases held
        exact iff_of_true first (Nat.zero_lt_succ _)
      | succ i => rw [ih tail held, Nat.add_lt_add_iff_right]
    · rw [countBelow_cons_above ascending (Nat.le_of_not_lt first)]
      refine iff_of_false (fun below => ?_) (Nat.not_lt_zero i)
      rcases List.mem_cons.1 (List.mem_of_getElem? held) with rfl | later
      · exact first below
      · exact first (Nat.lt_trans (after b later) below)

/-- Halving comes to the place of the variable, as long as it is between the bounds and there
are steps enough. -/
theorem bisect_eq (ascending : Ascending bs) (above : low ≤ countBelow bs var)
    (beneath : countBelow bs var ≤ high) (within : high ≤ bs.length)
    (enough : high - low ≤ steps) : bisect bs var steps low high = countBelow bs var := by
  induction steps generalizing low high with
  | zero =>
    rw [bisect]
    omega
  | succ steps ih =>
    rw [bisect]
    split
    · next apart =>
      have middle : low + (high - low) / 2 < high := by omega
      obtain ⟨b, held⟩ : ∃ b, bs[low + (high - low) / 2]? = some b :=
        ⟨_, List.getElem?_eq_getElem (Nat.lt_of_lt_of_le middle within)⟩
      have side : b.1.raw < var.raw ↔ _ < countBelow bs var := below_iff ascending held
      simp only [held, Option.any_some, decide_eq_true_eq]
      split
      · next below => exact ih (side.1 below) beneath within (by omega)
      · next notBelow =>
        exact ih above (Nat.le_of_not_lt fun less => notBelow (side.2 less)) (by omega) (by omega)
    · omega

/-- What is done with the outcome of a search is done with that place. -/
theorem search_elim (ascending : Ascending bs) (found missing : Nat → α) :
    (match search bs var with
      | .ok place => found place
      | .error place => missing place) =
    if bs[countBelow bs var]?.any (·.1 = var) then found (countBelow bs var)
      else missing (countBelow bs var) := by
  unfold search
  rw [bisect_eq ascending (Nat.zero_le _) (countBelow_le bs var) (Nat.le_refl _) (Nat.sub_le _ _)]
  dsimp only
  cases bs[countBelow bs var]?.any (·.1 = var) <;> rfl

/-! ## Binding a variable -/

/-- Put a binding where it belongs, in place of an older one of its variable. -/
def insert (var : DynVarId) (value : Value) (bs : List (DynVarId × Value)) :
    List (DynVarId × Value) :=
  match search bs var with
  | .ok place => bs.set place (var, value)
  | .error place => bs.insertIdx place (var, value)

/-- The same, by passing over the bindings of earlier variables. -/
def insertSorted (var : DynVarId) (value : Value) :
    List (DynVarId × Value) → List (DynVarId × Value)
  | [] => [(var, value)]
  | (w, old) :: rest =>
    if var.raw < w.raw then (var, value) :: (w, old) :: rest
    else if var = w then (var, value) :: rest
    else (w, old) :: insertSorted var value rest

theorem insert_eq (ascending : Ascending bs) (var : DynVarId) (value : Value) :
    insert var value bs = insertSorted var value bs := by
  have placed : insert var value bs =
      if bs[countBelow bs var]?.any (·.1 = var) then bs.set (countBelow bs var) (var, value)
      else bs.insertIdx (countBelow bs var) (var, value) :=
    search_elim ascending _ _
  rw [placed]
  clear placed
  induction bs with
  | nil => rfl
  | cons c rest ih =>
    obtain ⟨w, old⟩ := c
    rw [insertSorted]
    by_cases before : var.raw < w.raw
    · have other : w ≠ var := by
        rintro rfl
        exact Nat.lt_irrefl _ before
      rw [countBelow_cons_above ascending (Nat.le_of_lt before), if_pos before]
      simp [other]
    · rw [if_neg before]
      by_cases same : var = w
      · subst same
        rw [countBelow_cons_above ascending (Nat.le_refl _), if_pos rfl]
        simp
      · have after : w.raw < var.raw := by
          have : var.raw ≠ w.raw := fun eq => same (by cases var; cases w; simp_all)
          omega
        rw [countBelow_cons_below after, List.getElem?_cons_succ, List.set_cons_succ,
          List.insertIdx_succ_cons, if_neg same, ← ih (List.pairwise_cons.1 ascending).2]
        split <;> rfl

theorem mem_insertSorted {b : DynVarId × Value} (h : b ∈ insertSorted var value bs) :
    b = (var, value) ∨ b ∈ bs := by
  induction bs with
  | nil => simpa [insertSorted] using h
  | cons c rest ih =>
    unfold insertSorted at h
    split at h
    · simpa using h
    · split at h
      · exact (List.mem_cons.1 h).imp id (List.mem_cons_of_mem _)
      · rcases List.mem_cons.1 h with rfl | later
        · exact .inr List.mem_cons_self
        · exact (ih later).imp id (List.mem_cons_of_mem _)

theorem Ascending.insertSorted (h : Ascending bs) (var : DynVarId) (value : Value) :
    Ascending (insertSorted var value bs) := by
  induction bs with
  | nil => exact List.pairwise_singleton _ _
  | cons c rest ih =>
    obtain ⟨w, old⟩ := c
    obtain ⟨after, tail⟩ := List.pairwise_cons.1 h
    unfold DynVars.insertSorted
    split
    · next before =>
      refine List.pairwise_cons.2 ⟨fun b held => ?_, h⟩
      rcases List.mem_cons.1 held with rfl | later
      · exact before
      · exact Nat.lt_trans before (after b later)
    · next notBefore =>
      split
      · next same => exact List.pairwise_cons.2 ⟨fun b held => same ▸ after b held, tail⟩
      · next other =>
        refine List.pairwise_cons.2 ⟨fun b held => ?_, ih tail⟩
        rcases mem_insertSorted held with rfl | later
        · have : var.raw ≠ w.raw := fun eq => other (by cases var; cases w; simp_all)
          show w.raw < var.raw
          omega
        · exact after b later

def set (d : DynVars) (var : DynVarId) (value : Value) : DynVars :=
  ⟨insert var value d.bindings,
    insert_eq d.ascending var value ▸ d.ascending.insertSorted var value⟩

def get? (d : DynVars) (var : DynVarId) : Option Value :=
  match search d.bindings var with
  | .ok place => d.bindings[place]?.map (·.2)
  | .error _ => Option.none

theorem lookup_cons_if (bs : List (DynVarId × Value)) (v w : DynVarId) (x : Value) :
    ((v, x) :: bs).lookup w = if w = v then some x else bs.lookup w := by
  rw [List.lookup_cons]
  by_cases here : w = v
  · rw [if_pos here, beq_iff_eq.2 here]
  · rw [if_neg here, beq_false_of_ne here]

theorem lookup_beneath {bs : List (DynVarId × Value)} (above : ∀ b ∈ bs, v.raw < b.1.raw) :
    bs.lookup v = Option.none := by
  refine List.lookup_eq_none_iff.2 fun b mem => bne_iff_ne.2 fun same => ?_
  have further := above b mem
  rw [same] at further
  omega

/-- Halving finds what there is to find. -/
theorem get?_eq_lookup (d : DynVars) (var : DynVarId) : d.get? var = d.bindings.lookup var := by
  obtain ⟨bs, ascending⟩ := d
  have placed : (⟨bs, ascending⟩ : DynVars).get? var =
      if bs[countBelow bs var]?.any (·.1 = var) then bs[countBelow bs var]?.map (·.2)
      else Option.none :=
    search_elim ascending _ _
  rw [placed]
  clear placed
  show _ = bs.lookup var
  induction bs with
  | nil => rfl
  | cons c rest ih =>
    obtain ⟨w, old⟩ := c
    obtain ⟨after, tail⟩ := List.pairwise_cons.1 ascending
    rw [lookup_cons_if]
    by_cases below : w.raw < var.raw
    · have other : var ≠ w := by
        rintro rfl
        exact Nat.lt_irrefl _ below
      rw [countBelow_cons_below below, List.getElem?_cons_succ, if_neg other, ih tail]
    · rw [countBelow_cons_above ascending (Nat.le_of_not_lt below)]
      by_cases same : var = w
      · simp [same]
      · have beneath : ∀ b ∈ rest, var.raw < b.1.raw := fun b mem =>
          Nat.lt_of_le_of_lt (Nat.le_of_not_lt below) (after b mem)
        simp [same, Ne.symm same, lookup_beneath beneath]

theorem lookup_insertSorted (bs : List (DynVarId × Value)) (var other : DynVarId) (value : Value) :
    (insertSorted var value bs).lookup other =
      if other = var then some value else bs.lookup other := by
  induction bs with
  | nil => exact lookup_cons_if [] var other value
  | cons b rest ih =>
    obtain ⟨w, old⟩ := b
    unfold insertSorted
    split
    · exact lookup_cons_if _ var other value
    · split
      · next here =>
        subst here
        rw [lookup_cons_if, lookup_cons_if]
        split <;> rfl
      · next there =>
        rw [lookup_cons_if, lookup_cons_if, ih]
        split
        · next same => rw [if_neg fun eq => there (eq.symm.trans same)]
        · rfl

theorem get?_set (d : DynVars) (var other : DynVarId) (value : Value) :
    (d.set var value).get? other = if other = var then some value else d.get? other := by
  rw [get?_eq_lookup, get?_eq_lookup, ← lookup_insertSorted, ← insert_eq d.ascending]
  rfl

/-- The set made by binding each pair in turn. -/
def ofList (bindings : List (DynVarId × Value)) : DynVars :=
  bindings.foldl (fun d (var, value) => d.set var value) none

/-- Bind the required variables as `d` does on top of `kept`. The first
required variable that `d` does not bind is the failure. -/
def restrictOnto (d : DynVars) (kept : DynVars) : List DynVarId → Except DynVarId DynVars
  | [] => .ok kept
  | var :: rest =>
    match d.get? var with
    | some value => d.restrictOnto (kept.set var value) rest
    | Option.none => .error var

/-- Only the bindings of the required variables. -/
def restrict (d : DynVars) (required : List DynVarId) : Except DynVarId DynVars :=
  d.restrictOnto none required

/-- What is bound as `d` binds it stays so while more of `d` is bound on top. -/
theorem get?_restrictOnto {d kept cut : DynVars} (ran : d.restrictOnto kept vars = .ok cut)
    (agrees : kept.get? var = d.get? var) : cut.get? var = d.get? var := by
  induction vars generalizing kept with
  | nil => cases ran; exact agrees
  | cons v rest ih =>
    unfold restrictOnto at ran
    split at ran
    · next value bound =>
      refine ih ran ?_
      rw [get?_set]
      split
      · next same => rw [same, bound]
      · exact agrees
    · cases ran

theorem get?_of_restrictOnto {d kept cut : DynVars} (ran : d.restrictOnto kept vars = .ok cut)
    (mem : var ∈ vars) : cut.get? var = d.get? var := by
  induction vars generalizing kept with
  | nil => cases mem
  | cons v rest ih =>
    unfold restrictOnto at ran
    split at ran
    · next value bound =>
      rcases List.mem_cons.1 mem with rfl | later
      · exact get?_restrictOnto ran (by rw [get?_set, if_pos rfl, bound])
      · exact ih ran later
    · cases ran

/-- Only the required variables count. -/
theorem restrictOnto_congr {d e : DynVars} (kept : DynVars)
    (agree : ∀ var ∈ vars, e.get? var = d.get? var) :
    e.restrictOnto kept vars = d.restrictOnto kept vars := by
  induction vars generalizing kept with
  | nil => rfl
  | cons v rest ih =>
    rw [restrictOnto, restrictOnto, agree v List.mem_cons_self]
    cases d.get? v with
    | none => rfl
    | some value => exact ih _ fun w mem => agree w (List.mem_cons_of_mem v mem)

/-- To cut down what was cut down already changes nothing. -/
theorem restrict_restrict {d cut : DynVars} (ran : d.restrict vars = .ok cut) :
    cut.restrict vars = .ok cut := by
  rw [← ran]
  exact restrictOnto_congr none fun _ mem => get?_of_restrictOnto ran mem

def length (d : DynVars) : Nat := d.bindings.length

def isEmpty (d : DynVars) : Bool := d.bindings.isEmpty

end DynVars
end Trellis
