import Trellis.DynVars

/-! Sets of bindings as finite maps. Bindings that answer alike are the same, so whatever is
bound one after the other, cut down, taken away or supplied is compared by what it answers. -/
namespace Trellis
namespace DynVars

/-- Bindings that answer alike are the same. -/
theorem Ascending.ext {bs cs : List (DynVarId × Value)} (first : Ascending bs)
    (second : Ascending cs) (same : ∀ v, bs.lookup v = cs.lookup v) : bs = cs := by
  induction bs generalizing cs with
  | nil =>
    cases cs with
    | nil => rfl
    | cons c rest =>
      have missing := same c.1
      rw [lookup_cons_if, if_pos rfl] at missing
      cases missing
  | cons b bs ih =>
    cases cs with
    | nil =>
      have missing := same b.1
      rw [lookup_cons_if, if_pos rfl] at missing
      cases missing
    | cons c cs =>
      obtain ⟨v, x⟩ := b
      obtain ⟨w, y⟩ := c
      obtain ⟨afterV, restV⟩ := List.pairwise_cons.1 first
      obtain ⟨afterW, restW⟩ := List.pairwise_cons.1 second
      have level : v.raw = w.raw := by
        rcases Nat.lt_trichotomy v.raw w.raw with below | level | above
        · have missing := same v
          rw [lookup_cons_if, if_pos rfl, lookup_beneath <|
            List.forall_mem_cons.2 ⟨below, fun b mem => Nat.lt_trans below (afterW b mem)⟩] at missing
          cases missing
        · exact level
        · have missing := same w
          rw [lookup_cons_if cs, if_pos rfl, lookup_beneath <|
            List.forall_mem_cons.2 ⟨above, fun b mem => Nat.lt_trans above (afterV b mem)⟩] at missing
          cases missing
      obtain rfl : v = w := by cases v; cases w; exact congrArg _ level
      have value := same v
      rw [lookup_cons_if, lookup_cons_if, if_pos rfl, if_pos rfl] at value
      cases value
      refine congrArg _ (ih restV restW fun u => ?_)
      by_cases here : u = v
      · rw [here, lookup_beneath afterV, lookup_beneath afterW]
      · have later := same u
        rwa [lookup_cons_if, lookup_cons_if, if_neg here, if_neg here] at later

theorem ext_get {d e : DynVars} (same : ∀ v, d.get? v = e.get? v) : d = e := by
  have found (v : DynVarId) : d.bindings.lookup v = e.bindings.lookup v := by
    rw [← get?_eq_lookup, ← get?_eq_lookup, same v]
  have equal := d.ascending.ext e.ascending found
  cases d
  cases e
  cases equal
  rfl

/-- What a variable is bound to is listed, and nothing else is. -/
theorem get?_eq_some_iff {d : DynVars} : d.get? v = some x ↔ (v, x) ∈ d.bindings := by
  obtain ⟨bs, ascending⟩ := d
  rw [get?_eq_lookup]
  dsimp only
  induction bs with
  | nil => simp
  | cons b rest ih =>
    obtain ⟨w, y⟩ := b
    obtain ⟨after, tail⟩ := List.pairwise_cons.1 ascending
    rw [lookup_cons_if, List.mem_cons]
    by_cases same : v = w
    · subst same
      have once : (v, x) ∉ rest := fun mem => Nat.lt_irrefl v.raw (after (v, x) mem)
      simp [once, eq_comm]
    · simp [same, ih tail]

/-! ## Sequences of bindings -/

theorem get?_foldl_set (bindings : List (DynVarId × Value)) (d : DynVars) (var : DynVarId) :
    (bindings.foldl (fun d (var, value) => d.set var value) d).get? var =
      (bindings.reverse.lookup var).or (d.get? var) := by
  induction bindings generalizing d with
  | nil => rfl
  | cons b rest ih =>
    obtain ⟨w, value⟩ := b
    have last : ((w, value) :: rest).reverse.lookup var =
        (rest.reverse.lookup var).or (if var = w then some value else Option.none) := by
      rw [List.reverse_cons, List.lookup_append, lookup_cons_if, List.lookup_nil]
    rw [List.foldl_cons, ih, get?_set, last, Option.or_assoc]
    split <;> rfl

/-- A sequence of bindings leaves a variable bound to what it was bound to last. -/
theorem get?_ofList (bindings : List (DynVarId × Value)) :
    (ofList bindings).get? = (bindings.reverse.lookup ·) := by
  funext var
  exact (get?_foldl_set bindings none var).trans (Option.or_none ..)

theorem bindings_foldl_set (made : List (DynVarId × Value)) (d : DynVars) :
    (made.foldl (fun d (var, value) => d.set var value) d).bindings =
      made.foldl (fun bs (var, value) => insert var value bs) d.bindings := by
  induction made generalizing d with
  | nil => rfl
  | cons b rest ih => exact ih (d.set b.1 b.2)

theorem Ascending.lookup_reverse {bs : List (DynVarId × Value)} (ascending : Ascending bs)
    (var : DynVarId) : bs.reverse.lookup var = bs.lookup var := by
  induction bs with
  | nil => rfl
  | cons b rest ih =>
    obtain ⟨w, value⟩ := b
    obtain ⟨after, tail⟩ := List.pairwise_cons.1 ascending
    rw [List.reverse_cons, List.lookup_append, ih tail, lookup_cons_if, lookup_cons_if,
      List.lookup_nil]
    split
    · next same => rw [same, lookup_beneath after, Option.none_or]
    · exact Option.or_none ..

/-- A set is what its bindings make when they are made one after the other. -/
theorem ofList_bindings (d : DynVars) : ofList d.bindings = d := by
  refine ext_get fun var => ?_
  rw [get?_ofList, get?_eq_lookup]
  exact d.ascending.lookup_reverse var

/-! ## Cutting down to required variables -/

/-- The first of some variables that is not bound. -/
def firstMissing (bound : DynVarId → Option Value) (vars : List DynVarId) : Option DynVarId :=
  vars.find? fun var => (bound var).isNone

theorem restrictOnto_error_iff {d kept : DynVars} :
    d.restrictOnto kept vars = .error var ↔ firstMissing d.get? vars = some var := by
  unfold firstMissing
  induction vars generalizing kept with
  | nil => simp [restrictOnto]
  | cons w rest ih =>
    rw [List.find?_cons]
    unfold restrictOnto
    cases d.get? w with
    | none => simp
    | some value => exact ih

theorem bound_of_restrictOnto {d kept cut : DynVars} (ran : d.restrictOnto kept vars = .ok cut) :
    ∀ var ∈ vars, (d.get? var).isSome = true := by
  intro var mem
  induction vars generalizing kept with
  | nil => cases mem
  | cons w rest ih =>
    unfold restrictOnto at ran
    split at ran
    · next value bound =>
      rcases List.mem_cons.1 mem with rfl | later
      · exact Option.isSome_iff_exists.2 ⟨value, bound⟩
      · exact ih ran later
    · cases ran

/-- What a restriction requires it binds. -/
theorem restrict_binds {d cut : DynVars} (ran : d.restrict vars = .ok cut) :
    ∀ var ∈ vars, (cut.get? var).isSome = true := by
  intro var mem
  rw [get?_of_restrictOnto ran mem]
  exact bound_of_restrictOnto ran var mem

theorem restrict_of_bound {d : DynVars} (bound : ∀ var ∈ vars, (d.get? var).isSome = true) :
    ∃ cut, d.restrict vars = .ok cut := by
  cases ran : d.restrict vars with
  | ok cut => exact ⟨cut, rfl⟩
  | error var =>
    have missing : vars.find? (fun var => (d.get? var).isNone) = some var :=
      restrictOnto_error_iff.1 ran
    have held := bound var (List.mem_of_find?_eq_some missing)
    have free : (d.get? var).isNone = true :=
      List.find?_some (p := fun var => (d.get? var).isNone) missing
    rw [Option.isNone_iff_eq_none.1 free] at held
    cases held

theorem get?_restrictOnto_other {d kept cut : DynVars} (ran : d.restrictOnto kept vars = .ok cut)
    (other : var ∉ vars) : cut.get? var = kept.get? var := by
  induction vars generalizing kept with
  | nil => cases ran; rfl
  | cons w rest ih =>
    obtain ⟨here, later⟩ := not_or.1 (mt List.mem_cons.2 other)
    unfold restrictOnto at ran
    split at ran
    · rw [ih ran later, get?_set, if_neg here]
    · cases ran

/-- A restriction binds the required variables, to what they were bound to, and no others. -/
theorem restrict_ok_iff {d cut : DynVars} : d.restrict vars = .ok cut ↔
    (∀ var ∈ vars, (d.get? var).isSome = true) ∧
      ∀ var, cut.get? var = if var ∈ vars then d.get? var else Option.none := by
  have binds {cut : DynVars} (ran : d.restrict vars = .ok cut) (var : DynVarId) :
      cut.get? var = if var ∈ vars then d.get? var else Option.none := by
    by_cases mem : var ∈ vars
    · rw [if_pos mem, get?_of_restrictOnto ran mem]
    · rw [if_neg mem, get?_restrictOnto_other ran mem]
      rfl
  constructor
  · exact fun ran => ⟨bound_of_restrictOnto ran, binds ran⟩
  · rintro ⟨bound, answers⟩
    obtain ⟨other, ran⟩ := restrict_of_bound bound
    have same : other = cut := ext_get fun var => (binds ran var).trans (answers var).symm
    rw [ran, same]

/-! ## Without a variable -/

/-- The bindings of all variables but one. -/
def without (d : DynVars) (v : DynVarId) : DynVars :=
  ⟨d.bindings.filter (·.1 ≠ v), d.ascending.filter _⟩

theorem get?_without (d : DynVars) (v w : DynVarId) :
    (d.without v).get? w = if w = v then Option.none else d.get? w := by
  rw [get?_eq_lookup, get?_eq_lookup, without]
  dsimp only
  induction d.bindings with
  | nil => simp
  | cons b rest ih =>
    obtain ⟨u, x⟩ := b
    by_cases here : u = v
    · rw [List.filter_cons_of_neg (by simp [here]), ih, lookup_cons_if, here]
      split <;> rfl
    · rw [List.filter_cons_of_pos (by simp [here]), lookup_cons_if, lookup_cons_if, ih]
      by_cases found : w = u
      · rw [if_pos found, if_pos found, if_neg (found ▸ here)]
      · rw [if_neg found, if_neg found]

/-- The bindings with a variable bound to a value, unless it is bound already. -/
def supply (d : DynVars) (v : DynVarId) (x : Value) : DynVars :=
  if (d.get? v).isSome then d else d.set v x

theorem get?_supply (d : DynVars) (v w : DynVarId) (x : Value) :
    (d.supply v x).get? w = (d.get? w).or (if w = v then some x else Option.none) := by
  unfold supply
  split
  · next bound =>
    by_cases here : w = v
    · rw [here, Option.or_of_isSome bound]
    · rw [if_neg here, Option.or_none]
  · next free =>
    rw [get?_set]
    by_cases here : w = v
    · rw [here, if_pos rfl, if_pos rfl, Option.not_isSome_iff_eq_none.1 free, Option.none_or]
    · rw [if_neg here, if_neg here, Option.or_none]

theorem supply_of_bound {d : DynVars} (bound : (d.get? v).isSome = true) (x : Value) :
    d.supply v x = d := if_pos bound

theorem supply_set (d : DynVars) (v w : DynVarId) (x y : Value) :
    (d.set w y).supply v x = (d.supply v x).set w y := by
  refine ext_get fun u => ?_
  rw [get?_supply, get?_set, get?_set, get?_supply]
  split
  · rfl
  · rfl

/-- What was taken away can be supplied again. -/
theorem supply_without {d : DynVars} (bound : d.get? v = some x) :
    (d.without v).supply v x = d := by
  refine ext_get fun u => ?_
  rw [get?_supply, get?_without]
  by_cases here : u = v
  · rw [if_pos here, if_pos here, Option.none_or, here, bound]
  · rw [if_neg here, if_neg here, Option.or_none]

theorem without_set (d : DynVars) (v : DynVarId) (x : Value) :
    (d.set v x).without v = d.without v := by
  refine ext_get fun u => ?_
  rw [get?_without, get?_without, get?_set]
  split <;> rfl

theorem without_set_other {w v : DynVarId} (other : w ≠ v) (d : DynVars) (y : Value) :
    (d.set w y).without v = (d.without v).set w y := by
  refine ext_get fun u => ?_
  rw [get?_without, get?_set, get?_set, get?_without]
  by_cases here : u = w
  · rw [if_pos here, if_pos here, if_neg (here ▸ other)]
  · rw [if_neg here, if_neg here]

/-- A cut of the bindings shows the value of a variable for that variable only. -/
theorem restrict_rebound (d : DynVars) (v : DynVarId) (x y : Value) (vars : List DynVarId) :
    (∃ w, (d.set v x).restrict vars = .error w ∧ (d.set v y).restrict vars = .error w) ∨
    ∃ cut cut', (d.set v x).restrict vars = .ok cut ∧ (d.set v y).restrict vars = .ok cut' ∧
      cut.without v = cut'.without v := by
  have onto (vars : List DynVarId) (kept kept' : DynVars) (same : kept.without v = kept'.without v) :
      (∃ w, (d.set v x).restrictOnto kept vars = .error w ∧
        (d.set v y).restrictOnto kept' vars = .error w) ∨
      ∃ cut cut', (d.set v x).restrictOnto kept vars = .ok cut ∧
        (d.set v y).restrictOnto kept' vars = .ok cut' ∧ cut.without v = cut'.without v := by
    induction vars generalizing kept kept' with
    | nil => exact .inr ⟨kept, kept', rfl, rfl, same⟩
    | cons w rest ih =>
      unfold restrictOnto
      rw [get?_set, get?_set]
      by_cases here : w = v
      · rw [if_pos here, if_pos here]
        refine ih _ _ ?_
        rw [here, without_set, without_set, same]
      · rw [if_neg here, if_neg here]
        cases d.get? w with
        | none => exact .inl ⟨w, rfl, rfl⟩
        | some z =>
          refine ih _ _ ?_
          rw [without_set_other here, without_set_other here, same]
  exact onto vars none none rfl

/-- **Sets of bindings are canonical finite maps.** However a set was made, each of its steps
keeps the order of the handles, and a variable is bound to what it was bound to last; two sets
are the same exactly if they answer alike. A set is cut down exactly if all that is required is
bound; else the first requirement that is not is named. The cut binds what is required and
nothing else, whichever order the requirements are listed in and however often. -/
theorem bindings_are_canonical :
    (∀ made : List (DynVarId × Value),
      (ofList made).bindings = made.foldl (fun bs (v, x) => insert v x bs) [] ∧
      (ofList made).bindings.Pairwise (fun a b => a.1.raw < b.1.raw) ∧
      ∀ v, (ofList made).get? v = made.reverse.lookup v) ∧
    (∀ d : DynVars, ofList d.bindings = d ∧ ∀ v x, d.get? v = some x ↔ (v, x) ∈ d.bindings) ∧
    (∀ d e : DynVars, d = e ↔ ∀ v, d.get? v = e.get? v) ∧
    ∀ (d : DynVars) (required : List DynVarId),
      ((∃ cut, d.restrict required = .ok cut) ↔ ∀ v ∈ required, (d.get? v).isSome = true) ∧
      (∀ v, d.restrict required = .error v ↔
        required.find? (fun w => (d.get? w).isNone) = some v) ∧
      ∀ cut, d.restrict required = .ok cut →
        (∀ v, cut.get? v = if v ∈ required then d.get? v else Option.none) ∧
        ∀ again : List DynVarId, (∀ v, v ∈ again ↔ v ∈ required) → d.restrict again = .ok cut := by
  refine ⟨fun made => ⟨bindings_foldl_set made none, (ofList made).ascending, fun v => ?_⟩,
    fun d => ⟨ofList_bindings d, fun _ _ => get?_eq_some_iff⟩,
    fun d e => ⟨fun same v => congrArg (·.get? v) same, ext_get⟩, fun d required => ⟨?_, ?_, ?_⟩⟩
  · exact congrFun (get?_ofList made) v
  · exact ⟨fun ⟨_, ran⟩ => bound_of_restrictOnto ran, restrict_of_bound⟩
  · exact fun v => restrictOnto_error_iff
  · intro cut ran
    obtain ⟨bound, binds⟩ := restrict_ok_iff.1 ran
    refine ⟨binds, fun again same => restrict_ok_iff.2 ⟨fun v mem => bound v ((same v).1 mem), ?_⟩⟩
    intro v
    rw [binds v]
    simp only [same v]

/-- Of three variables two are required, one of them twice. -/
theorem bindings_are_canonical_of_two_required :
    let d := ofList [(⟨2⟩, .int 2), (⟨0⟩, .int 0), (⟨1⟩, .null), (⟨2⟩, .int 20)]
    let cut := ofList [(⟨0⟩, .int 0), (⟨2⟩, .int 20)]
    d.bindings.map (·.1.raw) = [0, 1, 2] ∧ d.restrict [⟨2⟩, ⟨0⟩] = .ok cut ∧
      d.restrict [⟨0⟩, ⟨2⟩, ⟨0⟩] = .ok cut ∧ d.restrict [⟨1⟩, ⟨5⟩, ⟨4⟩] = .error ⟨5⟩ := by
  obtain ⟨-, -, -, restricted⟩ := bindings_are_canonical
  refine ⟨rfl, rfl, ((restricted _ [⟨2⟩, ⟨0⟩]).2.2 _ rfl).2 _ fun v => ?_,
    ((restricted _ _).2.1 _).2 rfl⟩
  simp only [List.mem_cons, List.not_mem_nil, or_false]
  constructor
  · rintro (first | second | first)
    · exact .inr first
    · exact .inl second
    · exact .inr first
  · rintro (second | first)
    · exact .inr (.inl second)
    · exact .inl first

end DynVars
end Trellis
