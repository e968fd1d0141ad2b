import Trellis.Proofs.Solver.Reading

/-! What propagation does to the candidates. It only takes candidates away, it
takes none away that a solution of the constraints needs, it gives candidates
only to variables that are sure to get some, and where it stops every constraint
finds support for each candidate that is left. -/
namespace Trellis.Solver

namespace Candidates

/-- Every list of candidates in `d` is what is left of the list in `c`. -/
structure Within (d c : Candidates V) : Prop where
  vars : d.vars = c.vars
  left : ∀ v xs, c.get? v = some xs → ∃ ys, d.get? v = some ys ∧ ys.Sublist xs

theorem Within.refl (c : Candidates V) : c.Within c := ⟨rfl, fun _ xs held => ⟨xs, held, .refl xs⟩⟩

theorem Within.trans {c d e : Candidates V} (h : Within e d) (k : Within d c) : Within e c where
  vars := h.vars.trans k.vars
  left v xs held := by
    obtain ⟨ys, found, sub⟩ := k.left v xs held
    obtain ⟨zs, last, less⟩ := h.left v ys found
    exact ⟨zs, last, less.trans sub⟩

/-- No list of candidates is empty or names a value twice. -/
structure Tidy (c : Candidates V) : Prop where
  filled : ∀ v xs, c.get? v = some xs → xs ≠ []
  distinct : ∀ v xs, c.get? v = some xs → xs.Nodup

/-- The valuation takes its values from the candidates, where there are any. -/
def Admits (c : Candidates V) (t : Valuation V) : Prop :=
  ∀ v x xs, t v = some x → c.get? v = some xs → x ∈ xs

theorem put_within {c : Candidates V} (listed : v ∈ c.vars)
    (less : ∀ old, c.get? v = some old → values.Sublist old) :
    (c.put v values listed).Within c where
  vars := rfl
  left w xs held := by
    rw [get?_put]
    split
    · next same => exact ⟨values, rfl, less xs (same ▸ held)⟩
    · exact ⟨xs, held, .refl xs⟩

theorem Tidy.put {c : Candidates V} (tidy : c.Tidy) (listed : v ∈ c.vars) (filled : values ≠ [])
    (distinct : values.Nodup) : (c.put v values listed).Tidy where
  filled w xs held := by
    rw [get?_put] at held
    split at held
    · cases held; exact filled
    · exact tidy.filled w xs held
  distinct w xs held := by
    rw [get?_put] at held
    split at held
    · cases held; exact distinct
    · exact tidy.distinct w xs held

theorem Admits.put {c : Candidates V} (admits : c.Admits t) (listed : v ∈ c.vars)
    (kept : ∀ x, t v = some x → x ∈ values) : (c.put v values listed).Admits t := by
  intro w x xs value held
  rw [get?_put] at held
  split at held
  · next same => cases held; exact kept x (same ▸ value)
  · exact admits w x xs value held

end Candidates

/-- The table there is after applying a constraint, if no variable ran out of
candidates. -/
def Effect.table {c : Candidates V} : Effect c → Option (Candidates V)
  | unchanged => some c
  | tightened d _ => some d
  | emptied _ => none

/-- The table there is after a round. -/
def Round.table {c : Candidates V} : Round c → Option (Candidates V)
  | settled => some c
  | moved d _ => some d
  | dead => none

theorem effect_after_table {c d : Candidates V} (tighter : d.Tighter c) (effect : Effect d) :
    (effect.after tighter).table = effect.table := by
  cases effect <;> rfl

theorem round_after_table {c d : Candidates V} (tighter : d.Tighter c) (r : Round d) :
    (r.after tighter).table = r.table := by
  cases r <;> rfl

/-- Narrowing empties a variable, or leaves everything as it is, or puts the new
list in the place of the old one. -/
theorem narrow_cases (c : Candidates V) (v : VarId) (values : List V) :
    narrow c v values = .emptied v ∧ values = [] ∨ narrow c v values = .unchanged ∨
      ∃ listed tighter, narrow c v values = .tightened (c.put v values listed) tighter ∧
        values ≠ [] := by
  unfold narrow
  split
  · next old held =>
    split
    · next empty => exact .inl ⟨rfl, List.isEmpty_iff.1 empty⟩
    · next filled =>
      split
      · next fewer =>
        exact .inr (.inr ⟨Candidates.mem_vars held, c.put_narrowed held values fewer, rfl,
          fun empty => filled (List.isEmpty_iff.2 empty)⟩)
      · exact .inr (.inl rfl)
  · next none =>
    split
    · next listed =>
      split
      · next empty => exact .inl ⟨rfl, List.isEmpty_iff.1 empty⟩
      · next filled =>
        exact .inr (.inr ⟨listed, c.put_supplied listed none values, rfl,
          fun empty => filled (List.isEmpty_iff.2 empty)⟩)
    · exact .inr (.inl rfl)

/-- Where narrowing changes nothing, the candidates are those it would put. -/
theorem narrow_unchanged {c : Candidates V} (listed : v ∈ c.vars)
    (less : ∀ old, c.get? v = some old → values.Sublist old)
    (same : narrow c v values = .unchanged) : c.get? v = some values := by
  unfold narrow at same
  split at same
  · next old held =>
    split at same
    · cases same
    · split at same
      · cases same
      · next notFewer =>
        rw [held, (less old held).eq_of_length_le (Nat.le_of_not_lt notFewer)]
  · next none =>
    rw [dif_pos listed] at same
    split at same <;> cases same

/-! ## The steps of propagation -/

variable [DecidableEq V] {holds : Query V → Bool}

/-- Why a constraint replaces the candidates of a variable by other ones. -/
inductive Narrowing (holds : Query V → Bool) (d : Candidates V) :
    Atom V → VarId → List V → Prop
  | supplied (open_ : d.get? v = none) :
      Narrowing holds d (.domain v values origin) v values.eraseDups
  | listed (held : d.get? v = some old) :
      Narrowing holds d (.domain v values origin) v (old.filter (values.contains ·))
  | accepted (held : d.get? v = some old) :
      Narrowing holds d (.predicate v p origin) v (old.filter fun x => holds (.unary p x))
  | related_itself (held : d.get? a = some old) :
      Narrowing holds d (.bind a a (some p) origin) a (old.filter fun x => holds (.binary p x x))
  | copied_left (open_ : d.get? a = none) (held : d.get? b = some ys) :
      Narrowing holds d (.bind a b none origin) a ys
  | copied_right (held : d.get? a = some xs) (open_ : d.get? b = none) :
      Narrowing holds d (.bind a b none origin) b xs
  | supported_left (left : d.get? a = some xs) (right : d.get? b = some ys) :
      Narrowing holds d (.bind a b relation origin) a
        (xs.filter fun x => ys.any fun y => related holds relation x y)
  | supported_right (left : d.get? a = some xs) (right : d.get? b = some ys) :
      Narrowing holds d (.bind a b relation origin) b
        (ys.filter fun y => xs.any fun x => related holds relation x y)

/-- A constraint takes candidates away, unless the variable had none. -/
theorem narrowing_sublist (step : Narrowing holds d a v values) :
    ∀ old, d.get? v = some old → values.Sublist old := by
  intro old found
  cases step with
  | supplied open_ | copied_left open_ _ | copied_right _ open_ => simp [open_] at found
  | listed held | accepted held | related_itself held | supported_left held _
  | supported_right _ held =>
    rw [held] at found
    cases found
    exact List.filter_sublist

theorem narrowing_distinct (step : Narrowing holds d a v values) (tidy : d.Tidy) :
    values.Nodup := by
  cases step with
  | supplied _ => exact nodup_eraseDups _
  | copied_left _ held | copied_right held _ => exact tidy.distinct _ _ held
  | listed held | accepted held | related_itself held | supported_left held _
  | supported_right _ held => exact (tidy.distinct _ _ held).filter _

/-- No value is taken away that a solution of the constraint gives. -/
theorem narrowing_keeps (step : Narrowing holds d a v values) (true_ : a.Holds holds t)
    (admits : d.Admits t) : ∃ x, t v = some x ∧ x ∈ values := by
  cases step with
  | supplied open_ =>
    obtain ⟨x, value, mem⟩ := true_
    exact ⟨x, value, List.mem_eraseDups.2 mem⟩
  | listed held =>
    obtain ⟨x, value, mem⟩ := true_
    exact ⟨x, value, List.mem_filter.2 ⟨admits _ x _ value held, by simpa using mem⟩⟩
  | accepted held =>
    obtain ⟨x, value, yes⟩ := true_
    exact ⟨x, value, List.mem_filter.2 ⟨admits _ x _ value held, yes⟩⟩
  | related_itself held =>
    obtain ⟨x, y, value, again, yes⟩ := true_
    rw [value] at again
    cases again
    exact ⟨x, value, List.mem_filter.2 ⟨admits _ x _ value held, yes⟩⟩
  | copied_left _ held =>
    obtain ⟨x, y, left, right, same⟩ := true_
    cases of_decide_eq_true same
    exact ⟨x, left, admits _ x _ right held⟩
  | copied_right held _ =>
    obtain ⟨x, y, left, right, same⟩ := true_
    cases of_decide_eq_true same
    exact ⟨x, right, admits _ x _ left held⟩
  | supported_left heldLeft heldRight =>
    obtain ⟨x, y, left, right, yes⟩ := true_
    exact ⟨x, left, List.mem_filter.2 ⟨admits _ x _ left heldLeft,
      List.any_eq_true.2 ⟨y, admits _ y _ right heldRight, yes⟩⟩⟩
  | supported_right heldLeft heldRight =>
    obtain ⟨x, y, left, right, yes⟩ := true_
    exact ⟨y, right, List.mem_filter.2 ⟨admits _ y _ right heldRight,
      List.any_eq_true.2 ⟨x, admits _ x _ left heldLeft, yes⟩⟩⟩

/-- Candidates are given only to variables that are sure to get some. -/
theorem narrowing_reached (step : Narrowing holds d a v values) (mem : a ∈ choice)
    (reached : ∀ w xs, d.get? w = some xs → Reached bound choice w) : Reached bound choice v := by
  cases step with
  | supplied _ => exact .domain mem
  | copied_left _ held => exact .left mem (reached _ _ held)
  | copied_right held _ => exact .right mem (reached _ _ held)
  | listed held | accepted held | related_itself held | supported_left held _
  | supported_right _ held => exact reached _ _ held

/-- A property of tables that narrowing by one of the constraints keeps. -/
def Stable (holds : Query V → Bool) (atoms : List (Atom V)) (P : Option (Candidates V) → Prop) :
    Prop :=
  ∀ a ∈ atoms, ∀ d v values, Narrowing holds d a v values → P (some d) →
    P (narrow d v values).table

theorem bind_effect_keeps {P : Option (Candidates V) → Prop} (stable : Stable holds atoms P)
    (mem : .bind a b relation origin ∈ atoms) (different : a ≠ b) (start : P (some c)) :
    P (bindEffect holds c a b relation).table := by
  unfold bindEffect
  cases left : c.get? a with
  | none =>
    cases right : c.get? b with
    | none => exact start
    | some ys =>
      cases relation with
      | none => exact stable _ mem _ _ _ (.copied_left left right) start
      | some p => exact start
  | some xs =>
    cases right : c.get? b with
    | none =>
      cases relation with
      | none => exact stable _ mem _ _ _ (.copied_right left right) start
      | some p => exact start
    | some ys =>
      -- the second side is measured against what the first one keeps
      have leftStep : Narrowing holds c (.bind a b relation origin) a _ :=
        .supported_left left right
      have first := stable _ mem _ _ _ leftStep start
      unfold kept
      rcases narrow_cases c a (xs.filter fun x => ys.any fun y => related holds relation x y) with
        ⟨emptied, -⟩ | same | ⟨listed, tighter, put, -⟩
      · simpa only [emptied] using first
      · have now := narrow_unchanged (Candidates.mem_vars left) (narrowing_sublist leftStep) same
        simp only [same]
        exact stable _ mem _ _ _ (.supported_right now right) start
      · simp only [put] at first ⊢
        rw [effect_after_table]
        refine stable _ mem _ _ _ (.supported_right ?_ ?_) first
        · rw [Candidates.get?_put, if_pos rfl]
        · rw [Candidates.get?_put, if_neg different, right]

/-- A constraint narrows candidates for the reasons given and changes nothing
besides. -/
theorem atom_effect_keeps {P : Option (Candidates V) → Prop} (stable : Stable holds atoms P)
    (mem : a ∈ atoms) (start : P (some c)) : P (atomEffect holds c a).table := by
  cases a with
  | domain v values origin =>
    rw [atomEffect]
    cases known : c.get? v with
    | none => exact stable _ mem _ _ _ (.supplied known) start
    | some current => exact stable _ mem _ _ _ (.listed known) start
  | predicate v p origin =>
    rw [atomEffect]
    cases known : c.get? v with
    | none => exact start
    | some current => exact stable _ mem _ _ _ (.accepted known) start
  | bind a b relation origin =>
    simp only [atomEffect]
    split
    · next same =>
      subst same
      cases relation with
      | none => exact start
      | some p =>
        cases known : c.get? a with
        | none => exact start
        | some current => exact stable _ mem _ _ _ (.related_itself known) start
    · next different => exact bind_effect_keeps stable mem different start

theorem sweep_keeps {P : Option (Candidates V) → Prop} (stable : Stable holds all P)
    (among : ∀ a ∈ atoms, a ∈ all) (start : P (some c)) : P (sweep holds atoms c).table := by
  induction atoms generalizing c with
  | nil => exact start
  | cons a rest ih =>
    have step := atom_effect_keeps stable (among a List.mem_cons_self) start
    have among := fun b mem => among b (List.mem_cons_of_mem a mem)
    rw [sweep]
    cases effect : atomEffect holds c a with
    | unchanged => exact ih among start
    | tightened d tighter =>
      rw [effect] at step
      rw [round_after_table]
      exact ih among step
    | emptied v => rwa [effect] at step

/-- Propagation is a sequence of narrowings. -/
theorem settle_keeps {P : Option (Candidates V) → Prop} (stable : Stable holds atoms P)
    (start : P (some c)) : P ((settle holds atoms c).map (·.1)) := by
  have round := sweep_keeps stable (fun a mem => mem) start
  rw [settle]
  cases swept : sweep holds atoms c with
  | settled => exact start
  | dead => rwa [swept] at round
  | moved d tighter =>
    rw [swept] at round
    have rest := settle_keeps stable round
    rwa [Option.map_map]
termination_by (c.free, c.total)
decreasing_by exact tighter.decreases

/-- What further constraints leave of a branch comes from its table by a sequence
of narrowings. -/
theorem collect_keeps {P : Option (Candidates V) → Prop} (stable : Stable holds all P)
    (before : ∀ a ∈ b.atoms, a ∈ all) (choice : List (Atom V)) (among : ∀ a ∈ choice, a ∈ all)
    (start : P (some b.candidates)) : P ((collect holds b choice).map (·.candidates)) := by
  induction choice generalizing b with
  | nil => exact start
  | cons a rest ih =>
    have now : ∀ e ∈ b.atoms ++ [a], e ∈ all := by
      intro e mem
      rcases List.mem_append.1 mem with old | new
      · exact before e old
      · exact among e (List.mem_singleton.1 new ▸ List.mem_cons_self)
    have step := settle_keeps (fun e mem => stable e (now e mem)) start
    rw [collect]
    generalize settle holds (b.atoms ++ [a]) b.candidates = settled at step ⊢
    rcases settled with _ | ⟨d, reached⟩
    · exact step
    · exact ih now (fun e mem => among e (List.mem_cons_of_mem a mem)) step

/-! ## What narrowing keeps -/

theorem stable_within (c : Candidates V) (atoms : List (Atom V)) :
    Stable holds atoms fun table => ∀ d, table = some d → d.Within c := by
  intro a _ d v values step within e result
  have within := within d rfl
  rcases narrow_cases d v values with ⟨emptied, -⟩ | same | ⟨listed, tighter, put, -⟩
  · rw [emptied] at result; cases result
  · rw [same] at result; cases result; exact within
  · rw [put] at result
    cases result
    exact (Candidates.put_within listed (narrowing_sublist step)).trans within

theorem stable_tidy (atoms : List (Atom V)) :
    Stable holds atoms fun table => ∀ d, table = some d → d.Tidy := by
  intro a _ d v values step tidy e result
  have tidy := tidy d rfl
  rcases narrow_cases d v values with ⟨emptied, -⟩ | same | ⟨listed, tighter, put, filled⟩
  · rw [emptied] at result; cases result
  · rw [same] at result; cases result; exact tidy
  · rw [put] at result
    cases result
    exact tidy.put listed filled (narrowing_distinct step tidy)

/-- A valuation that makes the constraints true is never lost, and while there is
one no variable runs out of candidates. -/
theorem stable_admits (satisfied : ∀ a ∈ atoms, a.Holds holds t) :
    Stable holds atoms fun table => ∃ d, table = some d ∧ d.Admits t := by
  rintro a mem d v values step ⟨_, ⟨⟩, admits⟩
  obtain ⟨x, value, left⟩ := narrowing_keeps step (satisfied a mem) admits
  rcases narrow_cases d v values with ⟨-, empty⟩ | same | ⟨listed, tighter, put, -⟩
  · simp [empty] at left
  · exact ⟨d, by rw [same]; rfl, admits⟩
  · refine ⟨_, by rw [put]; rfl, admits.put listed fun y again => ?_⟩
    rw [value] at again
    cases again
    exact left

theorem stable_reached (among : ∀ a ∈ atoms, a ∈ choice) :
    Stable holds atoms fun table =>
      ∀ d, table = some d → ∀ v xs, d.get? v = some xs → Reached bound choice v := by
  intro a mem d v values step reached e result w xs held
  have reached := reached d rfl
  rcases narrow_cases d v values with ⟨emptied, -⟩ | same | ⟨listed, tighter, put, -⟩
  · rw [emptied] at result; cases result
  · rw [same] at result; cases result; exact reached w xs held
  · rw [put] at result
    cases result
    rw [Candidates.get?_put] at held
    split at held
    · next same => exact same ▸ narrowing_reached step (among a mem) reached
    · exact reached w xs held

/-! ## Where propagation stops -/

/-- Each candidate that is left has the support that a constraint asks for, and an
equality has handed on what it could. -/
def Consistent (holds : Query V → Bool) (c : Candidates V) : Atom V → Prop
  | .domain v values _ => ∃ xs, c.get? v = some xs ∧ ∀ x ∈ xs, x ∈ values
  | .predicate v p _ => ∀ xs, c.get? v = some xs → ∀ x ∈ xs, holds (.unary p x)
  | .bind a b relation _ =>
    (relation = none → ((c.get? a).isSome ↔ (c.get? b).isSome)) ∧
      (a = b → ∀ xs, c.get? a = some xs → ∀ x ∈ xs, related holds relation x x) ∧
      (a ≠ b → ∀ xs ys, c.get? a = some xs → c.get? b = some ys →
        ∀ x ∈ xs, ∃ y ∈ ys, related holds relation x y)

theorem bind_effect_unchanged (listed : a ∈ c.vars ∧ b ∈ c.vars)
    (same : bindEffect holds c a b relation = .unchanged) :
    (relation = none → ((c.get? a).isSome ↔ (c.get? b).isSome)) ∧
      ∀ xs ys, c.get? a = some xs → c.get? b = some ys →
        ∀ x ∈ xs, ∃ y ∈ ys, related holds relation x y := by
  unfold bindEffect at same
  cases left : c.get? a with
  | none =>
    refine ⟨fun plain => ?_, by simp⟩
    cases right : c.get? b with
    | none => simp
    | some ys =>
      simp only [left, right, plain] at same
      have copied := narrow_unchanged listed.1 (by simp [left]) same
      simp [left] at copied
  | some xs =>
    cases right : c.get? b with
    | none =>
      refine ⟨fun plain => ?_, by simp⟩
      simp only [left, right, plain] at same
      have copied := narrow_unchanged listed.2 (by simp [right]) same
      simp [right] at copied
    | some ys =>
      refine ⟨by simp, ?_⟩
      rintro _ _ ⟨⟩ ⟨⟩ x mem
      simp only [left, right] at same
      cases first : narrow c a (kept holds relation xs ys).1 with
      | unchanged =>
        have step : Narrowing holds c (.bind a b relation none) a _ := .supported_left left right
        have all := narrow_unchanged listed.1 (narrowing_sublist step) first
        rw [left] at all
        rw [Option.some.inj all] at mem
        exact List.any_eq_true.1 (List.mem_filter.1 mem).2
      | tightened d tighter =>
        simp only [first] at same
        cases later : narrow d b (kept holds relation xs ys).2 <;>
          simp [later, Effect.after] at same
      | emptied v => simp [first] at same

/-- A constraint that changes nothing is consistent with the candidates. -/
theorem consistent_of_unchanged (listed : ∀ v ∈ a.vars, v ∈ c.vars)
    (same : atomEffect holds c a = .unchanged) : Consistent holds c a := by
  cases a with
  | domain v values origin =>
    have here : v ∈ c.vars := listed v (List.mem_singleton.2 rfl)
    rw [atomEffect] at same
    cases known : c.get? v with
    | none =>
      simp only [known] at same
      have supplied := narrow_unchanged here (by simp [known]) same
      simp [known] at supplied
    | some current =>
      simp only [known] at same
      have step : Narrowing holds c (.domain v values origin) v _ := .listed known
      have all := narrow_unchanged here (narrowing_sublist step) same
      refine ⟨current, known, fun x mem => ?_⟩
      rw [known] at all
      rw [Option.some.inj all] at mem
      simpa using (List.mem_filter.1 mem).2
  | predicate v p origin =>
    intro xs known x mem
    rw [atomEffect, known] at same
    have step : Narrowing holds c (.predicate v p origin) v _ := .accepted known
    have all := narrow_unchanged (listed v (List.mem_singleton.2 rfl)) (narrowing_sublist step) same
    rw [known] at all
    rw [Option.some.inj all] at mem
    exact (List.mem_filter.1 mem).2
  | bind a b relation origin =>
    simp only [atomEffect] at same
    split at same
    · next self =>
      subst self
      refine ⟨fun _ => Iff.rfl, fun _ xs known x mem => ?_, fun different => absurd rfl different⟩
      cases relation with
      | none => simp [related]
      | some p =>
        simp only [known] at same
        have step : Narrowing holds c (.bind a a (some p) origin) a _ := .related_itself known
        have all := narrow_unchanged (listed a List.mem_cons_self) (narrowing_sublist step) same
        rw [known] at all
        rw [Option.some.inj all] at mem
        exact (List.mem_filter.1 mem).2
    · next different =>
      obtain ⟨handed, supported⟩ := bind_effect_unchanged
        ⟨listed a List.mem_cons_self, listed b (List.mem_cons_of_mem _ List.mem_cons_self)⟩ same
      exact ⟨handed, fun self => absurd self different, fun _ => supported⟩

theorem unchanged_of_settled (stopped : sweep holds atoms c = .settled) :
    ∀ a ∈ atoms, atomEffect holds c a = .unchanged := by
  induction atoms with
  | nil => simp
  | cons a rest ih =>
    rw [sweep] at stopped
    cases effect : atomEffect holds c a with
    | unchanged =>
      rw [effect] at stopped
      intro e mem
      rcases List.mem_cons.1 mem with rfl | later
      · exact effect
      · exact ih stopped e later
    | tightened d tighter =>
      simp only [effect] at stopped
      cases swept : sweep holds rest d <;> simp [swept, Round.after] at stopped
    | emptied v => simp [effect] at stopped

theorem settle_unchanged (ran : settle holds atoms c = some d) :
    ∀ a ∈ atoms, atomEffect holds d.1 a = .unchanged := by
  rw [settle] at ran
  cases swept : sweep holds atoms c with
  | settled =>
    simp only [swept] at ran
    cases ran
    exact unchanged_of_settled swept
  | dead => simp [swept] at ran
  | moved e tighter =>
    simp only [swept] at ran
    obtain ⟨f, rest, rfl⟩ := Option.map_eq_some_iff.1 ran
    have last := settle_unchanged rest
    exact last
termination_by (c.free, c.total)
decreasing_by exact tighter.decreases

theorem settle_within (ran : settle holds atoms c = some d) : d.1.Within c :=
  settle_keeps (stable_within c atoms) (by rintro _ ⟨⟩; exact .refl c) d.1 (by rw [ran]; rfl)

theorem settle_tidy (tidy : c.Tidy) (ran : settle holds atoms c = some d) : d.1.Tidy :=
  settle_keeps (stable_tidy atoms) (by rintro _ ⟨⟩; exact tidy) d.1 (by rw [ran]; rfl)

/-- Propagation reaches a table that still admits the solution. -/
theorem settle_admits (satisfied : ∀ a ∈ atoms, a.Holds holds t) (admits : c.Admits t) :
    ∃ d, settle holds atoms c = some d ∧ d.1.Admits t := by
  obtain ⟨d, ran, still⟩ := settle_keeps (stable_admits satisfied) ⟨c, rfl, admits⟩
  obtain ⟨e, settled, rfl⟩ := Option.map_eq_some_iff.1 ran
  exact ⟨e, settled, still⟩

/-- Where propagation stops, every constraint is consistent. -/
theorem settle_consistent (listed : ∀ a ∈ atoms, ∀ v ∈ a.vars, v ∈ c.vars)
    (ran : settle holds atoms c = some d) : ∀ a ∈ atoms, Consistent holds d.1 a := by
  intro a mem
  refine consistent_of_unchanged (fun v mentioned => ?_) (settle_unchanged ran a mem)
  rw [(settle_within ran).vars]
  exact listed a mem v mentioned

theorem collect_atoms (ran : collect holds b choice = some r) : r.atoms = b.atoms ++ choice := by
  induction choice generalizing b with
  | nil => cases ran; simp
  | cons a rest ih =>
    rw [collect] at ran
    split at ran
    · cases ran
    · rw [ih ran]; simp

/-- The constraints met so far are consistent whenever the next one is taken up. -/
theorem collect_consistent (listed : ∀ a ∈ b.atoms ++ choice, ∀ v ∈ a.vars, v ∈ b.candidates.vars)
    (start : ∀ a ∈ b.atoms, Consistent holds b.candidates a)
    (ran : collect holds b choice = some r) : ∀ a ∈ r.atoms, Consistent holds r.candidates a := by
  induction choice generalizing b with
  | nil => cases ran; exact start
  | cons a rest ih =>
    rw [collect] at ran
    split at ran
    · cases ran
    · next d reached settled =>
      have met : ∀ e ∈ b.atoms ++ [a], ∀ v ∈ e.vars, v ∈ b.candidates.vars := by
        intro e mem
        refine listed e ?_
        simp only [List.mem_append, List.mem_cons, List.not_mem_nil, or_false] at mem ⊢
        exact mem.imp id .inl
      refine ih (fun e mem v mentioned => ?_) (settle_consistent met settled) ran
      rw [(settle_within settled).vars]
      exact listed e (by simpa using mem) v mentioned

end Trellis.Solver
