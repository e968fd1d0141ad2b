import Trellis.Diagnostic.Context
import Mathlib.Data.List.InsertIdx

/-! The condensed context against the rule it follows. The walk from the inside remembers the
categories it has met; the rule looks at the frames alone. A located frame stands unless a located
frame of its category lies further in. So what stands after a push is the new frame and what stood
before without its category, and that carries the comparison from frame to frame. -/
namespace Trellis
namespace ContextFrame

/-- What a report says of a frame, which is nothing where the frame has no site. -/
def entry (f : ContextFrame) : Option (String × Site) := f.site.map (f.message, ·)

/-- Whether both frames have a category and it is the same. -/
def alike (f g : ContextFrame) : Bool := f.category.any (g.category = some ·)

/-- Whether the frame has one of the categories. -/
def met (categories : List String) (f : ContextFrame) : Bool := f.category.any (· ∈ categories)

/-- The frames, innermost first, without those that are alike to one further in. -/
def standing (fs : List ContextFrame) : List ContextFrame :=
  (fs.zipIdx.filter fun (f, i) => (fs.take i).all (!·.alike f)).map (·.1)

variable {f g h : ContextFrame} (fs : List ContextFrame)

theorem entry_of_site {site : Site} (sited : f.site = some site) :
    f.entry = some (f.message, site) := by
  rw [entry, sited, Option.map_some]

theorem alike_iff : f.alike g = true ↔ ∃ c, f.category = some c ∧ g.category = some c := by
  rw [alike, Option.any_eq_true]
  simp only [decide_eq_true_eq]

/-- Frames that one frame is alike to are alike to each other. -/
theorem alike_of_alike (first : f.alike g = true) (second : f.alike h = true) :
    g.alike h = true := by
  obtain ⟨c, held, same⟩ := alike_iff.1 first
  obtain ⟨d, again, other⟩ := alike_iff.1 second
  obtain rfl := Option.some.inj (held.symm.trans again)
  exact alike_iff.2 ⟨c, same, other⟩

/-! ## What stands -/

theorem standing_cons : standing (f :: fs) = f :: (standing fs).filter (!f.alike ·) := by
  unfold standing
  rw [List.zipIdx_cons, List.zipIdx_succ, List.filter_cons_of_pos (by simp), List.map_cons,
    List.filter_map, List.map_map, List.filter_map, List.filter_filter]
  simp [Function.comp_def]

theorem standing_pairwise : (standing fs).Pairwise fun f g => f.alike g = false := by
  induction fs with
  | nil => exact .nil
  | cons f fs ih =>
    rw [standing_cons, List.pairwise_cons]
    exact ⟨fun g kept => by simpa using (List.mem_filter.1 kept).2, ih.filter _⟩

/-- Where no two frames are alike, at most one of them is alike to `f`. -/
theorem filter_eq_erase {fs : List ContextFrame}
    (apart : fs.Pairwise fun g h => g.alike h = false) :
    fs.filter (!f.alike ·) = fs.eraseP f.alike := by
  induction apart with
  | nil => rfl
  | @cons g rest further _ ih =>
    cases same : f.alike g with
    | false =>
      rw [List.filter_cons_of_pos (by simp [same]), List.eraseP_cons_of_neg (by simp [same]), ih]
    | true =>
      have others : ∀ h ∈ rest, (!f.alike h) = true := fun h mem => by
        rw [Bool.not_eq_true', Bool.eq_false_iff]
        exact fun again => Bool.eq_false_iff.1 (further h mem) (alike_of_alike same again)
      rw [List.filter_cons_of_neg (by simp [same]), List.eraseP_cons_of_pos same,
        List.filter_eq_self.2 others]

/-- A frame leaves the frames of another category alone, and those without one. -/
theorem filter_of_other {category : Option String}
    (other : f.category = category → category = none) :
    (fs.filter (!f.alike ·)).filter (·.category == category) =
      fs.filter (·.category == category) := by
  rw [List.filter_filter]
  refine List.filter_congr fun g _ => ?_
  rw [Bool.and_eq_left_iff_imp, beq_iff_eq, Bool.not_eq_true', Bool.eq_false_iff]
  intro held same
  obtain ⟨c, of_f, of_g⟩ := alike_iff.1 same
  have category_eq : category = some c := held.symm.trans of_g
  exact Option.some_ne_none c (category_eq.symm.trans (other (of_f.trans category_eq.symm)))

/-- Of each category the innermost frame stands, and no other. -/
theorem standing_of_category (c : String) : (standing fs).filter (·.category == some c) =
    (fs.find? (·.category == some c)).toList := by
  induction fs with
  | nil => rfl
  | cons f fs ih =>
    rw [standing_cons, List.filter_cons, List.find?_cons]
    cases same : f.category == some c with
    | false =>
      have other : f.category = some c → some c = none := fun held => by simp [held] at same
      exact (filter_of_other _ other).trans ih
    | true =>
      have gone : ∀ g ∈ (standing fs).filter (!f.alike ·), ¬(g.category == some c) = true := by
        intro g kept again
        have like : f.alike g = true := alike_iff.2 ⟨c, beq_iff_eq.1 same, beq_iff_eq.1 again⟩
        simp [like] at kept
      rw [if_pos rfl, List.filter_eq_nil_iff.2 gone]
      rfl

/-- Frames without a category all stand. -/
theorem standing_of_none :
    (standing fs).filter (·.category == none) = fs.filter (·.category == none) := by
  induction fs with
  | nil => rfl
  | cons f fs ih =>
    rw [standing_cons, List.filter_cons, List.filter_cons, filter_of_other _ fun _ => rfl, ih]

/-! ## What the walk shows -/

theorem filter_of_none (free : f.category = none) : fs.filter (!f.alike ·) = fs :=
  List.filter_eq_self.2 fun g _ => by simp [alike, free]

/-- To have met a frame is to have met its category. -/
theorem filter_met_cons {c : String} (held : f.category = some c) (shown : List String) :
    (fs.filter (!f.alike ·)).filter (!·.met shown) = fs.filter (!·.met (c :: shown)) := by
  rw [List.filter_filter]
  refine List.filter_congr fun g _ => ?_
  cases of_g : g.category <;> simp [met, alike, held, of_g, Bool.and_comm]

theorem met_cons_of_mem {c : String} {shown : List String} (known : c ∈ shown) :
    met (c :: shown) = met shown := by
  have same (d : String) : (d ∈ c :: shown) = (d ∈ shown) :=
    propext ⟨fun mem => (List.mem_cons.1 mem).elim (· ▸ known) id, List.mem_cons_of_mem _⟩
  unfold met
  simp only [same]

/-- The walk shows of what stands all that was not met further in. -/
theorem condense_eq (shown : List String) :
    (ContextStack.condense shown fs).map some =
      ((standing (fs.filter (·.site.isSome))).filter (!·.met shown)).map entry := by
  induction fs generalizing shown with
  | nil => rfl
  | cons f fs ih =>
    rw [ContextStack.condense]
    cases sited : f.site with
    | none =>
      rw [List.filter_cons_of_neg (by simp [sited])]
      exact ih shown
    | some site =>
      rw [List.filter_cons_of_pos (by simp [sited]), standing_cons]
      cases held : f.category with
      | none =>
        rw [filter_of_none _ held, List.filter_cons_of_pos (by simp [met, held]), List.map_cons,
          List.map_cons, entry_of_site sited, ih]
      | some c =>
        dsimp only
        -- Whether the category is met here or was before, it hides what is further out.
        by_cases known : c ∈ shown
        · rw [if_pos known, List.filter_cons_of_neg (by simp [met, held, known]),
            filter_met_cons _ held, met_cons_of_mem known, ih]
        · rw [if_neg known, List.filter_cons_of_pos (by simp [met, held, known]),
            filter_met_cons _ held, List.map_cons, List.map_cons, entry_of_site sited, ih]

end ContextFrame

namespace ContextStack

open ContextFrame

/-- The frames that have a site, innermost first. -/
def located (s : ContextStack) : List ContextFrame := s.frames.filter (·.site.isSome)

/-- The frames that the condensed context is to show, innermost first. -/
def shown (s : ContextStack) : List ContextFrame := standing s.located

variable (s : ContextStack) (f : ContextFrame)

theorem structured_shown : s.structured.map some = s.shown.map entry := by
  unfold structured shown located
  rw [condense_eq, List.filter_eq_self.2]
  exact fun g _ => by simp [met]

theorem shown_push :
    (s.push f).shown = if f.site.isSome then f :: s.shown.eraseP f.alike else s.shown := by
  unfold shown located push
  dsimp only
  rw [List.filter_cons]
  split
  · rw [standing_cons, filter_eq_erase (standing_pairwise _)]
  · rfl

/-- The condensed context without the entry of `f`'s category, where it has one. -/
def beside : List (String × Site) :=
  match s.shown.findIdx? f.alike with
  | none => s.structured
  | some i => s.structured.eraseIdx i

theorem beside_shown : (s.beside f).map some = (s.shown.eraseP f.alike).map entry := by
  rw [beside, List.eraseP_eq_eraseIdx]
  cases s.shown.findIdx? f.alike with
  | none => exact s.structured_shown
  | some i =>
    dsimp only
    rw [← List.eraseIdx_map, ← List.eraseIdx_map, structured_shown]

theorem structured_push : (s.push f).structured =
    match f.entry with
    | none => s.structured
    | some e => e :: s.beside f := by
  -- An entry does not tell its category, so the comparison goes through the frames shown.
  refine (List.map_inj_right fun _ _ => Option.some.inj).1 ?_
  rw [structured_shown, shown_push]
  cases sited : f.site with
  | none =>
    have untold : f.entry = none := by rw [entry, sited, Option.map_none]
    rw [untold, if_neg (by simp), structured_shown]
  | some site =>
    have told := entry_of_site sited
    rw [told, if_pos Option.isSome_some]
    dsimp only
    rw [List.map_cons, List.map_cons, beside_shown, told]

/-- What pushing does determines what is shown. -/
theorem eq_shown_iff {list : ContextStack → List ContextFrame} :
    list = shown ↔ list empty = [] ∧ ∀ s f, list (s.push f) =
      if f.site.isSome then f :: (list s).eraseP f.alike else list s := by
  constructor
  · rintro rfl
    exact ⟨rfl, shown_push⟩
  · rintro ⟨start, step⟩
    funext ⟨frames⟩
    induction frames with
    | nil => exact start
    | cons f fs ih =>
      have pushed := step ⟨fs⟩ f
      rw [ih, ← shown_push] at pushed
      exact pushed

/-- **The condensed context keeps the innermost located frame of each category.** Its entries
are those of the located frames, from the innermost outwards, of which a frame stays out exactly
if a located frame of its category lies further in. So of every category it keeps the innermost
located frame alone, and it keeps all located frames without a category. Pushing a frame without
a site leaves it as it is; pushing one with a site puts the entry of that frame in front and
takes out the one of its category, if there is one, with the others in their order. What is
shown is the only way to list frames that starts empty and follows this rule. -/
theorem structured_keeps_innermost :
    (∀ s, (structured s).map some = s.shown.map entry) ∧
    (∀ s c, (shown s).filter (·.category == some c) =
      (s.located.find? (·.category == some c)).toList) ∧
    (∀ s, (shown s).filter (·.category == none) = s.located.filter (·.category == none)) ∧
    (∀ s f, (push s f).structured =
      match f.entry with
      | none => s.structured
      | some e => e :: s.beside f) ∧
    ∀ list : ContextStack → List ContextFrame,
      list = shown ↔ list empty = [] ∧ ∀ s f, list (s.push f) =
        if f.site.isSome then f :: (list s).eraseP f.alike else list s :=
  ⟨structured_shown, fun s => standing_of_category s.located, fun s => standing_of_none s.located,
    structured_push, fun _ => eq_shown_iff⟩

/-- A frame without a site hides nothing, and one with a site hides what is further out. -/
example :
    structured ⟨[⟨"in Bar", none, some "kind"⟩, ⟨"in Foo", some .caller, some "kind"⟩,
      ⟨"in size", some .caller, some "property"⟩, ⟨"in Leaf", some .caller, some "kind"⟩]⟩ =
    [("in Foo", .caller), ("in size", .caller)] := by
  decide

end ContextStack
end Trellis
