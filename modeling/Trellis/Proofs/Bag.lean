import Trellis.Diagnostic.Bag
import Mathlib.Data.List.Induction

/-! The collector against its two-stage description. The description first leaves out
repetitions and then the errors beyond the limit; the collector looks at one finding at a
time, tests the limit first and forgets an error that it drops. That the two agree for every
order of errors, warnings and repetitions is an induction on the reports, last one first. -/
namespace Trellis

/-- The findings without the errors that follow the first `limit` errors. -/
def Diagnostic.firstErrors : Nat → List Diagnostic → List Diagnostic
  | _, [] => []
  | limit, d :: ds =>
    if d.isError then
      match limit with
      | 0 => firstErrors 0 ds
      | limit + 1 => d :: firstErrors limit ds
    else d :: firstErrors limit ds

namespace Diagnostic

theorem firstErrors_append (limit : Nat) (ds : List Diagnostic) (d : Diagnostic) :
    firstErrors limit (ds ++ [d]) = firstErrors limit ds ++
      if d.isError ∧ limit ≤ ds.countP (·.isError) then [] else [d] := by
  induction ds generalizing limit with
  | nil => cases limit <;> cases error : d.isError <;> simp [firstErrors, error]
  | cons e ds ih =>
    rw [List.cons_append, List.countP_cons]
    cases error : e.isError with
    | false => simp [firstErrors, error, ih]
    | true => cases limit <;> simp [firstErrors, error, ih]

theorem countP_firstErrors (limit : Nat) (ds : List Diagnostic) :
    (firstErrors limit ds).countP (·.isError) = min limit (ds.countP (·.isError)) := by
  induction ds using List.reverseRecOn with
  | nil => simp [firstErrors]
  | append_singleton ds d ih =>
    rw [firstErrors_append, List.countP_append, List.countP_append, ih, List.countP_singleton]
    cases error : d.isError with
    | false => simp [error]
    | true =>
      by_cases full : limit ≤ ds.countP (·.isError)
      · simp only [full, and_self, if_pos, List.countP_nil]
        omega
      · simp only [full, and_false, if_false, if_pos, List.countP_singleton, error]
        omega

theorem warnings_firstErrors (limit : Nat) (ds : List Diagnostic) :
    (firstErrors limit ds).filter (!·.isError) = ds.filter (!·.isError) := by
  induction ds using List.reverseRecOn with
  | nil => rfl
  | append_singleton ds d ih =>
    rw [firstErrors_append, List.filter_append, List.filter_append, ih]
    cases error : d.isError with
    | false => simp [error]
    | true => split <;> simp [error]

/-- A finding that is left out is an error, and the limit has been reached. -/
theorem mem_firstErrors {ds : List Diagnostic} (mem : d ∈ ds) :
    d ∈ firstErrors limit ds ∨ d.isError ∧ limit ≤ ds.countP (·.isError) := by
  induction ds using List.reverseRecOn with
  | nil => cases mem
  | append_singleton ds e ih =>
    rw [firstErrors_append, List.countP_append]
    rcases List.mem_append.1 mem with earlier | last
    · exact (ih earlier).imp (List.mem_append_left _) (.imp_right (Nat.le_add_right_of_le ·))
    · obtain rfl := List.mem_singleton.1 last
      by_cases beyond : d.isError ∧ limit ≤ ds.countP (·.isError)
      · exact .inr (beyond.imp_right (Nat.le_add_right_of_le ·))
      · rw [if_neg beyond]
        exact .inl (List.mem_append_right _ last)

theorem firstErrors_sublist (limit : Nat) (ds : List Diagnostic) :
    (firstErrors limit ds).Sublist ds := by
  induction ds using List.reverseRecOn with
  | nil => exact .slnil
  | append_singleton ds d ih =>
    rw [firstErrors_append]
    refine ih.append ?_
    split
    · exact List.nil_sublist _
    · exact .refl _

end Diagnostic

/-! ## What is to be kept -/

namespace BagConfig

/-- The reports, each at its first occurrence only where repetitions are not wanted. -/
def firsts (c : BagConfig) (reports : List Diagnostic) : List Diagnostic :=
  if c.deduplicate then reports.eraseDups else reports

/-- The findings without the errors beyond a positive limit. -/
def limited (c : BagConfig) (findings : List Diagnostic) : List Diagnostic :=
  if 0 < c.errorLimit then Diagnostic.firstErrors c.errorLimit findings else findings

/-- Whether the errors among the findings fill a positive limit. -/
def Filled (c : BagConfig) (findings : List Diagnostic) : Prop :=
  0 < c.errorLimit ∧ c.errorLimit ≤ findings.countP (·.isError)

instance (c : BagConfig) (findings : List Diagnostic) : Decidable (c.Filled findings) :=
  inferInstanceAs (Decidable (_ ∧ _))

/-- What becomes of a report. -/
inductive Fate where
  | kept
  | dropped
  | suppressed
deriving DecidableEq, Repr

/-- What is to become of a report after the earlier ones: an error is dropped where they fill
the limit, and any other repetition is suppressed. -/
def fate (c : BagConfig) (earlier : List Diagnostic) (d : Diagnostic) : Fate :=
  if d.isError ∧ c.Filled (c.firsts earlier) then .dropped
  else if c.deduplicate ∧ d ∈ earlier then .suppressed
  else .kept

/-- What is to become of each of the reports that follow the earlier ones. -/
def fates (c : BagConfig) (earlier : List Diagnostic) : List Diagnostic → List Fate
  | [] => []
  | d :: ds => c.fate earlier d :: c.fates (earlier ++ [d]) ds

variable (c : BagConfig) {reports : List Diagnostic} {d : Diagnostic}

theorem fates_append (earlier ds : List Diagnostic) (d : Diagnostic) :
    c.fates earlier (ds ++ [d]) = c.fates earlier ds ++ [c.fate (earlier ++ ds) d] := by
  induction ds generalizing earlier with
  | nil => simp [fates]
  | cons e ds ih => simp [fates, ih]

theorem length_fates (earlier ds : List Diagnostic) :
    ds.length = (c.fates earlier ds).count .kept + (c.fates earlier ds).count .dropped +
      (c.fates earlier ds).count .suppressed := by
  induction ds generalizing earlier with
  | nil => rfl
  | cons d ds ih =>
    rw [fates, List.length_cons, ih (earlier ++ [d])]
    cases c.fate earlier d <;> simp <;> omega

theorem mem_firsts : d ∈ c.firsts reports ↔ d ∈ reports := by
  unfold firsts
  split
  · exact List.mem_eraseDups
  · exact Iff.rfl

theorem firsts_append (reports : List Diagnostic) (d : Diagnostic) :
    c.firsts (reports ++ [d]) =
      c.firsts reports ++ if c.deduplicate ∧ d ∈ reports then [] else [d] := by
  unfold firsts
  cases c.deduplicate with
  | false => simp
  | true =>
    rw [if_pos rfl, if_pos rfl, List.eraseDups_append]
    by_cases earlier : d ∈ reports <;> simp [earlier, List.removeAll, List.eraseDups_cons]

theorem limited_append (findings : List Diagnostic) (d : Diagnostic) :
    c.limited (findings ++ [d]) =
      c.limited findings ++ if d.isError ∧ c.Filled findings then [] else [d] := by
  unfold limited Filled
  by_cases positive : 0 < c.errorLimit
  · simp only [positive, if_true, true_and, Diagnostic.firstErrors_append]
  · simp only [positive, if_false, false_and, and_false]

theorem warnings_limited (findings : List Diagnostic) :
    (c.limited findings).filter (!·.isError) = findings.filter (!·.isError) := by
  unfold limited
  split
  · exact Diagnostic.warnings_firstErrors _ _
  · rfl

/-- A report that is not dropped is kept already exactly if it was made before. -/
theorem mem_limited (lives : ¬ (d.isError ∧ c.Filled (c.firsts reports))) :
    d ∈ c.limited (c.firsts reports) ↔ d ∈ reports := by
  refine Iff.trans ?_ c.mem_firsts
  unfold limited
  split
  · next positive =>
    refine ⟨fun mem => (Diagnostic.firstErrors_sublist _ _).subset mem, fun mem => ?_⟩
    exact (Diagnostic.mem_firstErrors mem).resolve_right fun beyond =>
      lives ⟨beyond.1, positive, beyond.2⟩
  · exact Iff.rfl

/-- One report more adds what is to become of it. -/
theorem limited_firsts_append (reports : List Diagnostic) (d : Diagnostic) :
    c.limited (c.firsts (reports ++ [d])) =
      c.limited (c.firsts reports) ++ if c.fate reports d = .kept then [d] else [] := by
  rw [firsts_append]
  unfold fate
  by_cases repeated : c.deduplicate ∧ d ∈ reports
  · rw [if_pos repeated, if_pos repeated, List.append_nil]
    split <;> simp
  · rw [if_neg repeated, if_neg repeated, limited_append]
    by_cases dropped : d.isError ∧ c.Filled (c.firsts reports)
    · rw [if_pos dropped, if_pos dropped]
      rfl
    · rw [if_neg dropped, if_neg dropped]
      rfl

end BagConfig

/-! ## The collector -/

namespace DiagnosticBag

/-- A bag that holds what is to be kept of some reports, and counts what it is to count. -/
structure Collects (c : BagConfig) (reports : List Diagnostic) (b : DiagnosticBag) : Prop where
  config : b.config = c
  kept : b.kept.toList = c.limited (c.firsts reports)
  errors : b.errorCount = b.kept.toList.countP (·.isError)
  dropped : b.dropped = (c.fates [] reports).count .dropped
  size : b.kept.size = (c.fates [] reports).count .kept

theorem collects_new (c : BagConfig) : Collects c [] (new c) where
  config := rfl
  kept := by
    unfold BagConfig.firsts BagConfig.limited
    split <;> split <;> rfl
  errors := rfl
  dropped := rfl
  size := rfl

namespace Collects

variable {c : BagConfig} {reports : List Diagnostic} {b : DiagnosticBag}

/-- The number of kept errors stops at a positive limit. -/
theorem errors_stop (collects : Collects c reports b) (positive : 0 < c.errorLimit) :
    b.errorCount = min c.errorLimit ((c.firsts reports).countP (·.isError)) := by
  rw [collects.errors, collects.kept, BagConfig.limited, if_pos positive,
    Diagnostic.countP_firstErrors]

theorem reached_at_limit (collects : Collects c reports b) :
    b.limitReached = true ↔ 0 < c.errorLimit ∧ c.errorLimit ≤ b.errorCount := by
  rw [limitReached, Bool.and_eq_true, decide_eq_true_iff, decide_eq_true_iff, collects.config]

theorem reached_iff (collects : Collects c reports b) :
    b.limitReached = true ↔ c.Filled (c.firsts reports) := by
  refine collects.reached_at_limit.trans (and_congr_right fun positive => ?_)
  rw [collects.errors_stop positive, Nat.le_min]
  exact and_iff_right (Nat.le_refl _)

theorem reached_exactly (collects : Collects c reports b) :
    b.limitReached = true ↔ 0 < c.errorLimit ∧ b.errorCount = c.errorLimit := by
  refine collects.reached_at_limit.trans (and_congr_right fun positive => ?_)
  rw [collects.errors_stop positive]
  omega

theorem seen_iff (collects : Collects c reports b)
    (lives : ¬ (d.isError ∧ c.Filled (c.firsts reports))) :
    b.seen.contains d = true ↔ d ∈ reports := by
  rw [Std.HashSet.contains_iff_mem, b.mem_seen, ← Array.mem_toList_iff, collects.kept,
    c.mem_limited lives]

/-- A report is taken in as the earlier ones say. -/
theorem report_eq (collects : Collects c reports b) (d : Diagnostic) :
    b.report d = match c.fate reports d with
      | .kept => b.keep d
      | .dropped => { b with dropped := b.dropped + 1 }
      | .suppressed => b := by
  unfold report BagConfig.fate
  simp only [Bool.and_eq_true, collects.reached_iff, collects.config]
  by_cases beyond : d.isError ∧ c.Filled (c.firsts reports)
  · rw [if_pos beyond, if_pos beyond]
  · rw [if_neg beyond, if_neg beyond]
    simp only [collects.seen_iff beyond]
    split <;> rfl

/-- To collect one report more is to keep it, to count it or to do nothing, as its fate is. -/
theorem grow {grown : DiagnosticBag} (collects : Collects c reports b)
    (config : grown.config = b.config)
    (kept : grown.kept.toList = b.kept.toList ++ if c.fate reports d = .kept then [d] else [])
    (errors : grown.errorCount = grown.kept.toList.countP (·.isError))
    (dropped : grown.dropped = b.dropped + [c.fate reports d].count .dropped) :
    Collects c (reports ++ [d]) grown where
  config := config.trans collects.config
  kept := by rw [kept, collects.kept, ← c.limited_firsts_append]
  errors := errors
  dropped := by rw [dropped, c.fates_append, List.count_append, List.nil_append, collects.dropped]
  size := by
    rw [c.fates_append, List.count_append, List.nil_append, ← collects.size,
      ← Array.length_toList, kept, List.length_append, Array.length_toList]
    cases c.fate reports d <;> rfl

theorem report (collects : Collects c reports b) (d : Diagnostic) :
    Collects c (reports ++ [d]) (b.report d) := by
  rw [collects.report_eq]
  cases fate : c.fate reports d with
  | kept =>
    refine collects.grow rfl ?_ ?_ (by rw [fate]; rfl)
    · rw [if_pos fate]
      exact Array.toList_push
    · change (if d.isError then b.errorCount + 1 else b.errorCount) =
        (b.kept.push d).toList.countP (·.isError)
      rw [Array.toList_push, List.countP_append, ← collects.errors, List.countP_singleton]
      split <;> rfl
  | dropped =>
    exact collects.grow rfl (by simp [fate]) collects.errors (by rw [fate]; rfl)
  | suppressed =>
    exact collects.grow rfl (by simp [fate]) collects.errors (by rw [fate]; rfl)

end Collects

/-- What a host does with a bag. -/
inductive Use where
  | report (d : Diagnostic)
  | take

def use (b : DiagnosticBag) : Use → DiagnosticBag
  | .report d => b.report d
  | .take => b.take.2

/-- The reports since the bag was last emptied. -/
def sinceTake : List Use → List Diagnostic :=
  List.foldl (fun reports u => match u with
    | .report d => reports ++ [d]
    | .take => []) []

/-- The bag that a host has after some uses. -/
def run (c : BagConfig) (us : List Use) : DiagnosticBag := us.foldl use (new c)

theorem run_collects (c : BagConfig) (us : List Use) : Collects c (sinceTake us) (run c us) := by
  induction us using List.reverseRecOn with
  | nil => exact collects_new c
  | append_singleton us u ih =>
    unfold run sinceTake at *
    rw [List.foldl_append, List.foldl_append]
    cases u with
    | report d => exact ih.report d
    | take =>
      change Collects c [] (new _)
      rw [ih.config]
      exact collects_new c

/-- **The bag keeps a well-defined part of the reports.** Whatever the configuration, and
however reports and takes follow each other, the bag holds the reports since the last take
without repetitions where these are not wanted, and of those all but the errors beyond a positive
limit; this is what the next take hands out. The errors among them are counted, the
warnings among them are those of all reports, the limit counts as reached exactly when it is
positive and equal to that count, and each report was kept, dropped for the limit or
suppressed as a repetition. -/
theorem run_two_stages (c : BagConfig) (us : List Use) :
    (run c us).kept.toList = c.limited (c.firsts (sinceTake us)) ∧
    (run c us).take.1 = (run c us).kept ∧
    (run c us).errorCount = (run c us).kept.toList.countP (·.isError) ∧
    (run c us).kept.toList.filter (!·.isError) =
      (c.firsts (sinceTake us)).filter (!·.isError) ∧
    ((run c us).limitReached = true ↔
      0 < c.errorLimit ∧ (run c us).errorCount = c.errorLimit) ∧
    (run c us).size = (c.fates [] (sinceTake us)).count .kept ∧
    (run c us).dropped = (c.fates [] (sinceTake us)).count .dropped ∧
    (sinceTake us).length = (run c us).size + (run c us).dropped +
      (c.fates [] (sinceTake us)).count .suppressed := by
  have collects := run_collects c us
  refine ⟨collects.kept, rfl, collects.errors, ?_, collects.reached_exactly, collects.size,
    collects.dropped, ?_⟩
  · rw [collects.kept, c.warnings_limited]
  · rw [size, collects.size, collects.dropped]
    exact c.length_fates [] _

end DiagnosticBag
end Trellis
