import Trellis.Diagnostic.Definition

/-! What a checkpoint of a definition's log carries. The log remembers that something
waits for a checkpoint, and a checkpoint settles that; the findings themselves it keeps.
So a checkpoint fails for what was reported since the previous one, and its failure
carries the errors from before as well. -/
namespace Trellis

/-- What a log is asked: a check, several checks, an error, a checkpoint, or to stand
somewhere else from now on. -/
inductive LogStep where
  | check (ok : Bool) (code : ErrorCode) (severity : Severity) (message : String)
  | checkAll (severity : Severity) (checks : List (Bool × ErrorCode × String))
  | error (code : ErrorCode) (message : String)
  | checkpoint
  | stand (context : ContextStack)

namespace LogStep

def run : LogStep → DefinitionLog → Except DefinitionError Unit × DefinitionLog
  | check ok code severity message, log => log.check ok code severity message
  | checkAll severity checks, log => log.checkAll severity checks
  | error code message, log => (.error (log.error code message).1, (log.error code message).2)
  | checkpoint, log => log.checkpoint
  | stand context, log => (.ok (), { log with context := context })

/-- The findings of a step, as a log that stands where `log` stands places them. Several
checks stop at the first that fails only if that is an error. -/
def findings (log : DefinitionLog) : LogStep → List Diagnostic
  | check ok code severity message => if ok then [] else [log.place code severity message]
  | checkAll severity checks =>
    let failed := checks.filter fun (ok, _, _) => !ok
    let told := if severity = .error then failed.take 1 else failed
    told.map fun (_, code, message) => log.place code severity message
  | error code message => [log.place code .error message]
  | checkpoint => []
  | stand _ => []

end LogStep

/-- A log together with what was reported before the last checkpoint and what since. -/
structure LogHistory where
  log : DefinitionLog
  earlier : List Diagnostic
  recent : List Diagnostic

namespace LogHistory

def new : LogHistory := ⟨.empty, [], []⟩

def step (h : LogHistory) (step : LogStep) : LogHistory :=
  let log := (step.run h.log).2
  match step with
  | .checkpoint => ⟨log, h.earlier ++ h.recent, []⟩
  | step => ⟨log, h.earlier, h.recent ++ step.findings h.log⟩

def after (steps : List LogStep) : LogHistory := steps.foldl step new

/-- The log holds all findings, in the order they were reported, and it waits for a
checkpoint exactly if there is a reason to. -/
structure Kept (h : LogHistory) : Prop where
  reported : h.log.reported = h.earlier ++ h.recent
  pending : h.log.pending = h.recent.any (·.severity == .nonBlocking)

end LogHistory

namespace DefinitionLog

variable {log after : DefinitionLog} {told : List Diagnostic}

/-- A log that was told these findings, and nothing else. -/
structure Told (log : DefinitionLog) (told : List Diagnostic) (after : DefinitionLog) : Prop where
  context : after.context = log.context
  reported : after.reported = log.reported ++ told
  pending : after.pending = (log.pending || told.any (·.severity == .nonBlocking))

theorem told_nothing (log : DefinitionLog) : log.Told [] log :=
  ⟨rfl, by simp, by simp⟩

theorem Told.trans {more : List Diagnostic} {last : DefinitionLog} (first : log.Told told after)
    (next : after.Told more last) : log.Told (told ++ more) last where
  context := next.context.trans first.context
  reported := by rw [next.reported, first.reported, List.append_assoc]
  pending := by rw [next.pending, first.pending, List.any_append, Bool.or_assoc]

/-- Where findings are placed depends on where the log stands alone. -/
theorem Told.findings (heard : log.Told told after) (step : LogStep) :
    step.findings after = step.findings log := by
  unfold LogStep.findings place
  rw [heard.context]

theorem report_told (log : DefinitionLog) (code : ErrorCode) (severity : Severity)
    (message : String) :
    log.Told [log.place code severity message] (log.report code severity message).2 := by
  cases severity <;> exact ⟨rfl, rfl, by simp [report, DefinitionLog.place]⟩

theorem check_all_told (severity : Severity) (checks : List (Bool × ErrorCode × String))
    (log : DefinitionLog) :
    log.Told ((LogStep.checkAll severity checks).findings log) (log.checkAll severity checks).2 := by
  induction checks generalizing log with
  | nil => simpa [LogStep.findings, checkAll] using log.told_nothing
  | cons c rest ih =>
    obtain ⟨ok, code, message⟩ := c
    cases ok with
    | true => exact ih log
    | false =>
      have heard := log.report_told code severity message
      have further := heard.trans (ih (log.report code severity message).2)
      rw [heard.findings] at further
      -- Only an error keeps the checks after it from being made.
      cases severity with
      | error => exact heard
      | nonBlocking => exact further
      | warning => exact further

/-- How a checkpoint fails. -/
theorem checkpoint_failed_iff (log : DefinitionLog) (e : DefinitionError) :
    log.checkpoint.1 = .error e ↔
      log.pending = true ∧ e.context = log.context.structured ∧
        e.diagnostics = log.reported.filter (·.isError) := by
  obtain ⟨primary, context, related⟩ := e
  simp only [checkpoint, DefinitionError.diagnostics]
  cases log.pending with
  | false => simp
  | true =>
    cases log.reported.filter (·.isError) with
    | nil => simp
    | cons d rest => simp [eq_comm, and_left_comm]

/-- A checkpoint settles what waited for it, and leaves all else. -/
theorem checkpoint_after (log : DefinitionLog) :
    log.checkpoint.2 = { log with pending := false } := by
  unfold checkpoint
  cases waits : log.pending with
  | false => rw [if_neg (by simp), ← waits]
  | true =>
    rw [if_pos rfl]
    dsimp only
    split <;> rfl

end DefinitionLog

namespace LogHistory

open DefinitionLog

/-- A step that is no checkpoint tells the log its findings; where it moves the log, it
tells it nothing. -/
theorem step_told (step : LogStep) (log : DefinitionLog) (different : step ≠ .checkpoint) :
    (step.run log).2.reported = log.reported ++ step.findings log ∧
      (step.run log).2.pending =
        (log.pending || (step.findings log).any (·.severity == .nonBlocking)) := by
  have told {told : List Diagnostic} {after : DefinitionLog} (heard : log.Told told after) :=
    And.intro heard.reported heard.pending
  cases step with
  | check ok code severity message =>
    cases ok with
    | true => exact told log.told_nothing
    | false => exact told (log.report_told code severity message)
  | checkAll severity checks => exact told (log.check_all_told severity checks)
  | error code message => exact told (log.report_told code .error message)
  | checkpoint => exact absurd rfl different
  | stand context => simp [LogStep.run, LogStep.findings]

theorem Kept.step {h : LogHistory} (kept : h.Kept) (step : LogStep) : (h.step step).Kept := by
  by_cases same : step = .checkpoint
  · subst same
    have after : (h.step .checkpoint).log = { h.log with pending := false } :=
      h.log.checkpoint_after
    exact ⟨by rw [after]; simp [LogHistory.step, kept.reported], by rw [after]; rfl⟩
  · obtain ⟨reported, pending⟩ := step_told step h.log same
    have stepped : h.step step =
        ⟨(step.run h.log).2, h.earlier, h.recent ++ step.findings h.log⟩ := by
      cases step <;> first | rfl | exact absurd rfl same
    rw [stepped]
    exact ⟨by rw [reported, kept.reported, List.append_assoc],
      by rw [pending, kept.pending, List.any_append]⟩

theorem kept_after (steps : List LogStep) : (after steps).Kept := by
  have kept (h : LogHistory) (start : h.Kept) : (steps.foldl step h).Kept := by
    induction steps generalizing h with
    | nil => exact start
    | cons step rest ih => exact ih (h.step step) (start.step step)
  exact kept new ⟨rfl, rfl⟩

/-- **A checkpoint fails for its own errors and carries the old ones too.** After any
steps, failed ones included, a checkpoint fails exactly if a non-blocking error was
reported since the previous checkpoint. What its failure carries are the errors reported
before that checkpoint and then those reported since, each as often as it was reported and
in that order. So it carries its own errors exactly if there were none before. -/
theorem checkpoint_carries_all_errors (steps : List LogStep) :
    let h := after steps
    ((∃ e, h.log.checkpoint.1 = .error e) ↔ ∃ d ∈ h.recent, d.severity = .nonBlocking) ∧
    ∀ e, h.log.checkpoint.1 = .error e →
      e.context = h.log.context.structured ∧
      e.diagnostics = h.earlier.filter (·.isError) ++ h.recent.filter (·.isError) ∧
      (e.diagnostics = h.recent.filter (·.isError) ↔ ∀ d ∈ h.earlier, d.isError = false) := by
  intro h
  have kept : h.Kept := kept_after steps
  have waits : h.log.pending = true ↔ ∃ d ∈ h.recent, d.severity = .nonBlocking := by
    rw [kept.pending, List.any_eq_true]
    simp
  have errors : h.log.reported.filter (·.isError) =
      h.earlier.filter (·.isError) ++ h.recent.filter (·.isError) := by
    rw [kept.reported, List.filter_append]
  refine ⟨⟨fun ⟨e, failed⟩ => waits.1 ((h.log.checkpoint_failed_iff e).1 failed).1, ?_⟩, ?_⟩
  · rintro ⟨d, recent, severe⟩
    have carried : d ∈ h.log.reported.filter (·.isError) :=
      List.mem_filter.2
        ⟨by simp [kept.reported, recent], by simp [Diagnostic.isError, severe, Severity.isError]⟩
    obtain ⟨primary, related, all⟩ := List.exists_cons_of_ne_nil (List.ne_nil_of_mem carried)
    exact ⟨⟨primary, h.log.context.structured, related⟩, (h.log.checkpoint_failed_iff _).2
      ⟨waits.2 ⟨d, recent, severe⟩, rfl, all.symm⟩⟩
  · intro e failed
    obtain ⟨-, context, carried⟩ := (h.log.checkpoint_failed_iff e).1 failed
    rw [errors] at carried
    refine ⟨context, carried, ?_⟩
    rw [carried, List.append_left_eq_self, List.filter_eq_nil_iff]
    simp

/-- An error is waiting when a check fails for good, and another one is found after the
checkpoint that reported them. -/
theorem checkpoint_carries_all_errors_of_later :
    let steps : List LogStep :=
      [.check false .K1003 .nonBlocking "first", .checkAll .error [(false, .K1005, "second")],
        .checkpoint, .checkAll .nonBlocking [(true, .K1001, "fine"), (false, .K1004, "third")],
        .check false .K1010 .warning "noted"]
    let h := after steps
    (∃ d ∈ h.recent, d.severity = .nonBlocking) ∧
    ∃ e, h.log.checkpoint.1 = .error e ∧
      e.diagnostics.map (·.code) = [.K1003, .K1005, .K1004] ∧
      e.diagnostics ≠ h.recent.filter (·.isError) := by
  intro steps h
  obtain ⟨fails, carries⟩ := checkpoint_carries_all_errors steps
  have waits : ∃ d ∈ h.recent, d.severity = .nonBlocking := by decide
  obtain ⟨e, failed⟩ := fails.2 waits
  obtain ⟨-, carried, own⟩ := carries e failed
  refine ⟨waits, e, failed, ?_, fun same => ?_⟩
  · rw [carried]
    decide
  · exact absurd (own.1 same) (by decide)

/-- A checkpoint carries an error that the previous checkpoint reported. -/
theorem checkpoint_repeats_reported_error :
    let first : LogStep := .check false .K1003 .nonBlocking "first"
    let second : LogStep := .check false .K1004 .nonBlocking "second"
    let h := after [first, .checkpoint, second]
    ∃ e, (after [first]).log.checkpoint.1 = .error e ∧
      ∃ again, h.log.checkpoint.1 = .error again ∧
        again.primary = e.primary ∧ again.primary ∉ h.recent :=
  ⟨_, rfl, _, rfl, rfl, by decide⟩

end LogHistory
end Trellis
