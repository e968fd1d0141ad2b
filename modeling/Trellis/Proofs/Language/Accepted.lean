import Trellis.Proofs.Language.Declarations

/-! What a build rules out. A definition is made a language only if the walks over
its bodies and its environment specifications find no mistake; here is read off
what that says about each part of them. -/
namespace Trellis

/-- A report that does not keep a definition from being built. -/
def Report.Clean (r : Report) : Prop := ∀ d ∈ r.findings, d.severity ≠ .nonBlocking

namespace Report

@[simp] theorem clean_empty : Report.empty.Clean := fun _ mem => (List.not_mem_nil mem).elim

@[simp] theorem clean_append (r s : Report) : (r ++ s).Clean ↔ r.Clean ∧ s.Clean :=
  List.forall_mem_append

/-- A report put together from one part for each element of a list. -/
theorem clean_foldl {f : Report → α → Report} {p : α → Prop}
    (each : ∀ r x, (f r x).Clean ↔ r.Clean ∧ p x) (xs : List α) (start : Report) :
    (xs.foldl f start).Clean ↔ start.Clean ∧ ∀ x ∈ xs, p x := by
  induction xs generalizing start with
  | nil => simp
  | cons x rest ih => simp [ih, each, and_assoc]

end Report

/-- A property can be called with so many arguments where these dynamic variables are
bound. -/
def Definition.Callable (d : Definition) (p : PropId) (args : Nat) (available : List DynVarId) :
    Prop :=
  ∃ info, d.property? p = some info ∧ info.params.length = args ∧
    ∀ v ∈ info.dynVars, v ∈ available

namespace Definition
variable {d : Definition} {p : PropId} {available : List DynVarId}

theorem available_of_not_missing {required : List DynVarId}
    (none_ : d.missingDynVar required available = none) : ∀ v ∈ required, v ∈ available := by
  intro v mem
  have found := List.find?_eq_none.1 (Option.map_eq_none_iff.1 none_) v mem
  simpa using found

theorem callable_of_relation (fine : d.relationProblem p available = none) :
    d.Callable p 1 available := by
  unfold relationProblem at fine
  split at fine
  · cases fine
  · next info known =>
    split at fine
    · next shape =>
      have one : info.params.length = 1 := by
        have := congrArg List.length shape.1
        simpa [PropertyInfo.paramTypes] using this
      exact ⟨info, known, one, available_of_not_missing (Option.map_eq_none_iff.1 fine)⟩
    · cases fine

theorem callable_of_predicate (fine : d.predicateProblem p available = none) :
    d.Callable p 0 available := by
  unfold predicateProblem at fine
  split at fine
  · cases fine
  · next info known =>
    split at fine
    · next shape =>
      exact ⟨info, known, by rw [shape.1]; rfl,
        available_of_not_missing (Option.map_eq_none_iff.1 fine)⟩
    · cases fine

end Definition

namespace CheckContext
open Report
variable (c : CheckContext) (b : Bound)

@[simp] theorem clean_report_at (site : Site) (m : Mistake) : ¬ (reportAt site m).Clean := by
  intro clean
  exact clean _ List.mem_cons_self rfl

@[simp] theorem clean_expect (ok : Bool) (m : Mistake) : (c.expect ok m).Clean ↔ ok = true := by
  cases ok <;> simp [expect]

@[simp] theorem clean_need (v : DynVarId) : (c.need b v).Clean :=
  fun _ mem => (List.not_mem_nil mem).elim

theorem clean_check_call (p : PropId) (args : Nat) :
    (c.checkCall b p args).Clean ↔ c.definition.Callable p args (c.available b) := by
  unfold checkCall Definition.Callable
  cases c.definition.property? p with
  | none => simp
  | some callee =>
    simp only [Option.some.injEq, exists_eq_left']
    rw [clean_foldl (p := (· ∈ c.available b)) (by simp)]
    simp

theorem clean_relation {site : Site} {p : PropId}
    (clean : (match c.definition.relationProblem p (c.available b) with
      | some problem => reportAt site (.relation problem)
      | none => .empty : Report).Clean) : c.definition.Callable p 1 (c.available b) := by
  split at clean
  · exact (clean_report_at _ _ clean).elim
  · next fine => exact Definition.callable_of_relation fine

theorem clean_predicate {site : Site} {p : PropId}
    (clean : (match c.definition.predicateProblem p (c.available b) with
      | some problem => reportAt site (.predicate problem)
      | none => .empty : Report).Clean) : c.definition.Callable p 0 (c.available b) := by
  split at clean
  · exact (clean_report_at _ _ clean).elim
  · next fine => exact Definition.callable_of_predicate fine

/-- A reference goes through a property that takes nothing and gives an environment. -/
theorem clean_reference_shape {through : PropId} (clean : (c.checkReference through).Clean) :
    ∃ info, c.definition.property? through = some info ∧ info.params = [] ∧ info.returns = .env ∧
      info.dynVars = [] := by
  unfold checkReference at clean
  split at clean
  · exact (clean_report_at _ _ clean).elim
  · next info known =>
    simp only [clean_append, clean_expect, Bool.and_eq_true, List.isEmpty_iff, beq_iff_eq] at clean
    obtain ⟨⟨noParams, gives⟩, noDynVars⟩ := clean
    exact ⟨info, known, noParams, gives, noDynVars⟩

theorem clean_reference {through : PropId} (clean : (c.checkReference through).Clean) :
    c.definition.Callable through 0 [] := by
  obtain ⟨info, known, noParams, -, noDynVars⟩ := clean_reference_shape c clean
  refine ⟨info, known, by rw [noParams]; rfl, fun v mem => ?_⟩
  rwa [noDynVars] at mem

/-- The checks of an action cover each expression that it evaluates. -/
theorem clean_action {action : EnvAction} (clean : (c.checkAction action).Clean) :
    ∀ e ∈ action.exprs, (c.checkBody e).Clean := by
  cases action with
  | setInitialEnv env => simpa [EnvAction.exprs, checkAction] using clean
  | addToEnv key value metadata dest =>
    cases dest <;> simp [checkAction] at clean <;> simp [EnvAction.exprs, clean]
  | addEnv => simp [EnvAction.exprs]
  | reference nodes through metadata rebind =>
    rcases rebind with _ | ⟨old, new⟩ <;> simp [checkAction] at clean <;>
      simp [EnvAction.exprs, clean]
  | referenceUnit name => simp [EnvAction.exprs]

end CheckContext

/-- A log that takes over findings keeps them in their order, and is pending once one
of them does not let its phase pass. -/
theorem DefinitionLog.foldl_record (ds : List Diagnostic) (log : DefinitionLog) :
    (ds.foldl record log).reported = log.reported ++ ds ∧
      (ds.foldl record log).pending = (log.pending || ds.any (·.severity == .nonBlocking)) := by
  induction ds generalizing log with
  | nil => simp
  | cons d rest ih => simp [ih, record, Bool.or_assoc]

/-- A log that took over an error does not pass its next checkpoint. -/
theorem DefinitionLog.records_pass {ds : List Diagnostic} {log : DefinitionLog}
    (passed : (ds.foldl record log).checkpoint.1 = .ok ()) :
    ∀ d ∈ ds, d.severity ≠ .nonBlocking := by
  obtain ⟨reported, pending⟩ := foldl_record ds log
  intro d mem severe
  have waits : (ds.foldl record log).pending = true := by
    rw [pending, Bool.or_eq_true, List.any_eq_true]
    exact .inr ⟨d, mem, by simp [severe]⟩
  have among : d ∈ (ds.foldl record log).reported.filter (·.isError) := by
    rw [reported]
    exact List.mem_filter.2 ⟨List.mem_append_right _ mem, by
      rw [Diagnostic.isError, severe]
      rfl⟩
  unfold checkpoint at passed
  rw [if_pos waits] at passed
  dsimp only at passed
  split at passed
  · next nothing => rw [nothing] at among; exact List.not_mem_nil among
  · cases passed

/-- How the expressions of an environment specification are checked. -/
def KindEnvSpec.context (d : Definition) (s : KindEnvSpec) : CheckContext where
  definition := d
  owner := s.kind
  params := 0
  declared := []
  name := "env spec of " ++ d.kindName s.kind
  site := s.spec.site

namespace Builder
variable {b : Builder} {l : Language}

/-- A language is the definition that was declared, with dispatch resolved, and nothing
was found wrong with it. -/
theorem build_ok (built : b.build = .ok l) :
    l.toDefinition = b.definition ∧ l.table = l.dispatchTable ∧
      ∀ d ∈ l.findings, d.severity ≠ .nonBlocking := by
  unfold build at built
  rcases checked : b.finalLog.checkpoint with ⟨refused | passed, log⟩
  · rw [checked] at built
    cases built
  · rw [checked] at built
    cases built
    exact ⟨rfl, rfl, DefinitionLog.records_pass (congrArg Prod.fst checked)⟩

/-- The language that a definition is made, after what the log said before. -/
def language (b : Builder) : Language :=
  { b.definition with
    table := b.definition.dispatchTable
    warnings := b.log.warnings ++ b.definition.findings.filter (·.severity == .warning) }

/-- A definition is made a language exactly if nothing is wrong with it as a whole; the
errors of refused declarations do not matter. -/
theorem build_ok_iff (quiet : b.log.pending = false) :
    b.build = .ok l ↔
      (∀ d ∈ b.definition.findings, d.severity ≠ .nonBlocking) ∧ l = b.language := by
  have made (clean : ∀ d ∈ b.definition.findings, d.severity ≠ .nonBlocking) :
      b.build = .ok b.language := by
    obtain ⟨reported, pending⟩ := DefinitionLog.foldl_record b.definition.findings b.log
    have nothing : b.definition.findings.any (·.severity == .nonBlocking) = false := by
      simpa using clean
    rw [quiet, nothing, Bool.or_false] at pending
    have passes : b.finalLog.checkpoint = (.ok (), b.finalLog) := by
      unfold DefinitionLog.checkpoint
      exact if_neg (by rw [finalLog, pending]; exact Bool.false_ne_true)
    have told : b.finalLog.warnings = b.language.warnings := by
      unfold finalLog DefinitionLog.warnings
      rw [reported, List.filter_append]
      rfl
    simp only [build, passes, told]
    rfl
  constructor
  · intro built
    obtain ⟨same, -, clean⟩ := build_ok built
    rw [same] at clean
    exact ⟨clean, Except.ok.inj (built.symm.trans (made clean))⟩
  · rintro ⟨clean, rfl⟩
    exact made clean

theorem exists_language (accepted : b.build.isOk = true) : ∃ l, b.build = .ok l := by
  cases built : b.build with
  | error refused => rw [built] at accepted; cases accepted
  | ok l => exact ⟨l, rfl⟩

theorem built_implementation (built : b.build = .ok l)
    (found : l.implementation? index = some implementation) :
    (l.checkImplementation implementation).Clean := by
  have listed : implementation ∈ l.implementations.toList :=
    Array.mem_toList_iff.2 (Array.mem_of_getElem? found)
  intro d mem
  refine (build_ok built).2.2 d ?_
  simp only [Definition.findings, List.mem_append, List.mem_flatMap]
  exact .inl (.inl (.inr ⟨implementation, listed, mem⟩))

theorem built_action (built : b.build = .ok l) {s : KindEnvSpec} (listed : s ∈ l.envSpecs)
    (mem : action ∈ s.spec.actions) : ((s.context l.toDefinition).checkAction action).Clean := by
  have clean : (l.checkEnvSpec s).Clean := by
    intro d found
    refine (build_ok built).2.2 d ?_
    simp only [Definition.findings, List.mem_append, List.mem_flatMap]
    exact .inl (.inr ⟨s, Array.mem_toList_iff.2 listed, found⟩)
  let check := (s.context l.toDefinition).checkAction
  have each := (Report.clean_foldl (f := fun r action => r ++ check action)
    (fun _ _ => Report.clean_append _ _) s.spec.actions .empty).1 clean
  exact each.2 action mem

end Builder

end Trellis
