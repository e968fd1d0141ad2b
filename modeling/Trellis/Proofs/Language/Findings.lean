import Trellis.Proofs.Checkpoints
import Trellis.Proofs.Language.Checking
import Trellis.Proofs.Language.Lineage
import Trellis.Proofs.Language.Refusals

/-! What a build that fails tells. Each body and each specification is walked for itself,
with nothing in view but what was declared of kinds, properties and variables; and as every
walk only collects what it finds, the failure of a build tells all that is wrong. -/
namespace Trellis

/-! ## Every finding of a walk is an error -/

/-- A report whose findings all keep a definition from being built. -/
def Report.Severe (r : Report) : Prop := ∀ d ∈ r.findings, d.severity = .nonBlocking

namespace Report

theorem severe_empty : Report.empty.Severe := fun _ mem => (List.not_mem_nil mem).elim

theorem severe_append {r s : Report} (first : r.Severe) (second : s.Severe) : (r ++ s).Severe :=
  List.forall_mem_append.2 ⟨first, second⟩

/-- A report put together from severe parts. -/
theorem severe_foldl {f : α → Report} (each : ∀ x, (f x).Severe) (xs : List α) {start : Report}
    (first : start.Severe) : (xs.foldl (fun r x => r ++ f x) start).Severe := by
  induction xs generalizing start with
  | nil => exact first
  | cons x rest ih => exact ih (severe_append first (each x))

end Report

namespace CheckContext
open Report
variable (c : CheckContext) (b : Bound)

theorem severe_report_at (site : Site) (m : Mistake) : (reportAt site m).Severe := by
  intro d mem
  cases List.mem_singleton.1 mem
  rfl

theorem severe_expect (ok : Bool) (m : Mistake) : (c.expect ok m).Severe := by
  cases ok with
  | true => exact severe_empty
  | false => exact severe_report_at _ _

theorem severe_need (v : DynVarId) : (c.need b v).Severe := fun _ mem => (List.not_mem_nil mem).elim

theorem severe_need_all (p : PropId) : (c.needAll b p).Severe := by
  unfold needAll
  split
  · exact severe_foldl (severe_need c b) _ severe_empty
  · exact severe_empty

theorem severe_check_call (p : PropId) (args : Nat) : (c.checkCall b p args).Severe := by
  unfold checkCall
  split
  · exact severe_report_at _ _
  · next callee _ =>
    simp only [Report.append_assoc]
    exact severe_foldl (fun v => severe_append (severe_expect c _ _) (severe_need c b v)) _
      (severe_expect c _ _)

theorem severe_related : c.Related c fun r _ => r.Severe where
  empty := severe_empty
  append := severe_append
  owner := rfl
  params := rfl
  name := rfl
  site := rfl
  kinds := rfl
  dynVars := rfl
  metadata := rfl
  expect := severe_expect c
  dynVar b v := severe_append (severe_expect c _ _) (severe_need c b v)
  call := severe_check_call c
  relation b p origin := by
    refine severe_append ?_ (severe_need_all c b p)
    split
    · exact severe_report_at _ _
    · exact severe_empty
  predicate b p origin := by
    refine severe_append ?_ (severe_need_all c b p)
    split
    · exact severe_report_at _ _
    · exact severe_empty

theorem severe_check_reference (p : PropId) : (c.checkReference p).Severe := by
  unfold checkReference
  split
  · exact severe_report_at _ _
  · exact severe_append (severe_expect c _ _) (severe_expect c _ _)

end CheckContext

/-! ## A walk sees signatures only -/

namespace Definition

/-- What a definition says of its kinds, its properties, its dynamic variables and its
metadata, without any body and any specification. -/
def signature (d : Definition) : Definition where
  kinds := d.kinds
  properties := d.properties.map fun p => { p with implementations := [] }
  implementations := #[]
  dynVars := d.dynVars
  envSpecs := #[]
  metadata := d.metadata

theorem signature_property (d : Definition) (p : PropId) :
    d.signature.property? p = (d.property? p).map fun p => { p with implementations := [] } :=
  Array.getElem?_map

theorem signature_relation (d : Definition) (p : PropId) (available : List DynVarId) :
    d.signature.relationProblem p available = d.relationProblem p available := by
  unfold relationProblem
  rw [signature_property]
  cases d.property? p <;> rfl

theorem signature_predicate (d : Definition) (p : PropId) (available : List DynVarId) :
    d.signature.predicateProblem p available = d.predicateProblem p available := by
  unfold predicateProblem
  rw [signature_property]
  cases d.property? p <;> rfl

end Definition

namespace CheckContext

/-- A walk with the signatures alone in view. -/
def signature (c : CheckContext) : CheckContext := { c with definition := c.definition.signature }

variable (c : CheckContext)

theorem signature_need_all (b : Bound) (p : PropId) :
    c.signature.needAll b p = c.needAll b p := by
  unfold needAll
  rw [show c.signature.definition.property? p = _ from c.definition.signature_property p]
  cases c.definition.property? p <;> rfl

theorem signature_check_call (b : Bound) (p : PropId) (args : Nat) :
    c.signature.checkCall b p args = c.checkCall b p args := by
  unfold checkCall
  rw [show c.signature.definition.property? p = _ from c.definition.signature_property p]
  cases c.definition.property? p <;> rfl

theorem signature_check_reference (p : PropId) :
    c.signature.checkReference p = c.checkReference p := by
  unfold checkReference
  rw [show c.signature.definition.property? p = _ from c.definition.signature_property p]
  cases c.definition.property? p <;> rfl

theorem signature_static_type : c.signature.staticType = c.staticType := by
  funext e
  unfold staticType
  split <;> try rfl
  next p _ =>
    rw [show c.signature.definition.property? p = _ from c.definition.signature_property p]
    cases c.definition.property? p <;> rfl

theorem signature_related : c.Related c.signature (· = ·) where
  empty := rfl
  append first second := first ▸ second ▸ rfl
  owner := rfl
  params := rfl
  name := rfl
  site := rfl
  kinds := rfl
  dynVars := rfl
  metadata := rfl
  expect _ _ := rfl
  dynVar _ _ := rfl
  call b p args := (c.signature_check_call b p args).symm
  relation b p origin := by
    unfold checkRelation
    rw [signature_need_all, show c.signature.definition.relationProblem p _ = _ from
      c.definition.signature_relation p _]
    rfl
  predicate b p origin := by
    unfold checkPredicate
    rw [signature_need_all, show c.signature.definition.predicateProblem p _ = _ from
      c.definition.signature_predicate p _]
    rfl

end CheckContext

namespace Definition
variable (d : Definition)

theorem check_implementation_severe (i : Implementation) : (d.checkImplementation i).Severe := by
  unfold checkImplementation
  split
  · exact (CheckContext.severe_related _).check _ _
  · exact Report.severe_empty

theorem check_env_spec_severe (s : KindEnvSpec) : (d.checkEnvSpec s).Severe :=
  Report.severe_foldl (fun a => (CheckContext.severe_related _).check_action rfl
    (CheckContext.severe_check_reference _) a) _ Report.severe_empty

/-- What is wrong with a body is seen from the signatures. -/
theorem check_implementation_signature (i : Implementation) :
    d.signature.checkImplementation i = d.checkImplementation i := by
  unfold checkImplementation
  rw [signature_property]
  cases i.body with
  | expr body =>
    cases d.property? i.prop with
    | none => rfl
    | some p =>
      let c : CheckContext := {
        definition := d, owner := i.owner, params := p.params.length, declared := p.dynVars,
        name := d.kindName i.owner ++ "." ++ p.name, site := i.site }
      exact (c.signature_related.check ⟨[], []⟩ body).symm
  | _ => rfl

/-- What is wrong with a specification is seen from the signatures. -/
theorem check_env_spec_signature (s : KindEnvSpec) :
    d.signature.checkEnvSpec s = d.checkEnvSpec s := by
  let c := s.context d
  have action (a : EnvAction) : c.signature.checkAction a = c.checkAction a :=
    (c.signature_related.check_action c.signature_static_type
      (fun p => (c.signature_check_reference p).symm) a).symm
  exact congrArg (s.spec.actions.foldl · Report.empty) (funext fun r => funext fun a =>
    congrArg (r ++ ·) (action a))

end Definition

/-! ## What is left to be overridden -/

namespace Definition

/-- Whether nodes of a kind are left with a property that had to be overridden. -/
def leavesOpen (d : Definition) (k : KindInfo) (p : PropertyInfo) : Bool :=
  !k.isAbstract && ((d.mostDerived k p).bind d.implementation?).any (·.body.mustOverride)

section Open
variable {d : Definition} (lineage : d.Lineage) {k a : KindId}
include lineage

/-- Two kinds that come from each other are one. -/
theorem derives_antisymm (known : (d.kind? k).isSome) (there : d.Derives k a)
    (back : d.Derives a k) : k = a := by
  obtain ⟨before, after, split⟩ := List.append_of_mem (mem_ancestors_of_derives lineage there known)
  obtain ⟨-, known', above⟩ := ancestors_from lineage known split
  obtain ⟨before', after', split'⟩ :=
    List.append_of_mem (mem_ancestors_of_derives lineage back known')
  obtain ⟨-, -, above'⟩ := ancestors_from lineage known' split'
  have lengths := congrArg List.length split
  have lengths' := congrArg List.length split'
  rw [above'] at split lengths
  rw [above] at split' lengths'
  simp only [List.length_append, List.length_cons] at lengths lengths'
  have nothing : before = [] := List.eq_nil_of_length_eq_zero (by omega)
  rw [nothing] at split
  exact (List.cons.inj split).1

theorem known_above (known : (d.kind? k).isSome) (derives : d.Derives k a) :
    (d.kind? a).isSome := by
  obtain ⟨before, after, split⟩ :=
    List.append_of_mem (mem_ancestors_of_derives lineage derives known)
  exact (ancestors_from lineage known split).2.1

/-- One implementation is meant for a kind. -/
theorem meant_unique (known : (d.kind? k).isSome) (first : d.MeantFor k p index i)
    (second : d.MeantFor k p other j) : index = other := by
  rcases first.closest other j second.found second.prop second.above with same | ⟨different, below⟩
  · exact same.symm
  rcases second.closest index i first.found first.prop first.above with same | ⟨-, above⟩
  · exact same
  · have known' := known_above lineage known first.above
    exact (different (derives_antisymm lineage known' below above).symm).elim

/-- A kind is left with a property if the implementation that is meant for it is abstract and
not to be found missing by calls. -/
theorem leaves_open_iff (implemented : d.Implemented) (known : d.kind? k = some kind)
    (asked : d.property? p = some info) :
    d.leavesOpen kind info = true ↔ kind.isAbstract = false ∧ d.Derives k info.owner ∧
      ∃ index i, d.MeantFor k p index i ∧ i.body = .abstract false := by
  have opens (body : Body) : body.mustOverride = true ↔ body = .abstract false := by
    cases body with
    | abstract runtimeCheck => cases runtimeCheck <;> simp [Body.mustOverride]
    | _ => simp [Body.mustOverride]
  unfold leavesOpen
  rw [Bool.and_eq_true, Bool.not_eq_true', and_congr_right_iff]
  intro _
  by_cases derives : d.Derives k info.owner
  · obtain ⟨index, i, derived, meant⟩ := most_derived_meant lineage implemented known asked derives
    rw [derived, Option.bind_some, meant.found, Option.any_some, opens]
    constructor
    · exact fun open_ => ⟨derives, index, i, meant, open_⟩
    · rintro ⟨-, other, j, meant', open_⟩
      have same := meant_unique lineage (Option.isSome_of_mem known) meant' meant
      have found := meant'.found
      rw [same, meant.found] at found
      cases found
      exact open_
  · rw [most_derived_none lineage known derives]
    exact ⟨fun never => (Bool.false_ne_true never).elim, fun ⟨comes, _⟩ => (derives comes).elim⟩

end Open

/-- The overrides that are missing, kind by kind. -/
theorem missing_overrides_eq (d : Definition) :
    d.missingOverrides = d.kinds.toList.flatMap fun k =>
      (d.properties.toList.filter (d.leavesOpen k)).map fun p =>
        finding .nonBlocking k.site (.notOverridden k.name p.name) := by
  unfold missingOverrides
  congr 1
  funext k
  cases abstract : k.isAbstract with
  | true => simp [leavesOpen, abstract]
  | false =>
    rw [if_neg Bool.false_ne_true, ← List.filterMap_eq_map, List.filterMap_filter]
    simp [leavesOpen, abstract]

/-- The bodies that are missing. -/
theorem pending_bodies_eq (d : Definition) :
    d.pendingBodies = (d.implementations.toList.filter (·.body.isPending)).map fun i =>
      finding .nonBlocking i.site (.noBody (d.propertyName i.prop)) := by
  unfold pendingBodies
  rw [← List.filterMap_eq_map, List.filterMap_filter]
  rfl

end Definition

/-! ## What a failed build carries -/

namespace Definition

/-- What is found wrong with a definition: the bodies and the overrides that are missing,
and then what the walks over bodies and specifications find. -/
def mistakes (d : Definition) : List Diagnostic :=
  d.pendingBodies ++ d.missingOverrides ++
    d.implementations.toList.flatMap (fun i => (d.checkImplementation i).findings) ++
    d.envSpecs.toList.flatMap (fun s => (d.checkEnvSpec s).findings)

theorem mistakes_severe (d : Definition) : ∀ m ∈ d.mistakes, m.severity = .nonBlocking := by
  intro m mem
  unfold mistakes at mem
  rw [pending_bodies_eq, missing_overrides_eq] at mem
  simp only [List.mem_append, List.mem_map, List.mem_flatMap] at mem
  rcases mem with ((⟨i, -, rfl⟩ | ⟨k, -, p, -, rfl⟩) | ⟨i, -, found⟩) | ⟨s, -, found⟩
  · rfl
  · rfl
  · exact d.check_implementation_severe i m found
  · exact d.check_env_spec_severe s m found

theorem unused_warns (d : Definition) : ∀ m ∈ d.unusedDynVars, m.severity = .warning := by
  intro m mem
  unfold unusedDynVars at mem
  obtain ⟨p, -, told⟩ := List.mem_flatMap.1 mem
  split at told
  · obtain ⟨v, -, found⟩ := List.mem_filterMap.1 told
    split at found
    · cases found
    · cases found
      rfl
  · cases told

/-- Of all that is found the mistakes are errors. -/
theorem findings_errors (d : Definition) : d.findings.filter (·.isError) = d.mistakes := by
  have wrong : d.mistakes.filter (·.isError) = d.mistakes :=
    List.filter_eq_self.2 fun m mem => by
      rw [Diagnostic.isError, d.mistakes_severe m mem]
      rfl
  have harmless : d.unusedDynVars.filter (·.isError) = [] :=
    List.filter_eq_nil_iff.2 fun m mem => by
      rw [Diagnostic.isError, d.unused_warns m mem]
      exact Bool.false_ne_true
  rw [show d.findings = d.mistakes ++ d.unusedDynVars from rfl, List.filter_append, wrong, harmless,
    List.append_nil]

end Definition

namespace Builder

/-- Declarations that are all accepted leave nothing in the log. -/
theorem declare_quiet {declarations : List Declaration}
    (accepted : ∀ answer ∈ Declaration.answers declarations .new, answer.isOk = true) :
    (declare declarations).log = .empty := by
  have run (ds : List Declaration) (b : Builder)
      (accepted : ∀ answer ∈ Declaration.answers ds b, answer.isOk = true) :
      (ds.foldl (fun b declaration => declaration.run b) b).log = b.log := by
    induction ds generalizing b with
    | nil => rfl
    | cons declaration rest ih =>
      obtain ⟨first, others⟩ := List.forall_mem_cons.1 accepted
      rw [List.foldl_cons, ← declaration.perform_run, ih _ others]
      rcases declaration.settles b.definition with fails | ⟨x, e, runs, -⟩
      · obtain ⟨e, failed, -⟩ := fails b rfl
        rw [failed] at first
        cases first
      · rw [runs b rfl]
  exact run declarations .new accepted

/-- A log that takes findings over was told them. -/
theorem record_told (ds : List Diagnostic) (log : DefinitionLog) :
    log.Told ds (ds.foldl DefinitionLog.record log) := by
  induction ds generalizing log with
  | nil => exact log.told_nothing
  | cons d rest ih =>
    have first : log.Told [d] (log.record d) := ⟨rfl, rfl, by simp [DefinitionLog.record]⟩
    exact first.trans (ih (log.record d))

/-- After declarations that are all accepted a build fails for its own findings. -/
theorem build_failed_iff {b : Builder} (quiet : b.log = .empty) (e : DefinitionError) :
    b.build = .error e ↔
      b.definition.mistakes ≠ [] ∧ e.context = [] ∧ e.diagnostics = b.definition.mistakes := by
  have told : DefinitionLog.empty.Told b.definition.findings b.finalLog := by
    rw [← quiet]
    exact record_told _ _
  have fails : b.build = .error e ↔ b.finalLog.checkpoint.1 = .error e := by
    unfold build
    rcases b.finalLog.checkpoint with ⟨_ | _, log⟩ <;> simp [Except.map]
  have errors : b.finalLog.reported.filter (·.isError) = b.definition.mistakes := by
    rw [told.reported, ← b.definition.findings_errors]
    rfl
  have waits : b.finalLog.pending = true ↔ b.definition.mistakes ≠ [] := by
    have harmless : b.definition.unusedDynVars.any (·.severity == .nonBlocking) = false :=
      List.any_eq_false.2 fun m mem => by
        rw [b.definition.unused_warns m mem]
        decide
    rw [told.pending, show b.definition.findings = b.definition.mistakes ++ _ from rfl,
      List.any_append, harmless, Bool.or_false]
    constructor
    · rintro severe nothing
      rw [nothing] at severe
      cases severe
    · intro some_
      obtain ⟨m, rest, all⟩ := List.exists_cons_of_ne_nil some_
      have severe := b.definition.mistakes_severe m (all ▸ List.mem_cons_self)
      simp [all, severe]
  rw [fails, DefinitionLog.checkpoint_failed_iff, waits, told.context, errors]
  rfl

/-- **A build tells every mistake.** After declarations that are all accepted a build fails
exactly if something is found, and its failure then carries all that is found, in this
order: that a body was never supplied, one finding for each such implementation; that a
property was not overridden, one finding for each concrete kind and each property whose
implementation for that kind is abstract and not left to be found missing by calls; what is
wrong with each body, by implementation; and what is wrong with each specification. What is
wrong with a body or a specification is the same in every definition of the same
signatures. -/
theorem build_tells_every_mistake (declarations : List Declaration)
    (accepted : ∀ answer ∈ Declaration.answers declarations .new, answer.isOk = true) :
    let b := declare declarations
    let d := b.definition
    let found : List Diagnostic :=
      ((d.implementations.toList.filter (·.body.isPending)).map fun i =>
        ⟨.K1013, .nonBlocking, "property " ++ d.propertyName i.prop ++ " has no body",
          .definition i.site⟩) ++
      (d.kinds.toList.flatMap fun k => (d.properties.toList.filter (d.leavesOpen k)).map fun p =>
        ⟨.K1006, .nonBlocking,
          "concrete kind " ++ k.name ++ " does not override abstract property " ++ p.name,
          .definition k.site⟩) ++
      d.implementations.toList.flatMap (fun i => (d.checkImplementation i).findings) ++
      d.envSpecs.toList.flatMap (fun s => (d.checkEnvSpec s).findings)
    ((∃ e, b.build = .error e) ↔ found ≠ []) ∧
    (∀ e, b.build = .error e → e.diagnostics = found ∧ e.context = []) ∧
    (∀ k kind p info, d.kind? k = some kind → d.property? p = some info →
      (d.leavesOpen kind info = true ↔ kind.isAbstract = false ∧ d.Derives k info.owner ∧
        ∃ index i, d.MeantFor k p index i ∧ i.body = .abstract false)) ∧
    (∀ i, i.body.expr? = none → (d.checkImplementation i).findings = []) ∧
    ∀ other : Definition, other.signature = d.signature →
      (∀ i, (other.checkImplementation i).findings = (d.checkImplementation i).findings) ∧
      ∀ s, (other.checkEnvSpec s).findings = (d.checkEnvSpec s).findings := by
  intro b d found
  have all : d.mistakes = found := by
    unfold Definition.mistakes
    rw [Definition.pending_bodies_eq, Definition.missing_overrides_eq]
    rfl
  have fails := build_failed_iff (declare_quiet accepted)
  rw [show (declare declarations).definition.mistakes = found from all] at fails
  refine ⟨⟨fun ⟨e, failed⟩ => ((fails e).1 failed).1, fun some_ => ?_⟩, fun e failed => ?_, ?_, ?_,
    fun other same => ⟨fun i => ?_, fun s => ?_⟩⟩
  · obtain ⟨primary, related, split⟩ := List.exists_cons_of_ne_nil some_
    exact ⟨⟨primary, [], related⟩, (fails _).2 ⟨some_, rfl, split.symm⟩⟩
  · obtain ⟨-, context, diagnostics⟩ := (fails e).1 failed
    exact ⟨diagnostics, context⟩
  · exact fun k kind p info known asked => Definition.leaves_open_iff
      (declare_lineage declarations) (declare_implemented declarations) known asked
  · intro i none_
    unfold Definition.checkImplementation
    split
    · next given _ => rw [given] at none_; cases none_
    · rfl
  · rw [← other.check_implementation_signature, same, d.check_implementation_signature]
  · rw [← other.check_env_spec_signature, same, d.check_env_spec_signature]

/-- Mistakes of every sort in one definition, in bodies and in a specification. -/
theorem build_tells_every_mistake_of_all_sorts :
    let property (owner : KindId) (name : String) (body : Body) : Declaration :=
      .property ⟨owner, name, [], .int, [], false, true, body, .caller⟩
    let declarations : List Declaration := [
      .kind ⟨"Base", none, [], [], true, false, false, .caller⟩,
      .kind ⟨"Leaf", some ⟨0⟩, [], [], false, false, false, .caller⟩,
      .kind ⟨"Twig", some ⟨1⟩, [], [], false, false, false, .caller⟩,
      property ⟨1⟩ "depth" (.expr (.array [.arg 0, .call .self ⟨7⟩ [], .loc 0])),
      property ⟨0⟩ "size" (.abstract false),
      property ⟨2⟩ "size" .pending,
      property ⟨0⟩ "kept" (.abstract true),
      property ⟨0⟩ "width" (.expr (.child (.loc 1) 0)),
      .envSpec ⟨1⟩ ⟨[.addToEnv (.lit (.int 1)) (.arg 2) .empty none], .caller⟩]
    let b := declare declarations
    (∀ answer ∈ Declaration.answers declarations .new, answer.isOk = true) ∧
      ∃ e, b.build = .error e ∧
        e.diagnostics.map (·.code) =
          [.K1013, .K1006, .K1009, .K1009, .K1009, .K1009, .K1001, .K1009] := by
  intro property declarations b
  have accepted : ∀ answer ∈ Declaration.answers declarations .new, answer.isOk = true := by
    decide +kernel
  obtain ⟨fails, carries, -⟩ := build_tells_every_mistake declarations accepted
  obtain ⟨e, failed⟩ := fails.2 (by decide +kernel)
  refine ⟨accepted, e, failed, ?_⟩
  rw [(carries e failed).1]
  decide +kernel

/-- A concrete kind may be left with an abstract property, if that is for its calls to
find out. -/
theorem abstract_property_left_to_calls :
    let declarations : List Declaration := [
      .kind ⟨"Leaf", none, [], [], false, false, false, .caller⟩,
      .property ⟨⟨0⟩, "size", [], .int, [], false, true, .abstract true, .caller⟩]
    let b := declare declarations
    let d := b.definition
    (∀ answer ∈ Declaration.answers declarations .new, answer.isOk = true) ∧
      (d.kind? ⟨0⟩).map (·.isAbstract) = some false ∧ d.isSubkind ⟨0⟩ ⟨0⟩ ∧
      (∀ i ∈ d.implementations.toList, i.body.isAbstract = true) ∧
      b.build = .ok b.language := by
  intro declarations b d
  refine ⟨by decide +kernel, by decide +kernel, by decide +kernel, by decide +kernel, ?_⟩
  exact (build_ok_iff (by decide +kernel)).2 ⟨by decide +kernel, rfl⟩

end Builder

end Trellis
