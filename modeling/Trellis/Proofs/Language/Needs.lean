import Trellis.Proofs.Language.Findings

/-! Dynamic variables that a property declares and does not need. A need is noted where a
variable is read, where a property is called that declares it, and where a constraint is
built on one that does; it falls on the declaration unless something in between binds the
variable. So a body that needs a variable nowhere is as right where the variable is not
declared. -/
namespace Trellis

/-! ## Which variables a build warns of -/

namespace Definition
variable {d : Definition} {p : PropertyInfo}

/-- The variables that a property declares and none of its bodies needs, as far as that can
be told. -/
def unusedBy (d : Definition) (p : PropertyInfo) : List DynVarId :=
  if p.implementations.all fun i => (d.implementation? i).any (·.body.expr?.isSome) then
    p.dynVars.filter fun v => !(d.neededBy p).contains v
  else []

/-- The warnings, property by property. -/
theorem unused_dyn_vars_eq (d : Definition) :
    d.unusedDynVars = d.properties.toList.flatMap fun p => (d.unusedBy p).map fun v =>
      finding .warning p.site (.unusedDynVar p.name (d.dynVarName v)) := by
  unfold unusedDynVars
  congr 1
  funext p
  unfold unusedBy
  split
  · rw [← List.filterMap_eq_map, List.filterMap_filter]
    refine congrArg (List.filterMap · p.dynVars) (funext fun v => ?_)
    cases (d.neededBy p).contains v <;> rfl
  · rfl

theorem declared_of_unused (unused : v ∈ d.unusedBy p) : v ∈ p.dynVars := by
  unfold unusedBy at unused
  split at unused
  · exact (List.mem_filter.1 unused).1
  · cases unused

/-- What is unused is declared, all bodies are expressions, and none of them needs it. -/
theorem unused_by_body (unused : v ∈ d.unusedBy p) (listed : index ∈ p.implementations)
    (found : d.implementation? index = some i) (its : i.prop = p.id) :
    (∃ body, i.body = .expr body) ∧ v ∉ (d.checkImplementation i).needed := by
  unfold unusedBy at unused
  split at unused
  · next expressions =>
    obtain ⟨-, unneeded⟩ := List.mem_filter.1 unused
    constructor
    · have expression := List.all_eq_true.1 expressions index listed
      rw [found, Option.any_some] at expression
      cases body : i.body with
      | expr e => exact ⟨e, rfl⟩
      | _ => rw [body] at expression; cases expression
    · intro needs
      have among : v ∈ d.neededBy p := List.mem_flatMap.2 ⟨i, List.mem_filter.2
        ⟨Array.mem_toList_iff.2 (Array.mem_of_getElem? found), decide_eq_true its⟩, needs⟩
      simp [among] at unneeded
  · cases unused

end Definition

namespace Builder

/-- Declarations leave nothing in the log but the errors of those that were refused. -/
theorem declare_log (declarations : List Declaration) :
    (declare declarations).log.pending = false ∧ (declare declarations).log.warnings = [] := by
  have run (ds : List Declaration) (b : Builder)
      (held : b.log.pending = false ∧ b.log.warnings = []) :
      (ds.foldl (fun b declaration => declaration.run b) b).log.pending = false ∧
        (ds.foldl (fun b declaration => declaration.run b) b).log.warnings = [] := by
    induction ds generalizing b with
    | nil => exact held
    | cons declaration rest ih =>
      rw [List.foldl_cons, ← declaration.perform_run]
      refine ih _ ?_
      rcases declaration.settles b.definition with fails | ⟨x, e, runs, -⟩
      · obtain ⟨e, -, refused⟩ := fails b rfl
        obtain ⟨said, severe, reported⟩ := refused.reported
        refine ⟨refused.pending.trans held.1, ?_⟩
        unfold DefinitionLog.warnings at held ⊢
        rw [reported, List.filter_append, held.2]
        simp [severe]
      · rw [runs b rfl]
        exact held
  exact run declarations .new ⟨rfl, rfl⟩

/-- A language warns of the unused variables and of nothing else. -/
theorem built_warnings {declarations : List Declaration} {l : Language}
    (built : (declare declarations).build = .ok l) :
    l.warnings = l.properties.toList.flatMap fun p => (l.unusedBy p).map fun v =>
      Definition.finding .warning p.site (.unusedDynVar p.name (l.dynVarName v)) := by
  obtain ⟨quiet, silent⟩ := declare_log declarations
  obtain ⟨-, rfl⟩ := (build_ok_iff quiet).1 built
  let d := (declare declarations).definition
  have harmless : d.mistakes.filter (·.severity == .warning) = [] :=
    List.filter_eq_nil_iff.2 fun m mem => by
      rw [d.mistakes_severe m mem]
      decide
  have told : d.unusedDynVars.filter (·.severity == .warning) = d.unusedDynVars :=
    List.filter_eq_self.2 fun m mem => by
      rw [d.unused_warns m mem]
      rfl
  rw [← Definition.unused_dyn_vars_eq]
  show (declare declarations).log.warnings ++ d.findings.filter (·.severity == .warning) = _
  rw [silent, show d.findings = d.mistakes ++ d.unusedDynVars from rfl, List.filter_append,
    harmless, told]
  rfl

end Builder

/-! ## A walk without a variable that is not needed -/

namespace Definition
variable {d : Definition} {p : PropId} {available wider : List DynVarId}

theorem missing_none_iff {required : List DynVarId} :
    d.missingDynVar required available = none ↔ ∀ v ∈ required, v ∈ available :=
  ⟨available_of_not_missing, fun all => Option.map_eq_none_iff.2 <|
    List.find?_eq_none.2 fun v mem => by simpa using all v mem⟩

/-- A constraint through a property of some shape stays fine where all the variables of the
property are still available. -/
theorem constraint_fine {shape : PropertyInfo → Prop} [DecidablePred shape]
    (fine : (match d.property? p with
      | none => some (.unknown p)
      | some info =>
        if shape info then (d.missingDynVar info.dynVars available).map (.missingDynVar info.name)
        else some (.shape info.name)) = (none : Option ConstraintProblem))
    (more : ∀ info, d.property? p = some info → ∀ v ∈ info.dynVars, v ∈ wider) :
    (match d.property? p with
      | none => some (.unknown p)
      | some info =>
        if shape info then (d.missingDynVar info.dynVars wider).map (.missingDynVar info.name)
        else some (.shape info.name)) = (none : Option ConstraintProblem) := by
  cases known : d.property? p with
  | none => rw [known] at fine; cases fine
  | some info =>
    rw [known] at fine
    dsimp only at fine ⊢
    split at fine
    · next shaped =>
      rw [if_pos shaped, missing_none_iff.2 (more info known)]
      rfl
    · cases fine

theorem relation_fine (fine : d.relationProblem p available = none)
    (more : ∀ info, d.property? p = some info → ∀ v ∈ info.dynVars, v ∈ wider) :
    d.relationProblem p wider = none := constraint_fine fine more

theorem predicate_fine (fine : d.predicateProblem p available = none)
    (more : ∀ info, d.property? p = some info → ∀ v ∈ info.dynVars, v ∈ wider) :
    d.predicateProblem p wider = none := constraint_fine fine more

end Definition

/-- What is needed in some part is needed in the whole. -/
theorem Report.needed_foldl (f : α → Report) (xs : List α) (start : Report) :
    (xs.foldl (fun r x => r ++ f x) start).needed =
      start.needed ++ xs.flatMap fun x => (f x).needed := by
  induction xs generalizing start with
  | nil => simp
  | cons x rest ih =>
    rw [List.foldl_cons, ih, List.flatMap_cons, ← List.append_assoc]
    rfl

namespace CheckContext

/-- A walk where a variable is not declared. -/
def without (c : CheckContext) (v : DynVarId) : CheckContext :=
  { c with declared := c.declared.filter (· ≠ v) }

variable {c : CheckContext} {v : DynVarId} {b : Bound}

/-- What is available stays so without a variable, unless it is that one and needed. -/
theorem available_without (mem : w ∈ c.available b) (spared : v ∉ (c.need b w).needed) :
    w ∈ (c.without v).available b := by
  rcases List.mem_append.1 mem with declared | bound
  · by_cases same : w = v
    · subst same
      refine List.mem_append_right _ ?_
      simpa [need, declared] using spared
    · exact List.mem_append_left _ (List.mem_filter.2 ⟨declared, by simpa using same⟩)
  · exact List.mem_append_right _ bound

theorem clean_problem {problem : Option ConstraintProblem} {mistake : ConstraintProblem → Mistake} :
    (match problem with
      | some found => reportAt origin (mistake found)
      | none => .empty : Report).Clean ↔ problem = none := by
  cases problem <;> simp

theorem clean_need_all : (c.needAll b p).Clean := by
  unfold needAll
  split
  · exact (Report.clean_foldl (p := fun _ => True) (by simp) _ _).2
      ⟨Report.clean_empty, fun _ _ => trivial⟩
  · exact Report.clean_empty

/-- A constraint needs all that its property declares. -/
theorem constrained_without (callable : c.definition.Callable p args (c.available b))
    (spared : v ∉ (c.needAll b p).needed) (info : PropertyInfo)
    (known : c.definition.property? p = some info) :
    ∀ w ∈ info.dynVars, w ∈ (c.without v).available b := by
  obtain ⟨callee, same, -, available⟩ := callable
  obtain rfl : callee = info := Option.some.inj (same.symm.trans known)
  intro w mem
  refine available_without (available w mem) fun needs => spared ?_
  unfold needAll
  rw [known]
  dsimp only
  rw [Report.needed_foldl]
  exact List.mem_append_right _ (List.mem_flatMap.2 ⟨w, mem, needs⟩)

theorem call_without (clean : (c.checkCall b p args).Clean)
    (spared : v ∉ (c.checkCall b p args).needed) : ((c.without v).checkCall b p args).Clean := by
  obtain ⟨callee, known, arity, available⟩ := (clean_check_call c b p args).1 clean
  refine (clean_check_call _ b p args).2 ⟨callee, known, arity, fun w mem => ?_⟩
  refine available_without (available w mem) fun needs => spared ?_
  unfold checkCall
  rw [known]
  simp only [Report.append_assoc, Report.needed_foldl]
  exact List.mem_append_right _ (List.mem_flatMap.2 ⟨w, mem, List.mem_append_right _ needs⟩)

theorem without_related (c : CheckContext) (v : DynVarId) :
    c.Related (c.without v) fun r r' => r.Clean → v ∉ r.needed → r'.Clean where
  empty clean _ := clean
  append first second clean spared := by
    obtain ⟨left, right⟩ := (Report.clean_append _ _).1 clean
    exact (Report.clean_append _ _).2 ⟨first left fun mem => spared (List.mem_append_left _ mem),
      second right fun mem => spared (List.mem_append_right _ mem)⟩
  owner := rfl
  params := rfl
  name := rfl
  site := rfl
  kinds := rfl
  dynVars := rfl
  metadata := rfl
  expect _ _ clean _ := clean
  dynVar b w clean spared := by
    obtain ⟨here, -⟩ := (Report.clean_append _ _).1 clean
    have available : w ∈ c.available b := by simpa using here
    refine (Report.clean_append _ _).2 ⟨?_, clean_need _ _ _⟩
    simpa using available_without available fun mem => spared (List.mem_append_right _ mem)
  call b p args := call_without
  relation b p origin clean spared := by
    obtain ⟨here, -⟩ := (Report.clean_append _ _).1 clean
    have others : v ∉ (c.needAll b p).needed := fun mem => spared (List.mem_append_right _ mem)
    have fine : c.definition.relationProblem p (c.available b) = none := clean_problem.1 here
    refine (Report.clean_append _ _).2 ⟨clean_problem.2 ?_, clean_need_all⟩
    exact Definition.relation_fine fine <|
      constrained_without (Definition.callable_of_relation fine) others
  predicate b p origin clean spared := by
    obtain ⟨here, -⟩ := (Report.clean_append _ _).1 clean
    have others : v ∉ (c.needAll b p).needed := fun mem => spared (List.mem_append_right _ mem)
    have fine : c.definition.predicateProblem p (c.available b) = none := clean_problem.1 here
    refine (Report.clean_append _ _).2 ⟨clean_problem.2 ?_, clean_need_all⟩
    exact Definition.predicate_fine fine <|
      constrained_without (Definition.callable_of_predicate fine) others

/-- What is right and does not need a variable is right where it is not declared. -/
theorem check_without (clean : (c.checkBody e).Clean) (spared : v ∉ (c.checkBody e).needed) :
    ((c.without v).checkBody e).Clean :=
  (c.without_related v).check ⟨[], []⟩ e clean spared

end CheckContext

/-- How the body of an implementation of a property is checked. -/
def Implementation.context (d : Definition) (i : Implementation) (p : PropertyInfo) :
    CheckContext where
  definition := d
  owner := i.owner
  params := p.params.length
  declared := p.dynVars
  name := d.kindName i.owner ++ "." ++ p.name
  site := i.site

/-- The bodies of what was built are right without the variables that are unused. -/
theorem Builder.built_unused {declarations : List Declaration} {l : Language} {info : PropertyInfo}
    (built : (declare declarations).build = .ok l) (asked : l.property? p = some info)
    (unused : v ∈ l.unusedBy info) (found : l.implementation? index = some i) (its : i.prop = p) :
    ∃ body, i.body = .expr body ∧
      (((i.context l.toDefinition info).without v).checkBody body).Clean := by
  obtain ⟨same, -⟩ := build_ok built
  have implemented : l.Implemented := same ▸ declare_implemented declarations
  obtain ⟨listing, known, listed⟩ := implemented.listed found
  obtain rfl : info = listing := Option.some.inj (asked.symm.trans (its ▸ known))
  have placed : info.id = p := implemented.placed p info asked
  obtain ⟨⟨body, expression⟩, unneeded⟩ :=
    Definition.unused_by_body unused listed found (its.trans placed.symm)
  have clean := built_implementation built found
  unfold Definition.checkImplementation at clean unneeded
  rw [expression, its, asked] at clean unneeded
  exact ⟨body, expression, CheckContext.check_without clean unneeded⟩

end Trellis
