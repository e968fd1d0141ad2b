import Trellis.Proofs.Solver.Solutions

/-! What asking for all candidates gathers. Every branch is walked, and each one
that can be labelled adds the candidates it has before labelling; so what is
reported is what these branches offer together. -/
namespace Trellis
open Solver

/-- The table has `x` among the candidates of `v`. -/
def Solver.Candidates.Offers (c : Candidates V) (v : VarId) (x : V) : Prop :=
  ∃ xs, c.get? v = some xs ∧ x ∈ xs

theorem Solver.Candidates.offers_iff {c : Candidates V} (held : c.get? v = some xs) :
    c.Offers v x ↔ x ∈ xs := by
  simp [Offers, held]

/-- Domains that are what some branches offer together: they name the variables
that the branches mention, each once, and list each candidate once. -/
structure Joins (branches : List (Branch V)) (domains : Domains V) : Prop where
  distinct : (domains.map (·.1)).Nodup
  named : ∀ v, v ∈ domains.map (·.1) ↔ ∃ b ∈ branches, v ∈ b.vars
  listed : ∀ v xs, (v, xs) ∈ domains →
    xs.Nodup ∧ ∀ x, x ∈ xs ↔ ∃ b ∈ branches, v ∈ b.vars ∧ b.candidates.Offers v x

/-! ## Joining the candidates of one branch to those gathered -/

private theorem join_candidates [DecidableEq V] (old new : List V) :
    (∀ x, x ∈ new.foldl (fun old x => if x ∈ old then old else old ++ [x]) old ↔
      x ∈ old ∨ x ∈ new) ∧
      (old.Nodup → (new.foldl (fun old x => if x ∈ old then old else old ++ [x]) old).Nodup) := by
  induction new generalizing old with
  | nil => simp
  | cons y rest ih =>
    rw [List.foldl_cons]
    split
    · next present =>
      obtain ⟨members, distinct⟩ := ih old
      refine ⟨fun x => ?_, distinct⟩
      rw [members, List.mem_cons]
      exact ⟨fun h => h.imp_right .inr,
        fun h => h.elim .inl fun h => h.elim (fun same => .inl (same ▸ present)) .inr⟩
    · next absent =>
      obtain ⟨members, distinct⟩ := ih (old ++ [y])
      refine ⟨fun x => ?_, fun nodup => distinct (List.nodup_append.2 ⟨nodup, by simp, ?_⟩)⟩
      · rw [members, List.mem_append, List.mem_singleton, List.mem_cons, or_assoc]
      · rintro x mem _ single rfl
        exact absent (List.mem_singleton.1 single ▸ mem)

/-- What a table of gathered candidates holds: candidates for the variables in
`named`, and those in `offered`, each once. -/
structure Gathered (vars : List VarId) (named : VarId → Prop) (offered : VarId → V → Prop)
    (seen : Candidates V) : Prop where
  vars : seen.vars = vars
  known : ∀ v, (∃ xs, seen.get? v = some xs) ↔ named v
  distinct : ∀ v xs, seen.get? v = some xs → xs.Nodup
  offers : ∀ v x, seen.Offers v x ↔ offered v x

theorem gathered_unknown (vars : List VarId) :
    Gathered vars (fun _ => False) (fun _ _ => False) (.unknown vars : Candidates V) := by
  have none (v : VarId) : (Candidates.unknown vars : Candidates V).get? v = none := by
    simp [Candidates.get?, Candidates.unknown]
  exact ⟨rfl, by simp [none], by simp [none], by simp [Candidates.Offers, none]⟩

private theorem Gathered.congr {vars : List VarId} {named named' : VarId → Prop}
    {offered offered' : VarId → V → Prop} {seen : Candidates V}
    (gathered : Gathered vars named offered seen) (sameNames : ∀ v, named v ↔ named' v)
    (sameOffers : ∀ v x, offered v x ↔ offered' v x) : Gathered vars named' offered' seen :=
  ⟨gathered.vars, fun v => (gathered.known v).trans (sameNames v), gathered.distinct,
    fun v x => (gathered.offers v x).trans (sameOffers v x)⟩

private theorem mem_get_d (c : Candidates V) (v : VarId) (x : V) :
    x ∈ (c.get? v).getD [] ↔ c.Offers v x := by
  cases known : c.get? v <;> simp [Candidates.Offers, known]

variable [DecidableEq V]

/-- Joining the candidates of one variable. -/
private theorem Gathered.join {vars : List VarId} {named : VarId → Prop}
    {offered : VarId → V → Prop} {seen : Candidates V} (gathered : Gathered vars named offered seen)
    (c : Candidates V) (listed : w ∈ vars) :
    Gathered vars (fun v => named v ∨ v = w) (fun v x => offered v x ∨ v = w ∧ c.Offers v x)
      (seen.set w (((c.get? w).getD []).foldl (fun old x => if x ∈ old then old else old ++ [x])
        ((seen.get? w).getD []))) := by
  obtain ⟨members, distinct⟩ := join_candidates ((seen.get? w).getD []) ((c.get? w).getD [])
  generalize List.foldl (fun old x => if x ∈ old then old else old ++ [x])
    ((seen.get? w).getD []) ((c.get? w).getD []) = joined at members distinct
  have here : w ∈ seen.vars := gathered.vars ▸ listed
  have now (v : VarId) :
      (seen.set w joined).get? v = if v = w then some joined else seen.get? v := by
    rw [(set_get? seen w joined v).2]
    simp [here, eq_comm]
  refine ⟨(set_get? seen w joined w).1.trans gathered.vars, fun v => ?_, fun v xs held => ?_,
    fun v x => ?_⟩
  · rw [← gathered.known, now]
    by_cases same : v = w <;> simp [same]
  · rw [now] at held
    by_cases same : v = w
    · rw [if_pos same] at held
      cases held
      refine distinct ?_
      cases old : seen.get? w with
      | none => exact List.nodup_nil
      | some ys => exact gathered.distinct w ys old
    · rw [if_neg same] at held
      exact gathered.distinct v xs held
  · rw [← gathered.offers]
    by_cases same : v = w
    · subst same
      have joinedHere : (seen.set v joined).Offers v x ↔ x ∈ joined := by
        simp [Candidates.Offers, now]
      rw [joinedHere, members, mem_get_d, mem_get_d]
      simp
    · simp [Candidates.Offers, now, same]

/-- Joining the candidates of a branch. -/
private theorem Gathered.gather {vars : List VarId} {named : VarId → Prop}
    {offered : VarId → V → Prop} {seen : Candidates V} (gathered : Gathered vars named offered seen)
    (b : Branch V) (listed : ∀ v ∈ b.vars, v ∈ vars) :
    Gathered vars (fun v => named v ∨ v ∈ b.vars)
      (fun v x => offered v x ∨ v ∈ b.vars ∧ b.candidates.Offers v x) (Equation.gather b seen) := by
  unfold Equation.gather
  generalize b.vars = ws at listed
  induction ws generalizing seen named offered with
  | nil => exact gathered.congr (by simp) (by simp)
  | cons w rest ih =>
    rw [List.foldl_cons]
    have step := ih (gathered.join b.candidates (listed w List.mem_cons_self))
      fun v mem => listed v (List.mem_cons_of_mem w mem)
    refine step.congr (fun v => ?_) fun v x => ?_
    · rw [List.mem_cons, or_assoc]
    · rw [List.mem_cons, or_and_right, or_assoc]

/-! ## The branches that are gathered -/

variable {holds : Query V → Bool}

/-- Branches that can be labelled. -/
def Equation.branches (holds : Query V → Bool) (e : Equation V) (bound : List (VarId × V)) :
    List (Branch V) :=
  (e.choices.filterMap (collect holds (e.start bound))).filter fun b => (completed holds b).isSome

theorem mem_branches_iff {e : Equation V} {bound : List (VarId × V)} {b : Branch V} :
    b ∈ e.branches holds bound ↔
      ∃ choice ∈ e.choices, collect holds (e.start bound) choice = some b ∧
        ∃ d, completed holds b = some d := by
  simp only [Equation.branches, List.mem_filter, List.mem_filterMap, Option.isSome_iff_exists]
  constructor
  · rintro ⟨⟨choice, chosen, ran⟩, ended⟩
    exact ⟨choice, chosen, ran, ended⟩
  · rintro ⟨choice, chosen, ran, ended⟩
    exact ⟨⟨choice, chosen, ran⟩, ended⟩

/-- A grounded choice that has a solution leads to a branch that can be labelled. -/
theorem branch_of_solves {e : Equation V} {bound : List (VarId × V)} (chosen : choice ∈ e.choices)
    (grounded : Grounded bound choice) (solves : Solves holds bound choice t) :
    ∃ b, collect holds (e.start bound) choice = some b ∧ ∃ d, completed holds b = some d := by
  obtain ⟨s, answer⟩ := answer_of_solves chosen grounded solves
  obtain ⟨b, ran, answered⟩ := Option.bind_eq_some_iff.1 answer
  obtain ⟨d, completed, -⟩ := Option.map_eq_some_iff.1 answered
  exact ⟨b, ran, d, completed⟩

/-- The walk never stops early: it adds every branch that can be labelled. -/
private theorem walk_all (branches : List (Branch V)) (any : Bool) (seen : Candidates V) :
    walk (fun b seen => match completed holds b with
      | none => .yield seen
      | some _ => .yield (true, Equation.gather b seen.2)) branches (any, seen) =
      .yield (any || !(branches.filter fun b => (completed holds b).isSome).isEmpty,
        (branches.filter fun b => (completed holds b).isSome).foldl
          (fun seen b => Equation.gather b seen) seen) := by
  induction branches generalizing any seen with
  | nil => simp [walk]
  | cons b rest ih =>
    rw [walk]
    cases ended : completed holds b <;> simp [ended, ih]

private theorem Gathered.foldl {vars : List VarId} {named : VarId → Prop}
    {offered : VarId → V → Prop} {seen : Candidates V} (gathered : Gathered vars named offered seen)
    (branches : List (Branch V)) (listed : ∀ b ∈ branches, ∀ v ∈ b.vars, v ∈ vars) :
    Gathered vars (fun v => named v ∨ ∃ b ∈ branches, v ∈ b.vars)
      (fun v x => offered v x ∨ ∃ b ∈ branches, v ∈ b.vars ∧ b.candidates.Offers v x)
      (branches.foldl (fun seen b => Equation.gather b seen) seen) := by
  induction branches generalizing seen named offered with
  | nil => exact gathered.congr (by simp) (by simp)
  | cons b rest ih =>
    rw [List.foldl_cons]
    have step := ih (gathered.gather b (listed b List.mem_cons_self))
      fun c mem => listed c (List.mem_cons_of_mem b mem)
    exact step.congr (by simp [or_assoc]) (by simp [or_assoc])

/-- The variables of a branch are variables of the equation. -/
theorem vars_of_branch {e : Equation V} {bound : List (VarId × V)} {b : Branch V}
    (mem : b ∈ e.branches holds bound) : ∀ v ∈ b.vars, v ∈ e.vars := by
  intro v mentioned
  obtain ⟨choice, chosen, ran, -⟩ := mem_branches_iff.1 mem
  have done := propagated_of_collect chosen ran
  rw [done.vars_eq] at mentioned
  exact (List.mem_filter.1 mentioned).1

omit [DecidableEq V] in
/-- The list of what a table holds. -/
private theorem joins_of_gathered {vars : List VarId} {branches : List (Branch V)}
    {seen : Candidates V} (nodup : vars.Nodup)
    (gathered : Gathered vars (fun v => ∃ b ∈ branches, v ∈ b.vars)
      (fun v x => ∃ b ∈ branches, v ∈ b.vars ∧ b.candidates.Offers v x) seen) :
    Joins branches (seen.vars.filterMap fun v => (seen.get? v).map (v, ·)) := by
  have listed (v : VarId) (xs : List V) :
      (v, xs) ∈ seen.vars.filterMap (fun v => (seen.get? v).map (v, ·)) ↔
        seen.get? v = some xs := by
    simp only [List.mem_filterMap, Option.map_eq_some_iff, Prod.mk.injEq]
    constructor
    · rintro ⟨w, -, ys, held, rfl, rfl⟩
      exact held
    · intro held
      exact ⟨v, Candidates.mem_vars held, xs, held, rfl, rfl⟩
  have names : (seen.vars.filterMap fun v => (seen.get? v).map (v, ·)).map (·.1) =
      seen.vars.filter fun v => (seen.get? v).isSome := by
    induction seen.vars with
    | nil => rfl
    | cons v rest ih => cases held : seen.get? v <;> simp [held, ih]
  refine ⟨?_, fun v => ?_, fun v xs mem => ?_⟩
  · rw [names, gathered.vars]
    exact nodup.filter _
  · rw [← gathered.known, List.mem_map]
    constructor
    · rintro ⟨⟨w, xs⟩, mem, rfl⟩
      exact ⟨xs, (listed w xs).1 mem⟩
    · rintro ⟨xs, held⟩
      exact ⟨(v, xs), (listed v xs).2 held, rfl⟩
  · have held := (listed v xs).1 mem
    refine ⟨gathered.distinct v xs held, fun x => ?_⟩
    rw [← gathered.offers, Candidates.offers_iff held]

section Ask
variable [Hashable V] {oracle : Oracle σ ε V} {may : Halt ε → Prop}

/-- A run that does not halt reports what the branches that can be labelled
offer together, and reports nothing exactly if there is no such branch. -/
theorem satisfiable_domains_computes (reliable : Reliable oracle holds may) (config : SolverConfig)
    (unlimited : config.maxBranches = 0 ∨ may (.tooManyBranches config.maxBranches))
    (e : Equation V) (bound : List (VarId × V)) (world : σ) :
    match (e.satisfiableDomains oracle config bound world).1 with
    | .ok none => e.branches holds bound = []
    | .ok (some domains) => e.branches holds bound ≠ [] ∧ Joins (e.branches holds bound) domains
    | .error halt => may halt := by
  let reported : Option (Domains V) → Prop
    | none => e.branches holds bound = []
    | some domains => e.branches holds bound ≠ [] ∧ Joins (e.branches holds bound) domains
  have visits (b : Branch V) (seen : Bool × Candidates V) :
      Ensures holds may (Equation.visitAll oracle config.maxBranches b seen)
        (· = match completed holds b with
          | none => .yield seen
          | some _ => .yield (true, Equation.gather b seen.2)) := by
    refine ensures_bind (complete_computes reliable unlimited b) ?_
    rintro _ rfl
    cases completed holds b <;> exact ensures_pure rfl
  have run : Ensures holds may (e.satisfiableM oracle config.maxBranches bound) reported := by
    refine ensures_bind
      (explore_computes reliable unlimited visits [e] (e.start bound) (false, .unknown e.vars)) ?_
    rintro _ rfl
    rw [Equation.choices_of_all_singleton, walk_all, Bool.false_or]
    refine ensures_pure ?_
    have gathered := (gathered_unknown (V := V) e.vars).foldl (e.branches holds bound)
      fun b mem => vars_of_branch mem
    simp only [false_or] at gathered
    change reported (if !(e.branches holds bound).isEmpty then _ else _)
    cases none : (e.branches holds bound).isEmpty with
    | true => exact List.isEmpty_iff.1 none
    | false => exact ⟨by simpa using none, joins_of_gathered (nodup_eraseDups _) gathered⟩
  have result := (run (.start world) (truthful_start world)).2
  have same : (e.satisfiableDomains oracle config bound world).1 =
    (e.satisfiableM oracle config.maxBranches bound (.start world)).1 := rfl
  rw [same]
  rcases ran : (e.satisfiableM oracle config.maxBranches bound (.start world)).1 with _ | _ | _ <;>
    simpa only [ran] using result

end Ask

end Trellis
