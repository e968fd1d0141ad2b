import Trellis.Proofs.Solver.Gathering

/-! Order does not matter when all candidates are asked for. Operands of a
conjunction and of a disjunction may be permuted at any depth: the choices stay
the same up to the order of their constraints, and propagation comes to the same
candidates in whatever order it meets them. The candidates at one end support
each other, so on the way to the other end no constraint can take any of them
away. -/
namespace Trellis
open Solver

/-! ## The same choices, differently ordered -/

/-- One equation comes from another one by permuting operands of conjunctions
and disjunctions, at any depth. -/
inductive Equation.Rearranged : Equation V → Equation V → Prop
  | refl (e) : Rearranged e e
  | trans (first : Rearranged e f) (second : Rearranged f g) : Rearranged e g
  | and (permuted : es.Perm fs) : Rearranged (.and es) (.and fs)
  | or (permuted : es.Perm fs) : Rearranged (.or es) (.or fs)
  | conjunct (inner : Rearranged e f) :
      Rearranged (.and (before ++ e :: after)) (.and (before ++ f :: after))
  | disjunct (inner : Rearranged e f) :
      Rearranged (.or (before ++ e :: after)) (.or (before ++ f :: after))

namespace Equation

theorem Rearranged.symm {e f : Equation V} (rearranged : Rearranged e f) : Rearranged f e := by
  induction rearranged with
  | refl e => exact .refl e
  | trans _ _ first second => exact .trans second first
  | and permuted => exact .and permuted.symm
  | or permuted => exact .or permuted.symm
  | conjunct _ inner => exact .conjunct inner
  | disjunct _ inner => exact .disjunct inner

/-- Every list of constraints in `cs` is in `ds` too, perhaps in another order. -/
def Matched (cs ds : List (List (Atom V))) : Prop :=
  ∀ choice ∈ cs, ∃ other ∈ ds, choice.Perm other

theorem Matched.refl (cs : List (List (Atom V))) : Matched cs cs :=
  fun choice mem => ⟨choice, mem, .refl choice⟩

theorem Matched.trans {bs cs ds : List (List (Atom V))} (first : Matched bs cs)
    (second : Matched cs ds) : Matched bs ds := by
  intro choice mem
  obtain ⟨other, found, permuted⟩ := first choice mem
  obtain ⟨last, there, again⟩ := second other found
  exact ⟨last, there, permuted.trans again⟩

theorem mem_choices_of_cons {e : Equation V} {es : List (Equation V)} :
    choice ∈ choicesOfAll (e :: es) ↔
      ∃ first ∈ e.choices, ∃ rest ∈ choicesOfAll es, first ++ rest = choice := by
  simp only [choicesOfAll, List.mem_flatMap, List.mem_map]

theorem mem_choices_of_or {es : List (Equation V)} :
    choice ∈ (Equation.or es).choices ↔ ∃ e ∈ es, choice ∈ e.choices := by
  rw [choices, choices_of_any_eq, List.mem_flatMap]

theorem matched_cons {e f : Equation V} {es fs : List (Equation V)}
    (first : Matched e.choices f.choices) (rest : Matched (choicesOfAll es) (choicesOfAll fs)) :
    Matched (choicesOfAll (e :: es)) (choicesOfAll (f :: fs)) := by
  intro choice chosen
  obtain ⟨c, inFirst, d, inRest, rfl⟩ := mem_choices_of_cons.1 chosen
  obtain ⟨c', found, permuted⟩ := first c inFirst
  obtain ⟨d', there, again⟩ := rest d inRest
  exact ⟨c' ++ d', mem_choices_of_cons.2 ⟨c', found, d', there, rfl⟩, permuted.append again⟩

/-- Conjuncts in another order have the same choices. -/
theorem matched_of_perm {es fs : List (Equation V)} (permuted : es.Perm fs) :
    Matched (choicesOfAll es) (choicesOfAll fs) := by
  induction permuted with
  | nil => exact .refl _
  | cons e _ ih => exact matched_cons (.refl _) ih
  | swap e f rest =>
    intro choice chosen
    obtain ⟨c, inF, d, inRest, rfl⟩ := mem_choices_of_cons.1 chosen
    obtain ⟨b, inE, a, inTail, rfl⟩ := mem_choices_of_cons.1 inRest
    have other : c ++ a ∈ choicesOfAll (f :: rest) := mem_choices_of_cons.2 ⟨c, inF, a, inTail, rfl⟩
    exact ⟨b ++ (c ++ a), mem_choices_of_cons.2 ⟨b, inE, c ++ a, other, rfl⟩,
      List.perm_append_comm_assoc c b a⟩
  | trans _ _ first second => exact first.trans second

theorem matched_of_conjunct {e f : Equation V} (inner : Matched e.choices f.choices)
    (before after : List (Equation V)) :
    Matched (choicesOfAll (before ++ e :: after)) (choicesOfAll (before ++ f :: after)) := by
  induction before with
  | nil => exact matched_cons inner (.refl _)
  | cons g before ih => exact matched_cons (.refl _) ih

/-- Rearranging an equation rearranges its choices. -/
theorem Rearranged.matched {e f : Equation V} (rearranged : Rearranged e f) :
    Matched e.choices f.choices := by
  induction rearranged with
  | refl e => exact .refl _
  | trans _ _ first second => exact first.trans second
  | and permuted =>
    simp only [choices]
    exact matched_of_perm permuted
  | conjunct _ inner =>
    simp only [choices]
    exact matched_of_conjunct inner _ _
  | or permuted =>
    intro choice chosen
    obtain ⟨e, mem, here⟩ := mem_choices_of_or.1 chosen
    exact ⟨choice, mem_choices_of_or.2 ⟨e, permuted.mem_iff.1 mem, here⟩, .refl choice⟩
  | disjunct _ inner =>
    intro choice chosen
    obtain ⟨g, mem, here⟩ := mem_choices_of_or.1 chosen
    rcases List.mem_append.1 mem with earlier | mem
    · exact ⟨choice, mem_choices_of_or.2 ⟨g, List.mem_append_left _ earlier, here⟩, .refl choice⟩
    rcases List.mem_cons.1 mem with rfl | later
    · obtain ⟨other, found, permuted⟩ := inner choice here
      exact ⟨other, mem_choices_of_or.2 ⟨_, List.mem_append_right _ List.mem_cons_self, found⟩,
        permuted⟩
    · exact ⟨choice, mem_choices_of_or.2
        ⟨g, List.mem_append_right _ (List.mem_cons_of_mem _ later), here⟩, .refl choice⟩

end Equation

/-! ## What is left in the end supports itself -/

variable [DecidableEq V] {holds : Query V → Bool}

namespace Solver

/-- Every candidate of either side of a constraint between two variables finds
support on the other side. -/
theorem supported_right_of_unchanged {c : Candidates V} (different : a ≠ b)
    (same : atomEffect holds c (.bind a b relation origin) = .unchanged)
    (left : c.get? a = some xs) (right : c.get? b = some ys) :
    ∀ y ∈ ys, ∃ x ∈ xs, related holds relation x y := by
  simp only [atomEffect, if_neg different, bindEffect, left, right] at same
  have leftStep : Narrowing holds c (.bind a b relation origin) a _ := .supported_left left right
  unfold kept at same
  cases first : narrow c a (xs.filter fun x => ys.any fun y => related holds relation x y) with
  | unchanged =>
    simp only [first] at same
    have kept := narrow_unchanged (Candidates.mem_vars left) (narrowing_sublist leftStep) first
    rw [left] at kept
    rw [← Option.some.inj kept] at same
    have rightStep : Narrowing holds c (.bind a b relation origin) b _ :=
      .supported_right left right
    have all := narrow_unchanged (Candidates.mem_vars right) (narrowing_sublist rightStep) same
    rw [right] at all
    intro y mem
    rw [Option.some.inj all] at mem
    exact List.any_eq_true.1 (List.mem_filter.1 mem).2
  | tightened d tighter =>
    simp only [first] at same
    generalize narrow d b _ = later at same
    cases later <;> cases same
  | emptied v => simp [first] at same

/-- Where a walk over the constraints of a choice ends, none of them changes
anything any more. -/
theorem collect_unchanged (start : ∀ a ∈ b.atoms, atomEffect holds b.candidates a = .unchanged)
    (ran : collect holds b choice = some r) :
    ∀ a ∈ r.atoms, atomEffect holds r.candidates a = .unchanged := by
  induction choice generalizing b with
  | nil => cases ran; exact start
  | cons a rest ih =>
    rw [collect] at ran
    split at ran
    · cases ran
    · next d reached settled => exact ih (settle_unchanged settled) ran

/-- A table whose candidates include all that `c` offers. Of the variables of `c`
it has candidates only for those that have some in `c`. -/
structure Candidates.Covers (d c : Candidates V) : Prop where
  known : ∀ v ∈ c.vars, ∀ xs, d.get? v = some xs → ∃ ys, c.get? v = some ys
  covers : ∀ v xs, d.get? v = some xs → ∀ x, c.Offers v x → x ∈ xs

/-- What a constraint narrows `d` to still includes what `c` offers, if the
constraint changes nothing in `c`. -/
theorem narrowing_covers {c d : Candidates V} (listed : ∀ v ∈ a.vars, v ∈ c.vars)
    (unchanged : atomEffect holds c a = .unchanged) (covers : d.Covers c)
    (step : Narrowing holds d a v values) :
    (∃ ys, c.get? v = some ys) ∧ ∀ x, c.Offers v x → x ∈ values := by
  have consistent := consistent_of_unchanged listed unchanged
  cases step with
  | supplied open_ =>
    obtain ⟨xs, held, among⟩ := consistent
    exact ⟨⟨xs, held⟩, fun x offered =>
      List.mem_eraseDups.2 (among x ((Candidates.offers_iff held).1 offered))⟩
  | listed held =>
    obtain ⟨xs, now, among⟩ := consistent
    refine ⟨⟨xs, now⟩, fun x offered => List.mem_filter.2 ⟨covers.covers _ _ held x offered, ?_⟩⟩
    exact List.contains_iff_mem.2 (among x ((Candidates.offers_iff now).1 offered))
  | accepted held =>
    refine ⟨covers.known v (listed v (by simp [Atom.vars])) _ held, fun x offered => ?_⟩
    obtain ⟨xs, now, mem⟩ := offered
    exact List.mem_filter.2 ⟨covers.covers _ _ held x ⟨xs, now, mem⟩, consistent xs now x mem⟩
  | related_itself held =>
    refine ⟨covers.known v (listed v (by simp [Atom.vars])) _ held, fun x offered => ?_⟩
    obtain ⟨xs, now, mem⟩ := offered
    exact List.mem_filter.2
      ⟨covers.covers _ _ held x ⟨xs, now, mem⟩, consistent.2.1 rfl xs now x mem⟩
  | @copied_left _ b ys origin open_ held =>
    have different : v ≠ b := by
      rintro rfl
      rw [open_] at held
      cases held
    obtain ⟨zs, right⟩ := covers.known b (listed b (by simp [Atom.vars])) _ held
    obtain ⟨xs, left⟩ := Option.isSome_iff_exists.1
      ((consistent.1 rfl).2 (Option.isSome_iff_exists.2 ⟨zs, right⟩))
    refine ⟨⟨xs, left⟩, fun x offered => ?_⟩
    have mem := (Candidates.offers_iff left).1 offered
    obtain ⟨y, support, same⟩ := consistent.2.2 different xs zs left right x mem
    cases of_decide_eq_true same
    exact covers.covers _ _ held x ⟨zs, right, support⟩
  | @copied_right a xs _ origin held open_ =>
    have different : a ≠ v := by
      rintro rfl
      rw [open_] at held
      cases held
    obtain ⟨zs, left⟩ := covers.known a (listed a (by simp [Atom.vars])) _ held
    obtain ⟨ys, right⟩ := Option.isSome_iff_exists.1
      ((consistent.1 rfl).1 (Option.isSome_iff_exists.2 ⟨zs, left⟩))
    refine ⟨⟨ys, right⟩, fun y offered => ?_⟩
    have mem := (Candidates.offers_iff right).1 offered
    obtain ⟨x, support, same⟩ := supported_right_of_unchanged different unchanged left right y mem
    cases of_decide_eq_true same
    exact covers.covers _ _ held _ ⟨zs, left, support⟩
  | @supported_left _ xs b ys relation origin heldLeft heldRight =>
    refine ⟨covers.known v (listed v (by simp [Atom.vars])) _ heldLeft, fun x offered => ?_⟩
    refine List.mem_filter.2 ⟨covers.covers _ _ heldLeft x offered, List.any_eq_true.2 ?_⟩
    obtain ⟨us, left, mem⟩ := offered
    by_cases same : v = b
    · subst same
      exact ⟨x, covers.covers _ _ heldRight x ⟨us, left, mem⟩, consistent.2.1 rfl us left x mem⟩
    · obtain ⟨ws, right⟩ := covers.known b (listed b (by simp [Atom.vars])) _ heldRight
      obtain ⟨y, support, yes⟩ := consistent.2.2 same us ws left right x mem
      exact ⟨y, covers.covers _ _ heldRight y ⟨ws, right, support⟩, yes⟩
  | @supported_right a xs _ ys relation origin heldLeft heldRight =>
    refine ⟨covers.known v (listed v (by simp [Atom.vars])) _ heldRight, fun y offered => ?_⟩
    refine List.mem_filter.2 ⟨covers.covers _ _ heldRight y offered, List.any_eq_true.2 ?_⟩
    obtain ⟨ws, right, mem⟩ := offered
    by_cases same : a = v
    · subst same
      exact ⟨y, covers.covers _ _ heldLeft y ⟨ws, right, mem⟩, consistent.2.1 rfl ws right y mem⟩
    · obtain ⟨us, left⟩ := covers.known a (listed a (by simp [Atom.vars])) _ heldLeft
      obtain ⟨x, support, yes⟩ := supported_right_of_unchanged same unchanged left right y mem
      exact ⟨x, covers.covers _ _ heldLeft x ⟨us, left, support⟩, yes⟩

/-- Narrowing never goes below a table in which the constraints change nothing. -/
theorem stable_covers {c : Candidates V} (tidy : c.Tidy)
    (listed : ∀ a ∈ atoms, ∀ v ∈ a.vars, v ∈ c.vars)
    (unchanged : ∀ a ∈ atoms, atomEffect holds c a = .unchanged) :
    Stable holds atoms fun table => ∃ d, table = some d ∧ d.Covers c := by
  rintro a mem d v values step ⟨_, ⟨⟩, covers⟩
  obtain ⟨⟨ys, held⟩, kept⟩ := narrowing_covers (listed a mem) (unchanged a mem) covers step
  rcases narrow_cases d v values with ⟨-, empty⟩ | same | ⟨here, tighter, put, -⟩
  · -- what `c` offers for `v` is among the new candidates
    obtain ⟨y, among⟩ := List.exists_mem_of_ne_nil ys (tidy.filled v ys held)
    have none := kept y ⟨ys, held, among⟩
    rw [empty] at none
    cases none
  · exact ⟨d, by rw [same]; rfl, covers⟩
  · refine ⟨_, by rw [put]; rfl, fun w inVars xs now => ?_, fun w xs now => ?_⟩
    · rw [Candidates.get?_put] at now
      split at now
      · next same => exact same ▸ ⟨ys, held⟩
      · exact covers.known w inVars xs now
    · rw [Candidates.get?_put] at now
      split at now
      · next same => cases now; exact same ▸ kept
      · exact covers.covers w xs now

end Solver

/-! ## Confluence -/

/-- Two walks over the same constraints, in whatever order, come to the same
candidates. -/
theorem covers_of_collect {e f : Equation V} {bound : List (VarId × V)}
    {choice other : List (Atom V)} (chosen : choice ∈ e.choices)
    (ran : collect holds (e.start bound) choice = some b) (permuted : choice.Perm other)
    (again : collect holds (f.start bound) other = some r) : r.candidates.Covers b.candidates := by
  have done := propagated_of_collect chosen ran
  have listed : ∀ a ∈ choice, ∀ v ∈ a.vars, v ∈ b.candidates.vars := by
    intro a mem v mentioned
    rw [done.vars]
    exact vars_of_choice chosen a mem v mentioned
  have unchanged : ∀ a ∈ choice, atomEffect holds b.candidates a = .unchanged := by
    have last := collect_unchanged (b := e.start bound) (by simp [Equation.start]) ran
    rwa [done.atoms] at last
  have start : (f.start bound).candidates.Covers b.candidates := by
    have given {v : VarId} {xs : List V} (inVars : v ∈ b.candidates.vars)
        (held : (f.start bound).candidates.get? v = some xs) : b.candidates.get? v = some xs := by
      rw [(start_get? f bound).2] at held
      split at held
      · obtain ⟨y, value, rfl⟩ := Option.map_eq_some_iff.1 held
        exact done.fixed v (done.vars ▸ inVars) y value
      · cases held
    refine ⟨fun v inVars xs held => ⟨xs, given inVars held⟩, fun v xs held x offered => ?_⟩
    have inVars := Candidates.mem_vars offered.choose_spec.1
    exact (Candidates.offers_iff (given inVars held)).1 offered
  obtain ⟨d, ended, covers⟩ := collect_keeps (b := f.start bound)
    (stable_covers done.tidy listed unchanged) (by simp [Equation.start]) other
    (fun a mem => permuted.mem_iff.2 mem) ⟨_, rfl, start⟩
  rw [again] at ended
  cases ended
  exact covers

omit [DecidableEq V] in
theorem reached_of_perm {bound : List (VarId × V)} {choice other : List (Atom V)}
    (permuted : choice.Perm other) (reached : Reached bound choice v) : Reached bound other v := by
  induction reached with
  | bound listed => exact .bound listed
  | domain mem => exact .domain (permuted.mem_iff.1 mem)
  | left mem _ ih => exact .left (permuted.mem_iff.1 mem) ih
  | right mem _ ih => exact .right (permuted.mem_iff.1 mem) ih

/-- A branch can be labelled exactly if its choice is grounded and has a solution,
so each branch has its like in the rearranged equation. -/
theorem Equation.Rearranged.branch {e f : Equation V} {bound : List (VarId × V)} {b : Branch V}
    (rearranged : Rearranged e f) (mem : b ∈ e.branches holds bound) :
    ∃ r ∈ f.branches holds bound, (∀ v, v ∈ b.vars ↔ v ∈ r.vars) ∧
      ∀ v ∈ b.vars, ∀ x, b.candidates.Offers v x ↔ r.candidates.Offers v x := by
  obtain ⟨choice, chosen, ran, d, ended⟩ := mem_branches_iff.1 mem
  obtain ⟨other, found, permuted⟩ := rearranged.matched choice chosen
  have done := propagated_of_collect chosen ran
  obtain ⟨-, -, solves⟩ := answer_solves done chosen ended
  obtain ⟨known, -⟩ := completed_some ended
  have grounded : Grounded bound choice := (done.grounded_iff chosen).2 (done.vars_eq ▸ known)
  have regrounded : Grounded bound other := fun a mem v mentioned =>
    reached_of_perm permuted (grounded a (permuted.mem_iff.2 mem) v mentioned)
  have resolves : Solves holds bound other _ :=
    ⟨solves.agrees, fun a mem => solves.satisfied a (permuted.mem_iff.2 mem)⟩
  obtain ⟨r, again, c, completed⟩ := branch_of_solves found regrounded resolves
  have redone := propagated_of_collect found again
  obtain ⟨known', -⟩ := completed_some completed
  have sameVars (v : VarId) : v ∈ b.vars ↔ v ∈ r.vars := by
    rw [done.vars_eq, redone.vars_eq, mem_vars_of_iff chosen, mem_vars_of_iff found]
    simp only [permuted.mem_iff]
  refine ⟨r, mem_branches_iff.2 ⟨other, found, again, c, completed⟩, sameVars, fun v here x => ?_⟩
  constructor
  · intro offered
    obtain ⟨xs, held⟩ := known' v ((sameVars v).1 here)
    exact ⟨xs, held, (covers_of_collect chosen ran permuted again).covers v xs held x offered⟩
  · intro offered
    obtain ⟨xs, held⟩ := known v here
    exact ⟨xs, held, (covers_of_collect found again permuted.symm ran).covers v xs held x offered⟩

/-- What the branches of an equation offer together, those of the rearranged
equation offer too. -/
private theorem Equation.Rearranged.offered {e f : Equation V} {bound : List (VarId × V)}
    (rearranged : Rearranged e f)
    (offered : ∃ b ∈ e.branches holds bound, v ∈ b.vars ∧ b.candidates.Offers v x) :
    ∃ b ∈ f.branches holds bound, v ∈ b.vars ∧ b.candidates.Offers v x := by
  obtain ⟨b, mem, here, given⟩ := offered
  obtain ⟨r, found, sameVars, sameOffers⟩ := rearranged.branch mem
  exact ⟨r, found, (sameVars v).1 here, (sameOffers v here x).1 given⟩

private theorem Equation.Rearranged.mentioned {e f : Equation V} {bound : List (VarId × V)}
    (rearranged : Rearranged e f) (mentioned : ∃ b ∈ e.branches holds bound, v ∈ b.vars) :
    ∃ b ∈ f.branches holds bound, v ∈ b.vars := by
  obtain ⟨b, mem, here⟩ := mentioned
  obtain ⟨r, found, sameVars, -⟩ := rearranged.branch mem
  exact ⟨r, found, (sameVars v).1 here⟩

private theorem Equation.Rearranged.branches_nil {e f : Equation V} {bound : List (VarId × V)}
    (rearranged : Rearranged e f) (none : f.branches holds bound = []) :
    e.branches holds bound = [] := by
  refine List.eq_nil_iff_forall_not_mem.2 fun b mem => ?_
  obtain ⟨r, found, -⟩ := rearranged.branch mem
  rw [none] at found
  cases found

/-- Domains that differ in the order of their variables and in the order of the
candidates of each, and in nothing else. -/
structure Domains.Alike (d d' : Domains V) : Prop where
  distinct : (d.map (·.1)).Nodup
  named : (d.map (·.1)).Perm (d'.map (·.1))
  candidates : ∀ v xs ys, (v, xs) ∈ d → (v, ys) ∈ d' → xs.Nodup ∧ xs.Perm ys

private theorem alike_of_joins {e f : Equation V} {bound : List (VarId × V)} {d d' : Domains V}
    (rearranged : e.Rearranged f) (joins : Joins (e.branches holds bound) d)
    (joins' : Joins (f.branches holds bound) d') : d.Alike d' := by
  refine ⟨joins.distinct, ?_, fun v xs ys mem mem' => ?_⟩
  · refine (List.perm_ext_iff_of_nodup joins.distinct joins'.distinct).2 fun v => ?_
    rw [joins.named, joins'.named]
    exact ⟨rearranged.mentioned, rearranged.symm.mentioned⟩
  · obtain ⟨nodup, offers⟩ := joins.listed v xs mem
    obtain ⟨nodup', offers'⟩ := joins'.listed v ys mem'
    refine ⟨nodup, (List.perm_ext_iff_of_nodup nodup nodup').2 fun x => ?_⟩
    rw [offers, offers']
    exact ⟨rearranged.offered, rearranged.symm.offered⟩

section Ask
variable [Hashable V] {oracle : Oracle σ ε V}

/-- Without a limit and with an oracle that always answers, the order of operands
makes no difference: either neither equation can be satisfied, or both report
the same variables with the same candidates. -/
theorem satisfiable_domains_of_rearranged {e f : Equation V}
    (answers : ∀ q world, (oracle q world).1 = .ok (holds q)) (rearranged : e.Rearranged f)
    (bound : List (VarId × V)) (world : σ) :
    (e.satisfiableDomains oracle ⟨0⟩ bound world).1 = .ok none ∧
        (f.satisfiableDomains oracle ⟨0⟩ bound world).1 = .ok none ∨
      ∃ d d', (e.satisfiableDomains oracle ⟨0⟩ bound world).1 = .ok (some d) ∧
        (f.satisfiableDomains oracle ⟨0⟩ bound world).1 = .ok (some d') ∧ d.Alike d' := by
  have left := satisfiable_domains_computes (reliable_of_answers answers) ⟨0⟩ (.inl rfl) e bound
    world
  have right := satisfiable_domains_computes (reliable_of_answers answers) ⟨0⟩ (.inl rfl) f bound
    world
  cases ran : (e.satisfiableDomains oracle ⟨0⟩ bound world).1 with
  | error halt => simp only [ran] at left
  | ok found =>
    cases ran' : (f.satisfiableDomains oracle ⟨0⟩ bound world).1 with
    | error halt => simp only [ran'] at right
    | ok found' =>
      simp only [ran] at left
      simp only [ran'] at right
      cases found with
      | none =>
        cases found' with
        | none => exact .inl ⟨rfl, rfl⟩
        | some d' => exact absurd (rearranged.symm.branches_nil left) right.1
      | some d =>
        cases found' with
        | none => exact absurd (rearranged.branches_nil right) left.1
        | some d' => exact .inr ⟨d, d', rfl, rfl, alike_of_joins rearranged left.2 right.2⟩

/-- An equality met before or after the alternatives that give it candidates. -/
theorem satisfiable_domains_of_rearranged_equality :
    let equality : Equation Nat := .atom (.bind ⟨1⟩ ⟨0⟩ none none)
    let first : Equation Nat := .atom (.domain ⟨0⟩ [1] none)
    let second : Equation Nat := .atom (.domain ⟨0⟩ [2, 3] none)
    let oracle : Oracle Unit Unit Nat := answering fun _ => true
    ∃ d d', (Equation.satisfiableDomains oracle ⟨0⟩ (.and [equality, .or [first, second]]) []
        ()).1 = .ok (some d) ∧
      (Equation.satisfiableDomains oracle ⟨0⟩ (.and [.or [second, first], equality]) []
        ()).1 = .ok (some d') ∧ d.Alike d' := by
  intro equality first second oracle
  let holds : Query Nat → Bool := fun _ => true
  let choice : List (Atom Nat) := [.bind ⟨1⟩ ⟨0⟩ none none, .domain ⟨0⟩ [1] none]
  have rearranged : Equation.Rearranged (.and [equality, .or [first, second]])
      (.and [.or [second, first], equality]) :=
    .trans (@Equation.Rearranged.conjunct Nat _ _ [equality] [] (.or (.swap second first [])))
      (.and (List.Perm.swap (Equation.or [second, first]) equality []))
  have answers : ∀ q world, (oracle q world).1 = .ok (holds q) := fun _ _ => rfl
  refine (satisfiable_domains_of_rearranged answers rearranged [] ()).resolve_left ?_
  rintro ⟨none, -⟩
  have chosen : choice ∈ (Equation.and [equality, .or [first, second]]).choices := by
    simp [Equation.choices, Equation.choicesOfAll, Equation.choicesOfAny, choice, equality, first]
  have grounded : Grounded [] choice := by
    have right : Reached [] choice ⟨0⟩ := .domain (List.mem_cons_of_mem _ List.mem_cons_self)
    have left : Reached [] choice ⟨1⟩ := .left List.mem_cons_self right
    simp [Grounded, choice, Atom.vars, left, right]
  have solves : Solves holds [] choice fun _ => some 1 :=
    ⟨by simp [boundValue], by simp [choice, Atom.Holds, related]⟩
  obtain ⟨b, ran, c, completed⟩ := branch_of_solves chosen grounded solves
  have nothing := satisfiable_domains_computes (reliable_of_answers answers) ⟨0⟩ (.inl rfl)
    (Equation.and [equality, .or [first, second]]) [] ()
  simp only [none] at nothing
  have mem := mem_branches_iff.2 ⟨choice, chosen, ran, c, completed⟩
  rw [nothing] at mem
  cases mem

end Ask

end Trellis
