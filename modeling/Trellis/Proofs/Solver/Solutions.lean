import Trellis.Proofs.Solver.Labelling
import Trellis.Proofs.Solver.Runs

/-! What a solve finds. An assignment that is returned solves one of the choices
of the equation; a grounded choice that can be solved is not missed; and what is
returned belongs to the first such choice, of which it is the earliest solution
in the order of the candidates. -/
namespace Trellis
open Solver

/-! ## The branch of a choice -/

/-- Setting the candidates of a variable changes those of no other one. -/
theorem set_get? (c : Candidates V) (v : VarId) (values : List V) (w : VarId) :
    (c.set v values).vars = c.vars ∧
      (c.set v values).get? w = if v = w ∧ v ∈ c.vars then some values else c.get? w := by
  unfold Candidates.set
  split
  · next listed => exact ⟨rfl, by simp [Candidates.get?_put, listed]⟩
  · next unlisted => simp [unlisted]

/-- A solve starts from the bound values. -/
theorem start_get? (e : Equation V) (bound : List (VarId × V)) :
    (e.start bound).candidates.vars = e.vars ∧ ∀ v, (e.start bound).candidates.get? v =
      if v ∈ e.vars then (boundValue bound v).map ([·]) else none := by
  unfold Equation.start boundValue
  rw [List.foldl_eq_foldr_reverse]
  induction bound.reverse with
  | nil => exact ⟨rfl, fun v => by simp [Candidates.get?, Candidates.unknown]⟩
  | cons entry rest ih =>
    obtain ⟨w, value⟩ := entry
    obtain ⟨vars, known⟩ := ih
    refine ⟨(set_get? _ w [value] w).1.trans vars, fun v => ?_⟩
    rw [List.foldr_cons, (set_get? _ w [value] v).2, vars, known v, List.lookup_cons]
    by_cases same : w = v
    · subst same
      by_cases listed : w ∈ e.vars <;> simp [listed]
    · have other : (v == w) = false := by simpa using Ne.symm same
      simp [same, other]

theorem start_tidy (e : Equation V) (bound : List (VarId × V)) :
    (e.start bound).candidates.Tidy := by
  have single {v : VarId} {xs : List V} (held : (e.start bound).candidates.get? v = some xs) :
      ∃ x, xs = [x] := by
    rw [(start_get? e bound).2] at held
    split at held
    · obtain ⟨x, -, rfl⟩ := Option.map_eq_some_iff.1 held
      exact ⟨x, rfl⟩
    · cases held
  constructor
  · intro v xs held
    obtain ⟨x, rfl⟩ := single held
    exact List.cons_ne_nil x []
  · intro v xs held
    obtain ⟨x, rfl⟩ := single held
    simp

theorem mem_of_bound_value (value : boundValue bound v = some x) : (v, x) ∈ bound := by
  unfold boundValue at value
  obtain ⟨before, after, parts, -⟩ := List.lookup_eq_some_iff.1 value
  rw [← List.mem_reverse, parts]
  simp

theorem bound_value_of_mem (listed : (v, x) ∈ bound) : ∃ y, boundValue bound v = some y := by
  rw [← Option.isSome_iff_exists, boundValue, List.lookup_isSome_iff]
  exact ⟨(v, x), List.mem_reverse.2 listed, by simp⟩

/-- The valuation that an assignment lists. -/
def Assignment.valuation (values : Assignment V) : Valuation V := fun v => List.lookup v values

/-- An assignment names the variables that have a candidate, and looks up to the
first one of each. -/
private theorem assignment_lookup (vars : List VarId) (t : Valuation V)
    (valued : ∀ v ∈ vars, ∃ x, t v = some x) :
    (vars.filterMap fun v => (t v).map (v, ·)).map (·.1) = vars ∧
      ∀ v ∈ vars, Assignment.valuation (vars.filterMap fun v => (t v).map (v, ·)) v = t v := by
  induction vars with
  | nil => simp
  | cons v rest ih =>
    obtain ⟨x, value⟩ := valued v List.mem_cons_self
    obtain ⟨names, found⟩ := ih fun w mem => valued w (List.mem_cons_of_mem v mem)
    rw [List.filterMap_cons, value]
    refine ⟨congrArg (v :: ·) names, fun w mem => ?_⟩
    rw [Option.map_some, Assignment.valuation, List.lookup_cons]
    by_cases same : w = v
    · subst same
      simp [value]
    · rw [beq_eq_false_iff_ne.2 same]
      exact found w ((List.mem_cons.1 mem).resolve_left same)

variable [DecidableEq V] {holds : Query V → Bool} {e : Equation V} {bound : List (VarId × V)}
  {choice : List (Atom V)}

/-- What propagation makes of the constraints of a choice. -/
structure Propagated (holds : Query V → Bool) (e : Equation V) (bound : List (VarId × V))
    (choice : List (Atom V)) (b : Branch V) : Prop where
  atoms : b.atoms = choice
  vars : b.candidates.vars = e.vars
  tidy : b.candidates.Tidy
  consistent : ∀ a ∈ choice, Consistent holds b.candidates a
  reached : ∀ v xs, b.candidates.get? v = some xs → Reached bound choice v
  fixed : ∀ v ∈ e.vars, ∀ x, boundValue bound v = some x → b.candidates.get? v = some [x]

theorem propagated_of_collect (chosen : choice ∈ e.choices)
    (ran : collect holds (e.start bound) choice = some b) : Propagated holds e bound choice b := by
  have keeps {P : Option (Candidates V) → Prop} (stable : Stable holds choice P)
      (start : P (some (e.start bound).candidates)) : P (some b.candidates) := by
    have last := collect_keeps (b := e.start bound) stable (by simp [Equation.start]) choice
      (fun a mem => mem) start
    rwa [ran] at last
  have atoms : b.atoms = choice := collect_atoms ran
  have within : b.candidates.Within (e.start bound).candidates :=
    keeps (stable_within _ choice) (by rintro _ ⟨⟩; exact .refl _) _ rfl
  have tidy : b.candidates.Tidy :=
    keeps (stable_tidy choice) (by rintro _ ⟨⟩; exact start_tidy e bound) _ rfl
  obtain ⟨vars, known⟩ := start_get? e bound
  refine ⟨atoms, within.vars.trans vars, tidy, ?_, ?_, ?_⟩
  · refine atoms ▸ collect_consistent (fun a mem v mentioned => ?_) (by simp [Equation.start]) ran
    rw [vars]
    exact vars_of_choice chosen a (by simpa [Equation.start] using mem) v mentioned
  · refine keeps (stable_reached fun a mem => mem) ?_ _ rfl
    rintro _ ⟨⟩ v xs held
    rw [known] at held
    split at held
    · obtain ⟨x, value, -⟩ := Option.map_eq_some_iff.1 held
      exact .bound (mem_of_bound_value value)
    · cases held
  · intro v mem x value
    obtain ⟨ys, now, less⟩ := within.left v [x] (by rw [known, if_pos mem, value]; rfl)
    rw [less.eq_of_length_le (List.length_pos_iff.2 (tidy.filled v ys now))] at now
    exact now

/-- Exactly the variables that are sure to get candidates have some. -/
theorem Propagated.known_iff (done : Propagated holds e bound choice b)
    (chosen : choice ∈ e.choices) (mem : v ∈ e.vars) :
    (∃ xs, b.candidates.get? v = some xs) ↔ Reached bound choice v := by
  refine ⟨fun ⟨xs, held⟩ => done.reached v xs held, fun reached => ?_⟩
  induction reached with
  | bound listed =>
    obtain ⟨y, value⟩ := bound_value_of_mem listed
    exact ⟨[y], done.fixed _ mem y value⟩
  | domain here =>
    obtain ⟨xs, held, -⟩ := done.consistent _ here
    exact ⟨xs, held⟩
  | left here _ ih =>
    have other := ih (vars_of_choice chosen _ here _ (List.mem_cons_of_mem _ List.mem_cons_self))
    have handed := (done.consistent _ here).1 rfl
    exact Option.isSome_iff_exists.1 (handed.2 (Option.isSome_iff_exists.2 other))
  | right here _ ih =>
    have other := ih (vars_of_choice chosen _ here _ List.mem_cons_self)
    have handed := (done.consistent _ here).1 rfl
    exact Option.isSome_iff_exists.1 (handed.1 (Option.isSome_iff_exists.2 other))

/-- A choice that can be solved is propagated without loss of the solution. -/
theorem collect_of_solves (e : Equation V) (solves : Solves holds bound choice t) :
    ∃ b, collect holds (e.start bound) choice = some b ∧ b.candidates.Admits t := by
  have start : (e.start bound).candidates.Admits t := by
    intro v x xs value held
    rw [(start_get? e bound).2] at held
    split at held
    · obtain ⟨y, fixed, rfl⟩ := Option.map_eq_some_iff.1 held
      exact List.mem_singleton.2 (solves.agrees v x y value fixed)
    · cases held
  obtain ⟨c, ran, admits⟩ := collect_keeps (b := e.start bound) (stable_admits solves.satisfied)
    (by simp [Equation.start]) choice (fun a mem => mem) ⟨_, rfl, start⟩
  obtain ⟨b, collected, rfl⟩ := Option.map_eq_some_iff.1 ran
  exact ⟨b, collected, admits⟩

/-! ## The answer of a choice -/

theorem Propagated.vars_eq (done : Propagated holds e bound choice b) :
    b.vars = e.varsOf choice := by
  rw [Branch.vars_eq, done.vars, done.atoms, Equation.varsOf]

/-- A constraint is true of single candidates that are consistent with it. -/
theorem holds_of_consistent {c : Candidates V}
    (single : ∀ v ∈ a.vars, ∃ x, c.get? v = some [x]) (consistent : Consistent holds c a) :
    a.Holds holds c.firsts := by
  cases a with
  | domain v values origin =>
    obtain ⟨x, held⟩ := single v (List.mem_singleton.2 rfl)
    obtain ⟨xs, again, among⟩ := consistent
    rw [held] at again
    cases again
    exact ⟨x, Candidates.firsts_eq held, among x (List.mem_singleton.2 rfl)⟩
  | predicate v p origin =>
    obtain ⟨x, held⟩ := single v (List.mem_singleton.2 rfl)
    exact ⟨x, Candidates.firsts_eq held, consistent [x] held x (List.mem_singleton.2 rfl)⟩
  | bind a b relation origin =>
    obtain ⟨x, left⟩ := single a List.mem_cons_self
    obtain ⟨y, right⟩ := single b (List.mem_cons_of_mem _ List.mem_cons_self)
    refine ⟨x, y, Candidates.firsts_eq left, Candidates.firsts_eq right, ?_⟩
    by_cases same : a = b
    · subst same
      rw [left] at right
      cases right
      exact consistent.2.1 rfl [x] left x (List.mem_singleton.2 rfl)
    · obtain ⟨z, only, yes⟩ := consistent.2.2 same [x] [y] left right x (List.mem_singleton.2 rfl)
      exact List.mem_singleton.1 only ▸ yes

theorem completed_some (ended : completed holds b = some d) :
    (∀ v ∈ b.vars, ∃ xs, b.candidates.get? v = some xs) ∧
      labelled holds b.atoms b.vars b.candidates = some d := by
  unfold completed at ended
  split at ended
  · cases ended
  · next closed =>
    refine ⟨fun v mem => ?_, ended⟩
    rw [List.any_eq_true, not_exists] at closed
    exact Option.ne_none_iff_exists'.1 fun unknown => closed v ⟨mem, by rw [unknown]; rfl⟩

/-- Every variable that a completed branch mentions is left with one candidate. -/
theorem Propagated.labelling (done : Propagated holds e bound choice b)
    (chosen : choice ∈ e.choices) (ended : completed holds b = some d) :
    Labelling holds choice (e.varsOf choice) b.candidates d ∧
      ∀ v ∈ e.varsOf choice, ∃ x, d.get? v = some [x] := by
  obtain ⟨known, found⟩ := completed_some ended
  rw [done.atoms] at found
  rw [done.vars_eq] at known found
  have labelling := labelling_of_labelled done.tidy
    (fun a mem v mentioned => done.vars ▸ vars_of_choice chosen a mem v mentioned)
    done.consistent found
  refine ⟨labelling, fun v mem => ?_⟩
  obtain ⟨xs, held⟩ := known v mem
  obtain ⟨ys, now, -⟩ := labelling.within.left v xs held
  obtain ⟨x, rfl⟩ := List.length_eq_one_iff.1 (Nat.le_antisymm (labelling.decided v mem ys now)
    (List.length_pos_iff.2 (labelling.tidy.filled v ys now)))
  exact ⟨x, now⟩

theorem holds_congr {a : Atom V} {t u : Valuation V} (same : ∀ v ∈ a.vars, t v = u v)
    (true_ : a.Holds holds t) : a.Holds holds u := by
  cases a with
  | domain v values origin | predicate v p origin =>
    obtain ⟨x, value, yes⟩ := true_
    exact ⟨x, same v (List.mem_singleton.2 rfl) ▸ value, yes⟩
  | bind a b relation origin =>
    obtain ⟨x, y, left, right, yes⟩ := true_
    exact ⟨x, y, same a List.mem_cons_self ▸ left,
      same b (List.mem_cons_of_mem _ List.mem_cons_self) ▸ right, yes⟩

/-- What a completed branch stands for. -/
theorem answer_solves (done : Propagated holds e bound choice b) (chosen : choice ∈ e.choices)
    (ended : completed holds b = some d) :
    (Equation.assignment b d).map (·.1) = e.varsOf choice ∧
      (∀ v ∈ e.varsOf choice, (Equation.assignment b d).valuation v = d.firsts v) ∧
      Solves holds bound choice (Equation.assignment b d).valuation := by
  obtain ⟨labelling, single⟩ := done.labelling chosen ended
  have spelled : Equation.assignment b d =
      (e.varsOf choice).filterMap fun v => (d.firsts v).map (v, ·) := by
    unfold Equation.assignment
    rw [done.vars_eq]
    refine congrArg (List.filterMap · _) (funext fun v => ?_)
    unfold Candidates.firsts
    rcases d.get? v with _ | ⟨_ | ⟨x, xs⟩⟩ <;> rfl
  obtain ⟨names, found⟩ := assignment_lookup (e.varsOf choice) d.firsts fun v mem =>
    (single v mem).imp fun x held => Candidates.firsts_eq held
  rw [spelled]
  refine ⟨names, found, fun v x y value fixed => ?_, fun a mem => ?_⟩
  · have listed : v ∈ e.varsOf choice := by
      obtain ⟨before, after, parts, -⟩ := List.lookup_eq_some_iff.1 value
      rw [← names, parts]
      simp
    have inAll : v ∈ e.vars := (List.mem_filter.1 listed).1
    have now := firsts_of_single labelling.within labelling.tidy (done.fixed v inAll y fixed)
    rw [found v listed, now] at value
    exact (Option.some.inj value).symm
  · have inChoice {v : VarId} (mentioned : v ∈ a.vars) : v ∈ e.varsOf choice :=
      (mem_vars_of_iff chosen).2 ⟨a, mem, mentioned⟩
    exact holds_congr (fun v mentioned => (found v (inChoice mentioned)).symm)
      (holds_of_consistent (fun v mentioned => single v (inChoice mentioned))
        (labelling.consistent a mem))

/-! ## The choice that is found -/

/-- A grounded choice is one whose variables all have candidates. -/
theorem Propagated.grounded_iff (done : Propagated holds e bound choice b)
    (chosen : choice ∈ e.choices) :
    Grounded bound choice ↔ ∀ v ∈ e.varsOf choice, ∃ xs, b.candidates.get? v = some xs := by
  constructor
  · intro grounded v mem
    obtain ⟨a, among, mentioned⟩ := (mem_vars_of_iff chosen).1 mem
    exact (done.known_iff chosen (vars_of_choice chosen a among v mentioned)).2
      (grounded a among v mentioned)
  · intro known a among v mentioned
    exact (done.known_iff chosen (vars_of_choice chosen a among v mentioned)).1
      (known v ((mem_vars_of_iff chosen).2 ⟨a, among, mentioned⟩))

/-- A solution gives each variable of its choice a value. -/
theorem valued_of_solves (solves : Solves holds bound choice t) (chosen : choice ∈ e.choices) :
    ∀ v ∈ e.varsOf choice, ∃ x, t v = some x := by
  intro v mem
  obtain ⟨a, among, mentioned⟩ := (mem_vars_of_iff chosen).1 mem
  have true_ := solves.satisfied a among
  cases a with
  | domain w values origin | predicate w p origin =>
    obtain ⟨x, value, -⟩ := true_
    exact ⟨x, List.mem_singleton.1 mentioned ▸ value⟩
  | bind a b relation origin =>
    obtain ⟨x, y, left, right, -⟩ := true_
    rcases List.mem_cons.1 mentioned with rfl | second
    · exact ⟨x, left⟩
    · exact ⟨y, List.mem_singleton.1 second ▸ right⟩

/-- A grounded choice that can be solved has an answer. -/
theorem answer_of_solves (chosen : choice ∈ e.choices) (grounded : Grounded bound choice)
    (solves : Solves holds bound choice t) :
    ∃ s, (collect holds (e.start bound) choice).bind (Equation.answer holds) = some s := by
  obtain ⟨b, ran, admits⟩ := collect_of_solves e solves
  have done := propagated_of_collect chosen ran
  have known := (done.grounded_iff chosen).1 grounded
  have closed : ¬(b.vars.any fun v => (b.candidates.get? v).isNone) = true := by
    rw [List.any_eq_true]
    rintro ⟨v, mem, unknown⟩
    obtain ⟨xs, held⟩ := known v (done.vars_eq ▸ mem)
    rw [held] at unknown
    cases unknown
  have valued : ∀ v ∈ b.vars, ∃ x, t v = some x :=
    fun v mem => valued_of_solves solves chosen v (done.vars_eq ▸ mem)
  obtain ⟨d, found⟩ := labelled_of_admits (done.atoms.symm ▸ solves.satisfied) valued admits
  refine ⟨Equation.assignment b d, ?_⟩
  rw [ran, Option.bind_some, Equation.answer, completed, if_neg closed, found, Option.map_some]

/-- The first answer belongs to a choice such that no choice before it has one. -/
theorem first_answer_some (found : e.firstAnswer holds bound = some s) :
    ∃ before choice after b d, e.choices = before ++ choice :: after ∧
      (∀ earlier ∈ before, ¬(Grounded bound earlier ∧ ∃ t, Solves holds bound earlier t)) ∧
      collect holds (e.start bound) choice = some b ∧ completed holds b = some d ∧
      s = Equation.assignment b d := by
  obtain ⟨before, choice, after, parts, result, lost⟩ := List.findSome?_eq_some_iff.1 found
  obtain ⟨b, ran, answered⟩ := Option.bind_eq_some_iff.1 result
  obtain ⟨d, ended, rfl⟩ := Option.map_eq_some_iff.1 answered
  refine ⟨before, choice, after, b, d, parts, ?_, ran, ended, rfl⟩
  rintro earlier mem ⟨grounded, t, solves⟩
  obtain ⟨s, answer⟩ := answer_of_solves (by rw [parts]; simp [mem]) grounded solves
  rw [lost earlier mem] at answer
  cases answer

/-- The first answer is a solution of its choice. -/
theorem solution_of_first_answer (found : e.firstAnswer holds bound = some s) :
    ∃ choice ∈ e.choices, s.map (·.1) = e.varsOf choice ∧ Solves holds bound choice s.valuation := by
  obtain ⟨before, choice, after, b, d, parts, -, ran, ended, rfl⟩ := first_answer_some found
  have chosen : choice ∈ e.choices := by rw [parts]; simp
  obtain ⟨names, -, solves⟩ := answer_solves (propagated_of_collect chosen ran) chosen ended
  exact ⟨choice, chosen, names, solves⟩

section Solve
variable [Hashable V] {oracle : Oracle σ ε V}

/-- An oracle that always answers never makes a solve without a limit halt. -/
theorem solve_ends (answers : ∀ q world, (oracle q world).1 = .ok (holds q)) (e : Equation V)
    (bound : List (VarId × V)) (world : σ) :
    ∃ outcome, (e.solve oracle ⟨0⟩ bound world).1 = .ok outcome ∧
      outcome.values? = e.firstAnswer holds bound := by
  have computed := Equation.solve_computes (reliable_of_answers answers) ⟨0⟩ (.inl rfl) e bound
    world
  cases ran : (e.solve oracle ⟨0⟩ bound world).1 with
  | ok outcome => exact ⟨outcome, rfl, by simpa only [ran] using computed⟩
  | error halt => simp only [ran] at computed

theorem solved_of_solves (answers : ∀ q world, (oracle q world).1 = .ok (holds q))
    (bound : List (VarId × V)) (world : σ) (chosen : choice ∈ e.choices)
    (grounded : Grounded bound choice) (solves : Solves holds bound choice t) :
    ∃ s, (e.solve oracle ⟨0⟩ bound world).1 = .ok (.solved s) := by
  obtain ⟨outcome, ran, computed⟩ := solve_ends answers e bound world
  obtain ⟨s, answer⟩ := answer_of_solves chosen grounded solves
  have found : (e.firstAnswer holds bound).isSome :=
    List.findSome?_isSome_iff.2 ⟨choice, chosen, by rw [answer]; rfl⟩
  rw [← computed] at found
  cases outcome with
  | solved s => exact ⟨s, ran⟩
  | failed why => cases found

/-- What a solve returns solves one of the choices: it names the variables of the
choice, each once and in the order of the equation, it keeps to the values bound
beforehand, and it makes every constraint of the choice true. -/
theorem solve_sound {config : SolverConfig} {s : Assignment V}
    (fixed : ∀ q world b, (oracle q world).1 = .ok b → b = holds q)
    (solved : (e.solve oracle config bound world).1 = .ok (.solved s)) :
    ∃ choice ∈ e.choices, s.map (·.1) = e.varsOf choice ∧ (e.varsOf choice).Nodup ∧
      Solves holds bound choice s.valuation := by
  have computed := Equation.solve_computes (reliable_of_fixed fixed) config (.inr trivial) e bound
    world
  simp only [solved, Outcome.values?] at computed
  obtain ⟨choice, chosen, names, solves⟩ := solution_of_first_answer computed.symm
  exact ⟨choice, chosen, names, e.nodup_vars_of choice, solves⟩

/-- Two variables that a relation orders: the only ordered pair is found. -/
theorem solve_sound_of_ordered_pair :
    (Equation.solve (answering fun q => q matches .binary _ 1 2) ⟨0⟩
      (.and [.atom (.domain ⟨0⟩ [3, 1] none), .atom (.domain ⟨1⟩ [2] none),
        .atom (.bind ⟨0⟩ ⟨1⟩ (some ⟨0⟩) none)]) [] () : Except (Halt Unit) (Outcome Nat) × Unit).1 =
      .ok (.solved [(⟨0⟩, 1), (⟨1⟩, 2)]) := by
  let holds : Query Nat → Bool := fun q => q matches .binary _ 1 2
  let choice : List (Atom Nat) :=
    [.domain ⟨0⟩ [3, 1] none, .domain ⟨1⟩ [2] none, .bind ⟨0⟩ ⟨1⟩ (some ⟨0⟩) none]
  have grounded : Grounded [] choice := by
    have left : Reached [] choice ⟨0⟩ := .domain List.mem_cons_self
    have right : Reached [] choice ⟨1⟩ := .domain (List.mem_cons_of_mem _ List.mem_cons_self)
    simp [Grounded, choice, Atom.vars, left, right]
  have solves : Solves holds [] choice fun v => some (v.raw + 1) :=
    ⟨by simp [boundValue], by simp [choice, Atom.Holds, related, holds]⟩
  have chosen : choice ∈ (Equation.and (choice.map .atom)).choices := List.mem_singleton.2 rfl
  obtain ⟨s, ran⟩ := solved_of_solves (ε := Unit) (answering_answers holds) [] () chosen grounded
    solves
  obtain ⟨_, chosen, names, -, found⟩ :=
    solve_sound (fun q world b answered => (Except.ok.inj answered).symm) ran
  obtain rfl := List.mem_singleton.1 chosen
  have vars : (Equation.and (choice.map .atom)).varsOf choice = [⟨0⟩, ⟨1⟩] := by
    simp [Equation.varsOf, Equation.vars, Equation.atoms, choice, Atom.vars, Atom.mentions,
      List.eraseDups_cons]
  obtain ⟨x, y, left, right, related⟩ := found.satisfied
    (.bind ⟨0⟩ ⟨1⟩ (some ⟨0⟩) none) (by simp)
  have ordered : x = 1 ∧ y = 2 := by
    simp only [Solver.related, holds] at related
    split at related
    · next same => cases same; exact ⟨rfl, rfl⟩
    · cases related
  obtain ⟨rfl, rfl⟩ := ordered
  obtain ⟨⟨v, a⟩, rest, rfl, named, names⟩ := List.map_eq_cons_iff.1 (names.trans vars)
  obtain ⟨⟨w, b⟩, rest, rfl, named', names⟩ := List.map_eq_cons_iff.1 names
  obtain rfl := List.map_eq_nil_iff.1 names
  cases named
  cases named'
  cases left
  cases right
  exact ran

/-- A grounded choice that has a solution is not missed: the solve returns an
assignment, and it fails only when there is no such choice. -/
theorem solve_complete (answers : ∀ q world, (oracle q world).1 = .ok (holds q)) (e : Equation V)
    (bound : List (VarId × V)) (world : σ) :
    (∀ choice ∈ e.choices, Grounded bound choice → ∀ t, Solves holds bound choice t →
        ∃ s, (e.solve oracle ⟨0⟩ bound world).1 = .ok (.solved s)) ∧
      ∀ why, (e.solve oracle ⟨0⟩ bound world).1 = .ok (.failed why) →
        ∀ choice ∈ e.choices, Grounded bound choice → ∀ t, ¬Solves holds bound choice t := by
  constructor
  · intro choice chosen grounded t solves
    exact solved_of_solves answers bound world chosen grounded solves
  · intro why failed choice chosen grounded t solves
    obtain ⟨s, ran⟩ := solved_of_solves answers bound world chosen grounded solves
    rw [failed] at ran
    cases ran

/-- A value bound beforehand passes through an equality to a variable that
nothing else gives candidates. -/
theorem solve_complete_of_bound :
    ∃ s, (Equation.solve (answering fun q => q matches .unary _ 2) ⟨0⟩
      (.or [.never, .and [.atom (.bind ⟨0⟩ ⟨1⟩ none none), .atom (.predicate ⟨1⟩ ⟨0⟩ none)]])
      [(⟨0⟩, 1), (⟨0⟩, 2)] () : Except (Halt Unit) (Outcome Nat) × Unit).1 = .ok (.solved s) := by
  let choice : List (Atom Nat) := [.bind ⟨0⟩ ⟨1⟩ none none, .predicate ⟨1⟩ ⟨0⟩ none]
  have grounded : Grounded [(⟨0⟩, 1), (⟨0⟩, 2)] choice := by
    have left : Reached [(⟨0⟩, 1), (⟨0⟩, 2)] choice ⟨0⟩ := .bound List.mem_cons_self
    have right : Reached [(⟨0⟩, 1), (⟨0⟩, 2)] choice ⟨1⟩ := .right List.mem_cons_self left
    simp [Grounded, choice, Atom.vars, left, right]
  have solves : Solves (fun q => q matches .unary _ 2) [(⟨0⟩, 1), (⟨0⟩, 2)] choice
      fun _ => some 2 := by
    refine ⟨fun v x y value fixed => ?_, by simp [choice, Atom.Holds, related]⟩
    cases value
    by_cases first : v = ⟨0⟩
    · subst first
      exact Option.some.inj fixed
    · simp [boundValue, List.lookup_cons, beq_eq_false_iff_ne.2 first] at fixed
  exact (solve_complete (fun _ _ => rfl) _ _ ()).1 choice
    (by simp [Equation.choices, Equation.choicesOfAny, Equation.choicesOfAll, choice])
    grounded _ solves

/-- The branch that is left when nothing but the constraints of one choice is
explored: its candidates are those there are before labelling. -/
def Equation.branchOf (oracle : Oracle σ ε V) (e : Equation V) (bound : List (VarId × V))
    (choice : List (Atom V)) (world : σ) : Option (Branch V) :=
  match (explore oracle 0 (fun b _ => return .done (some b)) (choice.map .atom) (e.start bound)
      none (.start world)).1 with
  | .ok (.done found) => found
  | _ => none

theorem branch_of_computes (answers : ∀ q world, (oracle q world).1 = .ok (holds q))
    (e : Equation V) (bound : List (VarId × V)) (choice : List (Atom V)) (world : σ) :
    e.branchOf oracle bound choice world = collect holds (e.start bound) choice := by
  have visits (b : Branch V) (found : Option (Branch V)) :
      Ensures holds (fun _ => False)
        (return .done (some b) : SearchM σ ε V (ForInStep (Option (Branch V))))
        (· = .done (some b)) :=
    ensures_pure rfl
  have result := (explore_computes (reliable_of_answers answers) (.inl rfl) visits
    (choice.map .atom) (e.start bound) none (.start world) (truthful_start world)).2
  unfold Equation.branchOf
  rw [Equation.choices_of_atoms] at result
  split at result
  · next walked ran =>
    rw [ran, result, List.filterMap_cons, List.filterMap_nil]
    cases collect holds (e.start bound) choice <;> rfl
  · exact result.elim

/-- The choice that a solve solves is the first one that is grounded and can be
solved. Of its solutions the one returned has the earliest candidates, compared
variable by variable in the order of the equation. -/
theorem solve_least {s : Assignment V} (answers : ∀ q world, (oracle q world).1 = .ok (holds q))
    (solved : (e.solve oracle ⟨0⟩ bound world).1 = .ok (.solved s)) :
    ∃ before choice after b, e.choices = before ++ choice :: after ∧
      (∀ earlier ∈ before, ¬(Grounded bound earlier ∧ ∃ t, Solves holds bound earlier t)) ∧
      Grounded bound choice ∧ Solves holds bound choice s.valuation ∧
      e.branchOf oracle bound choice world = some b ∧
      ∀ t, Solves holds bound choice t → b.candidates.Admits t ∧
        ((∀ v ∈ e.varsOf choice, s.valuation v = t v) ∨
          List.Lex (· < ·) (ranks b.candidates.position s.valuation (e.varsOf choice))
            (ranks b.candidates.position t (e.varsOf choice))) := by
  obtain ⟨outcome, ended, computed⟩ := solve_ends answers e bound world
  rw [solved] at ended
  cases ended
  obtain ⟨before, choice, after, b, d, parts, lost, ran, ended, rfl⟩ :=
    first_answer_some computed.symm
  have chosen : choice ∈ e.choices := by rw [parts]; simp
  have done := propagated_of_collect chosen ran
  obtain ⟨known, found⟩ := completed_some ended
  rw [done.vars_eq] at known found
  rw [done.atoms] at found
  obtain ⟨-, looked, solves⟩ := answer_solves done chosen ended
  have admits {t : Valuation V} (solves : Solves holds bound choice t) : b.candidates.Admits t := by
    obtain ⟨r, again, admits⟩ := collect_of_solves e solves
    rw [ran] at again
    cases again
    exact admits
  refine ⟨before, choice, after, b, parts, lost, (done.grounded_iff chosen).2 known, solves,
    (branch_of_computes answers e bound choice world).trans ran, fun t other => ⟨admits other, ?_⟩⟩
  have least := labelled_least done.tidy
    (fun a mem v mentioned => done.vars ▸ vars_of_choice chosen a mem v mentioned) done.consistent
    (Candidates.ranked_position done.tidy known) other.satisfied (valued_of_solves other chosen)
    (admits other) found
  have same : ranks b.candidates.position d.firsts (e.varsOf choice) =
      ranks b.candidates.position (Equation.assignment b d).valuation (e.varsOf choice) :=
    List.map_congr_left fun v mem => by rw [looked v mem]
  rw [same] at least
  rcases least with equal | less
  · exact .inl (eq_of_positions known (admits solves) (valued_of_solves solves chosen)
      (valued_of_solves other chosen) equal)
  · exact .inr less

/-- An alternative without candidates is passed over; of the next one's
candidates the first is taken. -/
theorem solve_least_of_alternatives :
    let e : Equation Nat := .or [.atom (.domain ⟨0⟩ [] none), .atom (.domain ⟨0⟩ [2, 1] none)]
    let oracle : Oracle Unit Unit Nat := answering fun _ => true
    ∃ s b, (e.solve oracle ⟨0⟩ [] ()).1 = .ok (.solved s) ∧
      e.branchOf oracle [] [.domain ⟨0⟩ [2, 1] none] () = some b ∧
      ∀ t, Solves (fun _ => true) [] [.domain ⟨0⟩ [2, 1] none] t → b.candidates.Admits t ∧
        (s.valuation ⟨0⟩ = t ⟨0⟩ ∨ List.Lex (· < ·)
          (ranks b.candidates.position s.valuation [⟨0⟩])
          (ranks b.candidates.position t [⟨0⟩])) := by
  intro e oracle
  have choices : e.choices = [[.domain ⟨0⟩ [] none], [.domain ⟨0⟩ [2, 1] none]] := by
    simp [e, Equation.choices, Equation.choicesOfAny]
  have grounded : Grounded [] [Atom.domain ⟨0⟩ [2, 1] none] := by
    have given : Reached [] [Atom.domain ⟨0⟩ [2, 1] none] ⟨0⟩ := .domain List.mem_cons_self
    simp [Grounded, Atom.vars, given]
  have solves : Solves (fun _ => true) [] [Atom.domain ⟨0⟩ [2, 1] none] fun _ => some 1 :=
    ⟨by simp [boundValue], by simp [Atom.Holds]⟩
  have chosen : [.domain ⟨0⟩ [2, 1] none] ∈ e.choices := by simp [choices]
  have answers : ∀ q world, (oracle q world).1 = .ok true := fun _ _ => rfl
  obtain ⟨s, ran⟩ := solved_of_solves answers [] () chosen grounded solves
  obtain ⟨before, choice, after, b, parts, -, -, found, branch, least⟩ := solve_least answers ran
  have second : choice = [.domain ⟨0⟩ [2, 1] none] := by
    rw [choices] at parts
    rcases before with _ | ⟨first, rest⟩
    · -- the first alternative has no solution
      cases parts
      obtain ⟨x, -, among⟩ := found.satisfied _ List.mem_cons_self
      cases among
    · rcases rest with _ | ⟨more, rest⟩
      · cases parts; rfl
      · simp at parts
  subst second
  have vars : e.varsOf [.domain ⟨0⟩ [2, 1] none] = [⟨0⟩] := by
    simp [e, Equation.varsOf, Equation.vars, Equation.atoms, Atom.vars, Atom.mentions,
      List.eraseDups_cons]
  rw [vars] at least
  refine ⟨s, b, ran, branch, fun t other => ?_⟩
  obtain ⟨admits, same | less⟩ := least t other
  · exact ⟨admits, .inl (same ⟨0⟩ List.mem_cons_self)⟩
  · exact ⟨admits, .inr less⟩

end Solve

end Trellis
