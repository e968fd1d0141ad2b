import Trellis.Proofs.Solver.Solutions

/-! Why a solve fails. Each way that is given up leaves a reason behind, and the reason met
last is reported. It is about a constraint of the equation, or about a variable of one of
its choices that was never sure to get candidates, or about a contradiction that the
equation contains; and since every way has to be given up before a solve fails, there is
always a reason to report. -/
namespace Trellis
open Solver

/-! ## Reasons -/

/-- The parts of an equation are the equation itself and the parts of its operands. -/
inductive Equation.Part : Equation V → Equation V → Prop
  | whole (e : Equation V) : Part e e
  | conjunct (mem : e ∈ es) (part : Part p e) : Part p (.and es)
  | disjunct (mem : e ∈ es) (part : Part p e) : Part p (.or es)

/-- The equation contains a contradiction: a disjunction of nothing is one as well. -/
def Equation.Contradictory (e : Equation V) : Prop := Part .never e ∨ Part (.or []) e

theorem Equation.contradictory_and (mem : e ∈ es) (contradictory : e.Contradictory) :
    (Equation.and es).Contradictory :=
  contradictory.imp (.conjunct mem) (.conjunct mem)

theorem Equation.contradictory_or (mem : e ∈ es) (contradictory : e.Contradictory) :
    (Equation.or es).Contradictory :=
  contradictory.imp (.disjunct mem) (.disjunct mem)

/-- The first of these atoms that mentions the variable was written at `origin`. -/
def FirstMention (atoms : List (Atom V)) (v : VarId) (origin : Option Site) : Prop :=
  ∃ before a after, atoms = before ++ a :: after ∧ v ∈ a.vars ∧ a.origin = origin ∧
    ∀ b ∈ before, v ∉ b.vars

/-- What the equation has to do with the reason for a failure. -/
def Equation.Explains (e : Equation V) (bound : List (VarId × V)) : Inconsistency → Prop
  | .emptyDomain v origin => ∃ a ∈ e.atoms, v ∈ a.vars ∧ a.origin = origin
  | .unconstrained v origin =>
    ∃ choice ∈ e.choices, ¬Reached bound choice v ∧ FirstMention choice v origin
  | .contradiction => e.Contradictory

theorem first_mention_of_find {atoms : List (Atom V)} (mem : ∃ a ∈ atoms, v ∈ a.vars) :
    FirstMention atoms v ((atoms.find? (·.mentions v)).bind Atom.origin) := by
  cases found : atoms.find? (·.mentions v) with
  | none =>
    obtain ⟨a, among, mentioned⟩ := mem
    have silent := List.find?_eq_none.1 found a among
    simp [Atom.mentions, mentioned] at silent
  | some a =>
    obtain ⟨mentions, before, after, parts, earlier⟩ := List.find?_eq_some_iff_append.1 found
    refine ⟨before, a, after, parts, by simpa [Atom.mentions] using mentions, rfl, ?_⟩
    intro b among
    simpa [Atom.mentions] using earlier b among

namespace Solver

theorem narrow_emptied {c : Candidates V} (ran : narrow c v values = .emptied w) : w = v := by
  rcases narrow_cases c v values with ⟨emptied, -⟩ | same | ⟨_, _, put, -⟩
  · rw [emptied] at ran
    cases ran
    rfl
  · rw [same] at ran
    cases ran
  · rw [put] at ran
    cases ran

variable [DecidableEq V] {holds : Query V → Bool}

theorem bind_effect_emptied {c : Candidates V}
    (ran : bindEffect holds c a b relation = .emptied w) : w = a ∨ w = b := by
  unfold bindEffect at ran
  split at ran
  · cases ran
  · split at ran
    · cases ran
    · exact .inl (narrow_emptied ran)
  · split at ran
    · cases ran
    · exact .inr (narrow_emptied ran)
  · split at ran
    · exact .inr (narrow_emptied ran)
    · next d tighter _ =>
      cases second : narrow d b _ <;> rw [second] at ran <;> cases ran
      exact .inr (narrow_emptied second)
    · next v first =>
      cases ran
      exact .inl (narrow_emptied first)

/-- A constraint empties only variables that it mentions. -/
theorem atom_effect_emptied {c : Candidates V} (ran : atomEffect holds c a = .emptied w) :
    w ∈ a.vars := by
  cases a with
  | domain v values origin => simp [Atom.vars, narrow_emptied ran]
  | predicate v p origin =>
    simp only [atomEffect] at ran
    split at ran
    · cases ran
    · simp [Atom.vars, narrow_emptied ran]
  | bind a b relation origin =>
    simp only [atomEffect] at ran
    split at ran
    · split at ran
      · simp [Atom.vars, narrow_emptied ran]
      · cases ran
    · simpa [Atom.vars] using bind_effect_emptied ran

/-! ## What is noted -/

variable [Hashable V] {ok : Inconsistency → Prop}

/-- The reason noted last, if any, is as it should be. -/
def Explained (ok : Inconsistency → Prop) (s : Search σ V) : Prop :=
  ∀ why, s.failure = some why → ok why

/-- An action that notes nothing. -/
def Silent (act : SearchM σ ε V α) : Prop := ∀ s, (act s).2.failure = s.failure

theorem silent_sequential :
    Engine.Sequential fun α (act _ : SearchM σ ε V α) => Silent act where
  pure _ _ := rfl
  bind := by
    intro α β act act' next next' first rest s
    have before := first s
    rw [bind_run]
    rcases ran : act s with ⟨halt | x, t⟩ <;> rw [ran] at before
    · exact before
    · exact (rest x t).trans before

theorem silent_ask (oracle : Oracle σ ε V) (q : Query V) : Silent (ask oracle q) := by
  intro s
  cases known : s.answers[q]? with
  | some b => rw [ask_known known]
  | none => rw [ask_new known]

theorem silent_charge (limit extra : Nat) :
    Silent (charge limit extra : SearchM σ ε V Unit) := by
  intro s
  simp only [charge]
  split <;> rfl

theorem silent_apply_atom (oracle : Oracle σ ε V) (c : Candidates V) (a : Atom V) :
    Silent (applyAtom oracle c a) := by
  let E : Engine (SearchM σ ε V) V := .standard oracle 0
  exact @Engine.apply_atom_related _ _ _ _ _ _ _ E E silent_sequential c a
    fun q _ => silent_ask oracle q

/-- An action notes only reasons as they should be and forgets none. Its result is as `post`
says, and where it came out `lost` a reason has been noted. -/
def Blames (holds : Query V → Bool) (ok : Inconsistency → Prop) (post lost : α → Prop)
    (act : SearchM σ ε V α) : Prop :=
  ∀ s, Truthful holds s → Explained ok s → ∀ x t, act s = (.ok x, t) →
    Truthful holds t ∧ Explained ok t ∧ post x ∧ (s.failure.isSome ∨ lost x → t.failure.isSome)

section Rules
variable {may : Halt ε → Prop} {post : α → Prop}

theorem blames_pure {lost : α → Prop} (result : post x) (found : ¬lost x) :
    Blames holds ok post lost (pure x : SearchM σ ε V α) := by
  rintro s truthful explained _ _ ⟨⟩
  exact ⟨truthful, explained, result, fun noted => noted.elim id fun gone => absurd gone found⟩

theorem blames_give_up (right : ok why) :
    Blames holds ok (fun _ => True) (fun _ => True) (giveUp why : SearchM σ ε V Unit) := by
  rintro s truthful - _ _ ⟨⟩
  refine ⟨truthful, ?_, trivial, fun _ => rfl⟩
  rintro _ ⟨⟩
  exact right

theorem blames_of_silent {act : SearchM σ ε V α} (ends : Ensures holds may act post)
    (silent : Silent act) : Blames holds ok post (fun _ => False) act := by
  intro s truthful explained x t ran
  have ends := ends s truthful
  have same := silent s
  rw [ran] at ends same
  rw [Explained, same]
  exact ⟨ends.1, explained, ends.2, fun noted => noted.elim id False.elim⟩

/-- What is known of the result of an action may be known from elsewhere. -/
theorem blames_ending {act : SearchM σ ε V α} {lost : α → Prop}
    (blames : Blames holds ok (fun _ => True) lost act) (ends : Ensures holds may act post) :
    Blames holds ok post lost act := by
  intro s truthful explained x t ran
  obtain ⟨kept, still, -, noted⟩ := blames s truthful explained x t ran
  have result := (ends s truthful).2
  rw [ran] at result
  exact ⟨kept, still, result, noted⟩

theorem blames_mono {act : SearchM σ ε V α} {lost fewer : α → Prop}
    (blames : Blames holds ok post lost act) (within : ∀ x, fewer x → lost x) :
    Blames holds ok post fewer act := by
  intro s truthful explained x t ran
  obtain ⟨kept, still, result, noted⟩ := blames s truthful explained x t ran
  exact ⟨kept, still, result, fun h => noted (h.imp_right (within x))⟩

/-- Where the first action was lost already, the second one has nothing more to note. -/
theorem blames_bind {act : SearchM σ ε V α} {next : α → SearchM σ ε V β} {mid begun : α → Prop}
    {post lost : β → Prop} (first : Blames holds ok mid begun act)
    (rest : ∀ x, mid x → Blames holds ok post (fun y => ¬begun x ∧ lost y) (next x)) :
    Blames holds ok post lost (act >>= next) := by
  intro s truthful explained y u ran
  rw [bind_run] at ran
  rcases middle : act s with ⟨halt | x, t⟩ <;> rw [middle] at ran
  · cases ran
  · obtain ⟨kept, still, known, noted⟩ := first s truthful explained x t middle
    obtain ⟨kept, still, result, found⟩ := rest x known t kept still y u ran
    refine ⟨kept, still, result, fun h => ?_⟩
    by_cases gone : begun x
    · exact found (.inl (noted (.inr gone)))
    · exact found (h.imp (fun before => noted (.inl before)) fun out => ⟨gone, out⟩)

/-- Whatever is returned after giving up. -/
theorem blames_dead {lost : α → Prop} (right : ok why) (result : post x) :
    Blames holds ok post lost (do giveUp why; return x : SearchM σ ε V α) := by
  apply blames_bind (blames_give_up right)
  intro _ _
  exact blames_pure result (by simp)

/-- A search among candidates has noted a reason when none of them, but at least one, failed. -/
theorem blames_find_some {look : α → SearchM σ ε V (Option β)} {xs : List α}
    (looks : ∀ x ∈ xs, Blames holds ok (fun _ => True) (· = none) (look x)) :
    Blames holds ok (fun _ => True) (fun r => xs ≠ [] ∧ r = none) (xs.findSomeM? look) := by
  induction xs with
  | nil => exact blames_pure trivial (by simp)
  | cons x xs ih =>
    apply blames_bind (looks x List.mem_cons_self)
    rintro (_ | y) -
    · have rest := ih fun y mem => looks y (List.mem_cons_of_mem x mem)
      exact blames_mono rest fun r h => absurd rfl h.1
    · exact blames_pure trivial (by simp)

/-- So has a walk over alternatives, at least one, when it comes to a bad end. -/
theorem blames_try_each (bad : β → Prop) {f : α → β → SearchM σ ε V (ForInStep β)} {xs : List α}
    (steps : ∀ x ∈ xs, ∀ acc, Blames holds ok (fun _ => True) (bad ·.value) (f x acc)) (acc : β) :
    Blames holds ok (fun _ => True) (fun r => xs ≠ [] ∧ bad r.value) (tryEach f xs acc) := by
  induction xs generalizing acc with
  | nil => exact blames_pure trivial (by simp)
  | cons x xs ih =>
    apply blames_bind (steps x List.mem_cons_self acc)
    rintro (acc | acc) -
    · exact blames_pure trivial (by simp)
    · have rest := ih (fun y mem => steps y (List.mem_cons_of_mem x mem)) acc
      cases xs with
      | nil => exact blames_pure trivial (by simp)
      | cons y ys => exact blames_mono rest fun r h => ⟨List.cons_ne_nil y ys, h.2.2⟩

end Rules

section Run
variable {oracle : Oracle σ ε V} {may : Halt ε → Prop} (reliable : Reliable oracle holds may)
include reliable

theorem round_blames {atoms : List (Atom V)}
    (right : ∀ a ∈ atoms, ∀ v ∈ a.vars, ok (.emptyDomain v a.origin)) (c : Candidates V) :
    Blames holds ok (fun _ => True) (· = .dead) (Solver.round oracle atoms c) := by
  induction atoms generalizing c with
  | nil => exact blames_pure trivial (by simp)
  | cons a rest ih =>
    have later := ih fun b mem => right b (List.mem_cons_of_mem a mem)
    apply blames_bind
      (blames_of_silent (apply_atom_computes reliable c a) (silent_apply_atom oracle c a))
    intro effect computed
    cases effect with
    | unchanged => exact blames_mono (later c) fun r h => h.2
    | tightened d tighter =>
      apply blames_bind (later d)
      rintro (_ | ⟨e, further⟩ | _) - <;> exact blames_pure trivial (by simp [Round.after])
    | emptied v =>
      have mentioned := atom_effect_emptied computed.symm
      exact blames_dead (right a List.mem_cons_self v mentioned) trivial

theorem propagate_blames {atoms : List (Atom V)}
    (right : ∀ a ∈ atoms, ∀ v ∈ a.vars, ok (.emptyDomain v a.origin)) (c : Candidates V) :
    Blames holds ok (· = settle holds atoms c) (· = none) (propagate oracle atoms c) := by
  refine blames_ending ?_ (propagate_computes reliable atoms c)
  rw [propagate]
  apply blames_bind (round_blames reliable right c)
  intro result _
  cases result with
  | settled => exact blames_pure trivial (by simp)
  | dead => exact blames_pure trivial (by simp)
  | moved d tighter =>
    apply blames_bind (propagate_blames right d)
    rintro (_ | e) - <;> exact blames_pure trivial (by simp)
termination_by (c.free, c.total)
decreasing_by exact tighter.decreases

theorem label_blames (unlimited : limit = 0 ∨ may (.tooManyBranches limit)) {atoms : List (Atom V)}
    (right : ∀ a ∈ atoms, ∀ v ∈ a.vars, ok (.emptyDomain v a.origin)) (vars : List VarId)
    (c : Candidates V) :
    Blames holds ok (fun _ => True) (· = none) (label oracle limit atoms vars c) := by
  rw [label]
  cases undecided? c vars with
  | none => exact blames_pure trivial (by simp)
  | some u =>
    apply blames_bind (blames_of_silent (ensures_charge unlimited _) (silent_charge _ _))
    intro _ _
    have several : u.values ≠ [] := List.ne_nil_of_length_pos (by have := u.several; omega)
    refine blames_mono (blames_find_some fun value _ => ?_) fun r h => ⟨several, h.2⟩
    apply blames_bind (propagate_blames reliable right _)
    rintro (_ | ⟨d, reached⟩) -
    · exact blames_pure trivial (by simp)
    · exact blames_mono (label_blames unlimited right vars d) fun r h => h.2
termination_by (c.free, c.total)
decreasing_by exact (u.tighter reached).decreases

theorem complete_blames (unlimited : limit = 0 ∨ may (.tooManyBranches limit)) {b : Branch V}
    (right : ∀ a ∈ b.atoms, ∀ v ∈ a.vars, ok (.emptyDomain v a.origin))
    (missing : ∀ v ∈ b.vars, b.candidates.get? v = none →
      ok (.unconstrained v ((b.atoms.find? (·.mentions v)).bind Atom.origin))) :
    Blames holds ok (fun _ => True) (· = none) (complete oracle limit b) := by
  unfold complete
  split
  · next v found =>
    have without := List.find?_some found
    rw [Option.isNone_iff_eq_none] at without
    exact blames_dead (missing v (List.mem_of_find?_eq_some found) without) trivial
  · exact label_blames reliable unlimited right b.vars b.candidates

/-- A walk visits what collecting the choices leads to, and gives up only because of the
constraints and the contradictions that it comes to. -/
theorem explore_blames (unlimited : limit = 0 ∨ may (.tooManyBranches limit)) (bad : β → Prop)
    {visit : Branch V → β → SearchM σ ε V (ForInStep β)} (pending : List (Equation V))
    (b : Branch V) (acc : β)
    (right : ∀ a ∈ b.atoms ++ pending.flatMap Equation.atoms, ∀ v ∈ a.vars,
      ok (.emptyDomain v a.origin))
    (contradicted : ∀ e ∈ pending, e.Contradictory → ok .contradiction)
    (visits : ∀ choice ∈ Equation.choicesOfAll pending, ∀ r, collect holds b choice = some r →
      ∀ acc, Blames holds ok (fun _ => True) (bad ·.value) (visit r acc)) :
    Blames holds ok (fun _ => True) (bad ·.value) (explore oracle limit visit pending b acc) := by
  have under {es rest : List (Equation V)}
      (contradicted : ∀ f ∈ Equation.or es :: rest, f.Contradictory → ok .contradiction) :
      ∀ e ∈ es, ∀ f ∈ e :: rest, f.Contradictory → ok .contradiction := by
    intro e here f mem contradictory
    rcases List.mem_cons.1 mem with rfl | later
    · exact contradicted _ List.mem_cons_self (Equation.contradictory_or here contradictory)
    · exact contradicted f (List.mem_cons_of_mem _ later) contradictory
  induction pending, b, acc using explore.induct with
  | case1 b acc =>
    rw [explore]
    exact visits [] (by simp [Equation.choicesOfAll]) b rfl acc
  | case2 b acc rest ih =>
    rw [explore]
    apply ih
    · simpa [Equation.atoms] using right
    · exact fun e mem => contradicted e (List.mem_cons_of_mem _ mem)
    · simpa [Equation.choicesOfAll, Equation.choices] using visits
  | case3 b acc rest =>
    rw [explore]
    exact blames_dead (contradicted .never List.mem_cons_self (.inl (.whole _))) trivial
  | case4 b acc rest =>
    rw [explore]
    exact blames_dead (contradicted (.or []) List.mem_cons_self (.inr (.whole _))) trivial
  | case5 b acc a rest atoms ih =>
    rw [explore]
    have right : ∀ a ∈ atoms ++ rest.flatMap Equation.atoms, ∀ v ∈ a.vars,
        ok (.emptyDomain v a.origin) := by
      simpa [atoms, Equation.atoms] using right
    apply blames_bind (propagate_blames reliable
      (fun a mem => right a (List.mem_append_left _ mem)) b.candidates)
    rintro (_ | ⟨candidates, reached⟩) settled
    · exact blames_pure trivial (by simp)
    · have later : ∀ e ∈ rest, e.Contradictory → ok .contradiction := fun e mem =>
        contradicted e (List.mem_cons_of_mem _ mem)
      refine blames_mono (ih candidates right later fun choice mem r ran => ?_) fun r h => h.2
      apply visits (a :: choice)
      · rw [Equation.choices_of_all_atom]
        exact List.mem_map_of_mem mem
      · rw [collect, ← settled]
        exact ran
  | case6 b acc es rest ih =>
    rw [explore]
    apply ih
    · simpa [Equation.atoms] using right
    · intro e mem contradictory
      rcases List.mem_append.1 mem with here | later
      · exact contradicted _ List.mem_cons_self (Equation.contradictory_and here contradictory)
      · exact contradicted e (List.mem_cons_of_mem _ later) contradictory
    · rwa [Equation.choices_of_all_and] at visits
  | case7 b acc e rest ih =>
    rw [explore]
    apply ih
    · simpa [Equation.atoms] using right
    · exact under contradicted e List.mem_cons_self
    · simpa [Equation.choices_of_all_or] using visits
  | case8 b acc es rest several one ih =>
    rw [explore]
    · apply blames_bind (blames_of_silent (ensures_charge unlimited _) (silent_charge _ _))
      intro _ _
      refine blames_mono (blames_try_each bad (fun e _ acc => ?_) acc) fun r h => ⟨?_, h.2⟩
      · apply ih acc e.1 e.2
        · intro a mem
          apply right a
          simp only [List.mem_append, List.flatMap_cons, Equation.atoms, List.mem_flatMap] at mem ⊢
          rcases mem with before | here | later
          · exact .inl before
          · exact .inr (.inl ⟨e.1, e.2, here⟩)
          · exact .inr (.inr later)
        · exact under contradicted e.1 e.2
        · intro choice mem
          apply visits choice
          rw [Equation.choices_of_all_or]
          exact List.mem_flatMap.2 ⟨e.1, e.2, mem⟩
      · simpa using several
    all_goals first | exact several | exact one

end Run

end Solver

/-! ## The reason that is reported -/

section Solve
variable [DecidableEq V] [Hashable V] {oracle : Oracle σ ε V} {e : Equation V}
  {bound : List (VarId × V)} {holds : Query V → Bool} {may : Halt ε → Prop}

omit [Hashable V] in
/-- A variable without candidates on the branch of a choice was never sure to get any. -/
theorem explains_missing {b : Branch V} (chosen : choice ∈ e.choices)
    (ran : collect holds (e.start bound) choice = some b) (mem : v ∈ b.vars)
    (missing : b.candidates.get? v = none) :
    e.Explains bound (.unconstrained v ((b.atoms.find? (·.mentions v)).bind Atom.origin)) := by
  have done := propagated_of_collect chosen ran
  rw [done.vars_eq] at mem
  refine ⟨choice, chosen, fun reached => ?_, ?_⟩
  · obtain ⟨xs, held⟩ := (done.known_iff chosen (List.mem_filter.1 mem).1).2 reached
    rw [missing] at held
    cases held
  · rw [done.atoms]
    exact first_mention_of_find ((mem_vars_of_iff chosen).1 mem)

theorem walk_first_blames (reliable : Reliable oracle holds may)
    (unlimited : limit = 0 ∨ may (.tooManyBranches limit)) :
    Blames holds (e.Explains bound) (fun _ => True) (·.value = none)
      (explore oracle limit (Equation.visitFirst oracle limit) [e] (e.start bound) none) := by
  have emptied : ∀ a ∈ e.atoms, ∀ v ∈ a.vars, e.Explains bound (.emptyDomain v a.origin) :=
    fun a mem v mentioned => ⟨a, mem, mentioned, rfl⟩
  apply explore_blames reliable unlimited (· = none)
  · simpa [Equation.start] using emptied
  · intro f mem contradictory
    rw [List.mem_singleton.1 mem] at contradictory
    exact contradictory
  · intro choice chosen b ran acc
    rw [Equation.choices_of_all_singleton] at chosen
    have atoms : b.atoms = choice := collect_atoms ran
    have right : ∀ a ∈ b.atoms, ∀ v ∈ a.vars, e.Explains bound (.emptyDomain v a.origin) := by
      intro a mem
      exact emptied a (Equation.mem_atoms_of_choice chosen (atoms ▸ mem))
    have completes := complete_blames reliable unlimited right fun v => explains_missing chosen ran
    apply blames_bind completes
    rintro (_ | c) - <;> exact blames_pure trivial (by simp)

/-- The outcome of a solve whose walk came to an end. -/
theorem solve_of_walk {s t : Search σ V} {found : ForInStep (Option (Assignment V))}
    (walked : explore oracle limit (Equation.visitFirst oracle limit) [e] (e.start bound) none s =
      (.ok found, t)) :
    Equation.solveM oracle limit e bound s =
      (.ok (match found.value with
        | some values => .solved values
        | none => .failed (t.failure.getD .contradiction)), t) := by
  rw [Equation.solveM, bind_run, walked]
  dsimp only
  cases found.value <;> rfl

/-- A failed solve is explained. Whatever it fails with was noted during the search. If a
variable is said to have no candidate left, a constraint of the equation mentions it and was
written where the failure says. If nothing gave a variable candidates, some choice mentions it,
but there it is not bound, has no domain, and no equalities lead to it from a variable that is
or has; the failure says where the first constraint of the choice that mentions it was written.
If there was a contradiction, the equation contains one. -/
theorem failed_solve_explained {config : SolverConfig}
    (failed : (e.solve oracle config bound world).1 = .ok (.failed why)) :
    (Equation.solveM oracle config.maxBranches e bound (.start world)).2.failure = some why ∧
      e.Explains bound why := by
  obtain ⟨holds, same, abreast⟩ := e.run_as_fixed oracle config.maxBranches bound world
  have reliable : Reliable (corrected holds oracle) holds fun _ => True :=
    reliable_of_fixed (answer_of_corrected holds oracle)
  have result : (Equation.solveM oracle config.maxBranches e bound (.start world)).1 =
      .ok (.failed why) := failed
  rw [← same] at result
  rw [← abreast.failure]
  rcases walked : explore (corrected holds oracle) config.maxBranches
    (Equation.visitFirst (corrected holds oracle) config.maxBranches) [e] (e.start bound) none
    (.start world) with ⟨halt | found, t⟩
  · rw [Equation.solveM, bind_run, walked] at result
    cases result
  · have fresh : Explained (e.Explains bound) (.start world : Search _ V) := by rintro _ ⟨⟩
    obtain ⟨-, explained, -, noted⟩ :=
      walk_first_blames reliable (.inr trivial) _ (truthful_start world) fresh found t walked
    rw [solve_of_walk walked] at result ⊢
    cases value : found.value with
    | some values => simp [value] at result
    | none =>
      obtain ⟨reason, recorded⟩ := Option.isSome_iff_exists.1 (noted (.inr value))
      have reported : reason = why := by simpa [value, recorded] using result
      rw [← reported]
      exact ⟨recorded, explained _ recorded⟩

end Solve

/-- Two variables are to be equal and a filter is put on one of them, but nothing gives either
of them candidates. The equality is the first to mention the variable that is reported. -/
theorem failed_solve_explained_of_equality :
    let site : Site := .at "rules" 3 5
    let e : Equation Nat :=
      .and [.atom (.bind ⟨0⟩ ⟨1⟩ none (some site)), .atom (.predicate ⟨0⟩ ⟨0⟩ none)]
    let oracle : Oracle Unit Unit Nat := answering fun _ => true
    let why : Inconsistency := .unconstrained ⟨0⟩ (some site)
    (e.solve oracle ⟨0⟩ [] ()).1 = .ok (.failed why) ∧
      (e.solveM oracle 0 [] (.start ())).2.failure = some why ∧ e.Explains [] why := by
  intro site e oracle why
  let equality : Atom Nat := .bind ⟨0⟩ ⟨1⟩ none (some site)
  let filter : Atom Nat := .predicate ⟨0⟩ ⟨0⟩ none
  let c : Candidates Nat := .unknown [⟨0⟩, ⟨1⟩]
  have start : e.start [] = ⟨[], c⟩ := by
    simp [e, Equation.start, Equation.vars, Equation.atoms, Atom.vars, List.eraseDups_cons, c]
  have unknown (v : VarId) : c.get? v = none := by simp [c, Candidates.unknown, Candidates.get?]
  have vars : Branch.vars ⟨[equality, filter], c⟩ = [⟨0⟩, ⟨1⟩] := by
    rw [Branch.vars_eq]
    simp [equality, filter, Atom.mentions, Atom.vars, c, Candidates.unknown]
  have waiting : Solver.round oracle [equality] c = pure .settled := by
    simp [equality, Solver.round, applyAtom, applyBind, unknown]
  have both : Solver.round oracle [equality, filter] c = pure .settled := by
    simp [equality, filter, Solver.round, applyAtom, applyBind, unknown]
  have walked : explore oracle 0 (Equation.visitFirst oracle 0) [e] (e.start []) none =
      (do giveUp why; return .yield none) := by
    rw [start, explore]
    show explore _ _ _ [.atom equality, .atom filter] ⟨[], c⟩ none = _
    rw [explore]
    show (propagate oracle [equality] c >>= _) = _
    rw [propagate_settled waiting, pure_bind]
    show explore _ _ _ [.atom filter] ⟨[equality], c⟩ none = _
    rw [explore]
    show (propagate oracle [equality, filter] c >>= _) = _
    rw [propagate_settled both, pure_bind]
    show explore _ _ _ [] ⟨[equality, filter], c⟩ none = _
    rw [explore, Equation.visitFirst, complete, vars, List.find?_cons, unknown]
    rfl
  have failed : (e.solve oracle ⟨0⟩ [] ()).1 = .ok (.failed why) := by
    unfold Equation.solve Equation.solveM
    rw [walked]
    rfl
  exact ⟨failed, failed_solve_explained failed⟩

end Trellis
