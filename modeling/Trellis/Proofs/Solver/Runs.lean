import Trellis.Proofs.Solver.Reading
import Trellis.Proofs.Solver.Simulation

/-! Runs of the solver compute its reading. A run may halt, because the oracle
fails or the budget is used up; as long as every answer it gets is the fixed
one, a result that it does give is the one the reading names. The answers kept
during a run are the invariant: they stay the fixed ones. -/
namespace Trellis.Solver

/-- Whoever answers says what is so, and fails only for allowed reasons. -/
def Reliable (oracle : Oracle σ ε V) (holds : Query V → Bool) (may : Halt ε → Prop) : Prop :=
  ∀ q world, match (oracle q world).1 with
    | .ok b => b = holds q
    | .error e => may (.predicate e)

/-- An oracle that answers every question and does nothing else. -/
def answering (holds : Query V → Bool) : Oracle σ ε V := fun q world => (.ok (holds q), world)

theorem answering_answers (holds : Query V → Bool) (q : Query V) (world : σ) :
    (answering holds q world : Except ε Bool × σ).1 = .ok (holds q) := rfl

/-- Whatever the oracle answers is what `holds` says. -/
theorem reliable_of_fixed {oracle : Oracle σ ε V}
    (fixed : ∀ q world b, (oracle q world).1 = .ok b → b = holds q) :
    Reliable oracle holds fun _ => True := by
  intro q world
  split
  · next b answered => exact fixed q world b answered
  · trivial

theorem reliable_of_answers {oracle : Oracle σ ε V}
    (answers : ∀ q world, (oracle q world).1 = .ok (holds q)) :
    Reliable oracle holds fun _ => False := by
  intro q world
  rw [answers q world]

variable [DecidableEq V] [Hashable V]

/-- Every answer kept so far is the fixed one. -/
def Truthful (holds : Query V → Bool) (s : Search σ V) : Prop :=
  ∀ q b, s.answers[q]? = some b → b = holds q

theorem truthful_start (world : σ) : Truthful holds (.start world : Search σ V) :=
  fun q b known => by simp [Search.start] at known

/-- From a state with the right answers an action ends in one, and its result is
as `post` says unless it halts for a reason that `may` allows. -/
def Ensures (holds : Query V → Bool) (may : Halt ε → Prop) (act : SearchM σ ε V α)
    (post : α → Prop) : Prop :=
  ∀ s, Truthful holds s → Truthful holds (act s).2 ∧
    match (act s).1 with
    | .ok x => post x
    | .error halt => may halt

section Rules
variable {holds : Query V → Bool} {may : Halt ε → Prop}

theorem ensures_pure {post : α → Prop} (h : post x) :
    Ensures holds may (pure x : SearchM σ ε V α) post :=
  fun _ right => ⟨right, h⟩

theorem ensures_bind {act : SearchM σ ε V α} {next : α → SearchM σ ε V β} {post : β → Prop}
    (first : Ensures holds may act mid) (rest : ∀ x, mid x → Ensures holds may (next x) post) :
    Ensures holds may (act >>= next) post := by
  intro s right
  obtain ⟨kept, result⟩ := first s right
  rw [bind_run]
  rcases ran : act s with ⟨halt | x, s'⟩ <;> simp only [ran] at kept result ⊢
  · exact ⟨kept, result⟩
  · exact rest x result s' kept

theorem ensures_mono {act : SearchM σ ε V α} {post weaker : α → Prop}
    (first : Ensures holds may act post) (implies : ∀ x, post x → weaker x) :
    Ensures holds may act weaker := by
  intro s right
  obtain ⟨kept, result⟩ := first s right
  refine ⟨kept, ?_⟩
  split at result
  · exact implies _ result
  · exact result

theorem ensures_get :
    Ensures holds may (get : SearchM σ ε V (Search σ V)) fun _ => True :=
  fun _ right => ⟨right, trivial⟩

theorem ensures_give_up (why : Inconsistency) :
    Ensures holds may (giveUp why : SearchM σ ε V Unit) fun _ => True :=
  fun _ right => ⟨right, trivial⟩

theorem ensures_charge (allowed : limit = 0 ∨ may (.tooManyBranches limit)) (extra : Nat) :
    Ensures holds may (charge limit extra : SearchM σ ε V Unit) fun _ => True := by
  intro s right
  simp only [charge]
  split
  · next spent => exact ⟨right, allowed.resolve_left (by omega)⟩
  · exact ⟨right, trivial⟩

theorem ensures_ask {oracle : Oracle σ ε V} (reliable : Reliable oracle holds may) (q : Query V) :
    Ensures holds may (ask oracle q) (· = holds q) := by
  intro s right
  simp only [ask]
  split
  · next known found => exact ⟨right, right q known found⟩
  · have answer := reliable q s.world
    split
    · next b world asked =>
      simp only [asked] at answer
      refine ⟨fun r known found => ?_, answer⟩
      rw [Std.HashMap.getElem?_insert] at found
      split at found
      · next same => rw [← eq_of_beq same]; exact (Option.some.inj found).symm.trans answer
      · exact right r known found
    · next e world asked =>
      simp only [asked] at answer
      exact ⟨right, answer⟩

theorem ensures_keep_if {test : α → SearchM σ ε V Bool} {pass : α → Bool}
    (tests : ∀ x, Ensures holds may (test x) (· = pass x)) (xs : List α) :
    Ensures holds may (keepIf test xs) (· = xs.filter pass) := by
  induction xs with
  | nil => exact ensures_pure rfl
  | cons x xs ih =>
    refine ensures_bind (tests x) ?_
    rintro _ rfl
    refine ensures_bind ih ?_
    rintro _ rfl
    exact ensures_pure (List.filter_cons ..).symm

theorem ensures_any {test : α → SearchM σ ε V Bool} {pass : α → Bool}
    (tests : ∀ x, Ensures holds may (test x) (· = pass x)) (xs : List α) :
    Ensures holds may (xs.anyM test) (· = xs.any pass) := by
  induction xs with
  | nil => exact ensures_pure rfl
  | cons x xs ih =>
    refine ensures_bind (tests x) ?_
    rintro _ rfl
    rw [List.any_cons]
    cases pass x with
    | true => exact ensures_pure rfl
    | false => exact ih

theorem ensures_find_some {look : α → SearchM σ ε V (Option β)} {found : α → Option β}
    (xs : List α) (looks : ∀ x ∈ xs, Ensures holds may (look x) (· = found x)) :
    Ensures holds may (xs.findSomeM? look) (· = xs.findSome? found) := by
  induction xs with
  | nil => exact ensures_pure rfl
  | cons x xs ih =>
    refine ensures_bind (looks x List.mem_cons_self) ?_
    rintro _ rfl
    rw [List.findSome?_cons]
    cases found x with
    | some y => exact ensures_pure rfl
    | none => exact ih fun x mem => looks x (List.mem_cons_of_mem _ mem)

/-- Fold over alternatives until one of them says it is done. -/
def walk (step : α → β → ForInStep β) : List α → β → ForInStep β
  | [], acc => .yield acc
  | x :: xs, acc =>
    match step x acc with
    | .done acc => .done acc
    | .yield acc => walk step xs acc

theorem walk_append (step : α → β → ForInStep β) (xs ys : List α) (acc : β) :
    walk step (xs ++ ys) acc = match walk step xs acc with
      | .done acc => .done acc
      | .yield acc => walk step ys acc := by
  induction xs generalizing acc with
  | nil => rfl
  | cons x xs ih =>
    simp only [List.cons_append, walk]
    cases step x acc with
    | done acc => rfl
    | yield acc => exact ih acc

theorem walk_flat_map (step : α → β → ForInStep β) (f : γ → List α) (xs : List γ) (acc : β) :
    walk step (xs.flatMap f) acc = walk (fun x acc => walk step (f x) acc) xs acc := by
  induction xs generalizing acc with
  | nil => rfl
  | cons x xs ih =>
    rw [List.flatMap_cons, walk_append, walk]
    cases walk step (f x) acc with
    | done acc => rfl
    | yield acc => exact ih acc

theorem walk_map (step : α → β → ForInStep β) (f : γ → α) (xs : List γ) (acc : β) :
    walk step (xs.map f) acc = walk (fun x => step (f x)) xs acc := by
  induction xs generalizing acc with
  | nil => rfl
  | cons x xs ih =>
    simp only [List.map_cons, walk]
    cases step (f x) acc with
    | done acc => rfl
    | yield acc => exact ih acc

theorem ensures_try_each {f : α → β → SearchM σ ε V (ForInStep β)} {step : α → β → ForInStep β}
    (steps : ∀ x acc, Ensures holds may (f x acc) (· = step x acc)) (xs : List α) (acc : β) :
    Ensures holds may (tryEach f xs acc) (· = walk step xs acc) := by
  induction xs generalizing acc with
  | nil => exact ensures_pure rfl
  | cons x xs ih =>
    refine ensures_bind (steps x acc) ?_
    rintro _ rfl
    rw [walk]
    cases step x acc with
    | done acc => exact ensures_pure rfl
    | yield acc => exact ih acc

end Rules

section Computes
variable {oracle : Oracle σ ε V} {holds : Query V → Bool} {may : Halt ε → Prop}
  (reliable : Reliable oracle holds may)
include reliable

theorem supported_computes (relation : Option PredId) (xs ys : List V) :
    Ensures holds may (supported oracle relation xs ys) (· = kept holds relation xs ys) := by
  cases relation with
  | none =>
    refine ensures_pure ?_
    have left (x : V) : ys.contains x = ys.any fun y => related holds none x y := by
      rw [List.contains_eq_any_beq]; rfl
    have right (xs : List V) (y : V) : xs.contains y = xs.any fun x => related holds none x y := by
      rw [List.contains_eq_any_beq]
      exact congrArg xs.any (funext fun x => BEq.comm)
    simp only [kept, left, right]
  | some p =>
    have asked (x y : V) := ensures_ask reliable (.binary p x y)
    refine ensures_bind (ensures_keep_if (fun x => ensures_any (asked x) ys) xs) ?_
    rintro _ rfl
    refine ensures_bind (ensures_keep_if (fun y => ensures_any (fun x => asked x y) _) ys) ?_
    rintro _ rfl
    exact ensures_pure rfl

theorem apply_bind_computes (c : Candidates V) (a b : VarId) (relation : Option PredId) :
    Ensures holds may (applyBind oracle c a b relation) (· = bindEffect holds c a b relation) := by
  unfold applyBind bindEffect
  cases c.get? a with
  | none => cases c.get? b <;> exact ensures_pure rfl
  | some xs =>
    cases c.get? b with
    | none => exact ensures_pure rfl
    | some ys =>
      refine ensures_bind (supported_computes reliable relation xs ys) ?_
      rintro _ rfl
      exact ensures_pure rfl

theorem apply_atom_computes (c : Candidates V) (a : Atom V) :
    Ensures holds may (applyAtom oracle c a) (· = atomEffect holds c a) := by
  cases a with
  | domain v values origin => exact ensures_pure rfl
  | predicate v p origin =>
    simp only [applyAtom, atomEffect]
    cases c.get? v with
    | none => exact ensures_pure rfl
    | some current =>
      refine ensures_bind (ensures_keep_if (fun x => ensures_ask reliable (.unary p x)) current) ?_
      rintro _ rfl
      exact ensures_pure rfl
  | bind a b relation origin =>
    simp only [applyAtom, atomEffect]
    split
    · cases relation with
      | none => exact ensures_pure rfl
      | some p =>
        cases c.get? a with
        | none => exact ensures_pure rfl
        | some current =>
          refine ensures_bind
            (ensures_keep_if (fun x => ensures_ask reliable (.binary p x x)) current) ?_
          rintro _ rfl
          exact ensures_pure rfl
    · exact apply_bind_computes reliable c a b relation

theorem round_computes (atoms : List (Atom V)) (c : Candidates V) :
    Ensures holds may (round oracle atoms c) (· = sweep holds atoms c) := by
  induction atoms generalizing c with
  | nil => exact ensures_pure rfl
  | cons a rest ih =>
    refine ensures_bind (apply_atom_computes reliable c a) ?_
    rintro _ rfl
    rw [sweep]
    cases atomEffect holds c a with
    | unchanged => exact ih c
    | tightened d tighter =>
      refine ensures_bind (ih d) ?_
      rintro _ rfl
      exact ensures_pure rfl
    | emptied v => exact ensures_bind (ensures_give_up _) fun _ _ => ensures_pure rfl

theorem propagate_computes (atoms : List (Atom V)) (c : Candidates V) :
    Ensures holds may (propagate oracle atoms c) (· = settle holds atoms c) := by
  rw [propagate, settle]
  refine ensures_bind (round_computes reliable atoms c) ?_
  rintro _ rfl
  cases sweep holds atoms c with
  | settled => exact ensures_pure rfl
  | dead => exact ensures_pure rfl
  | moved d tighter =>
    refine ensures_bind (propagate_computes atoms d) ?_
    rintro _ rfl
    exact ensures_pure rfl
termination_by (c.free, c.total)
decreasing_by exact tighter.decreases

theorem label_computes (unlimited : limit = 0 ∨ may (.tooManyBranches limit))
    (atoms : List (Atom V)) (vars : List VarId) (c : Candidates V) :
    Ensures holds may (label oracle limit atoms vars c) (· = labelled holds atoms vars c) := by
  rw [label, labelled]
  cases undecided? c vars with
  | none => exact ensures_pure rfl
  | some u =>
    refine ensures_bind (ensures_charge unlimited _) fun _ _ => ?_
    refine ensures_find_some u.values fun value _ => ?_
    refine ensures_bind (propagate_computes reliable atoms _) ?_
    rintro _ rfl
    rcases settle holds atoms _ with _ | ⟨d, reached⟩
    · exact ensures_pure rfl
    · exact label_computes unlimited atoms vars d
termination_by (c.free, c.total)
decreasing_by exact (u.tighter reached).decreases

theorem complete_computes (unlimited : limit = 0 ∨ may (.tooManyBranches limit)) (b : Branch V) :
    Ensures holds may (complete oracle limit b) (· = completed holds b) := by
  unfold complete completed
  split
  · next v found =>
    have unknown : (b.candidates.get? v).isNone = true :=
      List.find?_some (p := fun v => (b.candidates.get? v).isNone) found
    have open_ : (b.vars.any fun v => (b.candidates.get? v).isNone) = true :=
      List.any_eq_true.2 ⟨v, List.mem_of_find?_eq_some found, unknown⟩
    rw [if_pos open_]
    exact ensures_bind (ensures_give_up _) fun _ _ => ensures_pure rfl
  · next none =>
    have closed : ¬(b.vars.any fun v => (b.candidates.get? v).isNone) = true := by
      rw [List.any_eq_true]
      rintro ⟨v, mem, unknown⟩
      exact List.find?_eq_none.1 none v mem unknown
    rw [if_neg closed]
    exact label_computes reliable unlimited b.atoms b.vars b.candidates

/-- The walk meets the branches of all choices, in the order of the choices,
apart from those that lose all candidates of a variable on the way. -/
theorem explore_computes {visit : Branch V → β → SearchM σ ε V (ForInStep β)}
    {step : Branch V → β → ForInStep β} (unlimited : limit = 0 ∨ may (.tooManyBranches limit))
    (visits : ∀ b acc, Ensures holds may (visit b acc) (· = step b acc))
    (pending : List (Equation V)) (b : Branch V) (acc : β) :
    Ensures holds may (explore oracle limit visit pending b acc)
      (· = walk step ((Equation.choicesOfAll pending).filterMap (collect holds b)) acc) := by
  induction pending, b, acc using explore.induct with
  | case1 b acc =>
    rw [explore]
    refine ensures_mono (visits b acc) ?_
    rintro _ rfl
    simp only [Equation.choicesOfAll, List.filterMap_cons, List.filterMap_nil, collect, walk]
    cases step b acc <;> rfl
  | case2 b acc rest ih =>
    rw [explore]
    simpa [Equation.choicesOfAll, Equation.choices] using ih
  | case3 b acc rest =>
    rw [explore]
    refine ensures_bind (ensures_give_up _) fun _ _ => ensures_pure ?_
    simp [Equation.choicesOfAll, Equation.choices, walk]
  | case4 b acc rest =>
    rw [explore]
    refine ensures_bind (ensures_give_up _) fun _ _ => ensures_pure ?_
    simp [Equation.choices_of_all_or, walk]
  | case5 b acc a rest atoms ih =>
    rw [explore]
    refine ensures_bind (propagate_computes reliable atoms b.candidates) ?_
    rintro _ rfl
    rw [Equation.choices_of_all_atom, List.filterMap_map]
    have met (choice : List (Atom V)) : (collect holds b ∘ (a :: ·)) choice =
        (settle holds atoms b.candidates).bind fun e => collect holds ⟨atoms, e.1⟩ choice := by
      simp only [Function.comp_apply, collect]
      cases settle holds atoms b.candidates <;> rfl
    rw [funext met]
    rcases settle holds atoms b.candidates with _ | ⟨candidates, reached⟩
    · have lost : (Equation.choicesOfAll rest).filterMap
          (fun _ => (none : Option (Branch V))) = [] := List.filterMap_eq_nil_iff.2 fun _ _ => rfl
      exact ensures_pure (by simp only [Option.bind_none, lost, walk])
    · exact ih candidates
  | case6 b acc es rest ih =>
    rw [explore, Equation.choices_of_all_and]
    exact ih
  | case7 b acc e rest ih =>
    rw [explore, Equation.choices_of_all_or]
    simpa using ih
  | case8 b acc es rest several one ih =>
    rw [explore, Equation.choices_of_all_or, List.filterMap_flatMap, walk_flat_map]
    · refine ensures_bind (ensures_charge unlimited _) fun _ _ => ?_
      refine ensures_mono (ensures_try_each (fun e acc => ih acc e.1 e.2) es.attach acc) ?_
      rintro _ rfl
      have plain := walk_map (fun e acc => walk step
        ((Equation.choicesOfAll (e :: rest)).filterMap (collect holds b)) acc) Subtype.val es.attach
        acc
      rw [List.attach_map_subtype_val] at plain
      exact plain.symm
    · exact several
    · exact one

end Computes

end Trellis.Solver

namespace Trellis
open Solver

/-- The assignment that was found, if one was. -/
def Outcome.values? : Outcome V → Option (Assignment V)
  | solved values => some values
  | failed _ => none

variable [DecidableEq V]

/-- What a branch contributes to solving: its labelling, as an assignment. -/
def Equation.answer (holds : Query V → Bool) (b : Branch V) : Option (Assignment V) :=
  (completed holds b).map (assignment b)

/-- The answer of the first choice that has one. -/
def Equation.firstAnswer (holds : Query V → Bool) (e : Equation V) (bound : List (VarId × V)) :
    Option (Assignment V) :=
  e.choices.findSome? fun choice => (collect holds (e.start bound) choice).bind (answer holds)

/-- Keeping the first answer on the way is looking for it afterwards. -/
private theorem Equation.walk_first (holds : Query V → Bool) (b : Branch V)
    (choices : List (List (Atom V))) :
    (walk (fun b found => match answer holds b with
      | none => .yield found
      | some values => .done (some values)) (choices.filterMap (collect holds b)) none).value =
      choices.findSome? fun choice => (collect holds b choice).bind (answer holds) := by
  induction choices with
  | nil => rfl
  | cons choice rest ih =>
    rw [List.filterMap_cons, List.findSome?_cons]
    cases collect holds b choice with
    | none => exact ih
    | some reached =>
      simp only [walk, Option.bind_some]
      cases answer holds reached with
      | none => exact ih
      | some values => rfl

namespace Equation
variable [Hashable V] {oracle : Oracle σ ε V} {holds : Query V → Bool} {may : Halt ε → Prop}

theorem visit_first_computes (reliable : Reliable oracle holds may)
    (unlimited : limit = 0 ∨ may (.tooManyBranches limit)) (b : Branch V)
    (found : Option (Assignment V)) :
    Ensures holds may (visitFirst oracle limit b found)
      (· = match answer holds b with
        | none => .yield found
        | some values => .done (some values)) := by
  refine ensures_bind (complete_computes reliable unlimited b) ?_
  rintro _ rfl
  unfold answer
  cases completed holds b <;> exact ensures_pure rfl

/-- A run that does not halt has the outcome that the reading names. -/
theorem solve_computes (reliable : Reliable oracle holds may) (config : SolverConfig)
    (unlimited : config.maxBranches = 0 ∨ may (.tooManyBranches config.maxBranches))
    (e : Equation V) (bound : List (VarId × V)) (world : σ) :
    match (e.solve oracle config bound world).1 with
    | .ok outcome => outcome.values? = e.firstAnswer holds bound
    | .error halt => may halt := by
  have run : Ensures holds may (solveM oracle config.maxBranches e bound)
      fun outcome => outcome.values? = e.firstAnswer holds bound := by
    refine ensures_bind (explore_computes reliable unlimited
      (visit_first_computes reliable unlimited) [e] (e.start bound) none) ?_
    rintro _ rfl
    rw [choices_of_all_singleton, walk_first]
    have named : e.choices.findSome?
        (fun choice => (collect holds (e.start bound) choice).bind (answer holds)) =
        e.firstAnswer holds bound := rfl
    rw [named]
    cases e.firstAnswer holds bound with
    | some values => exact ensures_pure rfl
    | none => exact ensures_bind ensures_get fun _ _ => ensures_pure rfl
  have result := (run (.start world) (truthful_start world)).2
  have same : (e.solve oracle config bound world).1 =
    (solveM oracle config.maxBranches e bound (.start world)).1 := rfl
  rw [same]
  cases ran : (solveM oracle config.maxBranches e bound (.start world)).1 <;>
    simpa only [ran] using result

open Classical in
/-- A solve halts only for reasons for which its oracle fails, or because the budget is used
up. Of the oracle nothing needs to be known but what it does in the worlds that the solve can
get to. -/
theorem solve_halts {oracle : Oracle σ ε V} {W : σ → Prop} {may : Halt ε → Prop} (e : Equation V)
    (config : SolverConfig) (bound : List (VarId × V)) (held : W world)
    (keeps : ∀ q world, W world → W (oracle q world).2)
    (fails : ∀ q world cause, W world → (oracle q world).1 = .error cause → may (.predicate cause))
    (limited : config.maxBranches = 0 ∨ may (.tooManyBranches config.maxBranches))
    (halted : (e.solve oracle config bound world).1 = .error halt) : may halt := by
  -- In other worlds the oracle may fail for other reasons; this one does not.
  let strict : Oracle σ ε V := fun q world => if W world then oracle q world else (.ok false, world)
  have inside (q : Query V) (world : σ) (there : W world) : strict q world = oracle q world :=
    if_pos there
  have echoes (q : Query V) :
      Echoes (fun _ _ => True) (fun _ world world' => W world ∧ world' = world) oracle strict
        q := by
    rintro world answers - -
    refine ⟨trivial, ?_⟩
    rintro _ ⟨there, rfl⟩
    rw [inside q _ there]
    exact ⟨rfl, keeps q _ there, rfl⟩
  have start : W world ∧ world = world := ⟨held, rfl⟩
  obtain ⟨same, -⟩ := e.solve_along (fun _ _ q _ => echoes q) config bound start trivial
  obtain ⟨holds, fixed⟩ := e.solve_as_fixed strict config bound world
  have reliable : Reliable (corrected holds strict) holds may := by
    intro q world
    by_cases there : W world
    · unfold corrected
      rw [inside q world there]
      cases asked : (oracle q world).1 with
      | ok b => rfl
      | error cause => exact fails q world cause there asked
    · have answered : strict q world = (.ok false, world) := if_neg there
      unfold corrected
      rw [answered]
      rfl
  have result := solve_computes reliable config limited e bound world
  rw [fixed, same, halted] at result
  exact result

end Equation
end Trellis
