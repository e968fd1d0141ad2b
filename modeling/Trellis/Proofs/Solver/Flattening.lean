import Trellis.Proofs.Solver.Runs

/-! Building a conjunction or a disjunction takes one level of nesting out of it. For a
conjunction the search cannot tell: it visits the same equations in the same order. A
disjunction without its nesting is one fork in place of several, so that other branches
are paid for, and a contradiction among its operands is not met any more; where there is
no limit nothing else comes of it. An engine that keeps no account of branches and
failures makes that precise: over it the two searches are equal. -/
namespace Trellis

namespace Solver

/-! ## Trying alternatives that are made of alternatives -/

section TryEach
variable [Monad m] [LawfulMonad m] (f : α → β → m (ForInStep β))

theorem try_each_singleton (x : α) (acc : β) : tryEach f [x] acc = f x acc := by
  rw [tryEach, ← bind_pure (f x acc), bind_assoc]
  refine bind_congr fun step => ?_
  rw [pure_bind]
  cases step <;> rfl

theorem try_each_append (xs ys : List α) (acc : β) :
    tryEach f (xs ++ ys) acc = tryEach f xs acc >>= fun
      | .done acc => pure (.done acc)
      | .yield acc => tryEach f ys acc := by
  induction xs generalizing acc with
  | nil => rw [tryEach, pure_bind, List.nil_append]
  | cons x xs ih =>
    rw [List.cons_append, tryEach, tryEach, bind_assoc]
    refine bind_congr fun step => ?_
    cases step with
    | done acc => rw [pure_bind]
    | yield acc => exact ih acc

theorem try_each_flat_map (parts : γ → List α) (xs : List γ) (acc : β) :
    tryEach f (xs.flatMap parts) acc = tryEach (fun x => tryEach f (parts x)) xs acc := by
  induction xs generalizing acc with
  | nil => rfl
  | cons x xs ih =>
    rw [List.flatMap_cons, try_each_append, tryEach]
    refine bind_congr fun step => ?_
    cases step with
    | done acc => rfl
    | yield acc => exact ih acc

omit [LawfulMonad m] in
theorem try_each_map (g : γ → α) (xs : List γ) (acc : β) :
    tryEach f (xs.map g) acc = tryEach (fun x => f (g x)) xs acc := by
  induction xs generalizing acc with
  | nil => rfl
  | cons x xs ih =>
    rw [List.map_cons, tryEach, tryEach]
    refine bind_congr fun step => ?_
    cases step with
    | done acc => rfl
    | yield acc => exact ih acc

end TryEach

/-! ## Conjunctions, for any engine -/

namespace Engine

section Conjunction
variable [Monad m] [DecidableEq V] (E : Engine m V) (visit : Branch V → β → m (ForInStep β))

/-- What is left for later may be replaced by what is searched alike. -/
theorem explore_later {xs ys : List (Equation V)}
    (alike : ∀ b acc, E.explore visit xs b acc = E.explore visit ys b acc)
    (first : List (Equation V)) (b : Branch V) (acc : β) :
    E.explore visit (first ++ xs) b acc = E.explore visit (first ++ ys) b acc := by
  -- The two searches differ only where `first` is used up.
  induction first, b, acc using Solver.explore.induct with
  | case1 b acc => exact alike b acc
  | case2 b acc rest ih => rw [List.cons_append, List.cons_append, explore, explore, ih]
  | case3 b acc rest => rw [List.cons_append, List.cons_append, explore, explore]
  | case4 b acc rest => rw [List.cons_append, List.cons_append, explore, explore]
  | case5 b acc a rest atoms ih =>
    rw [List.cons_append, List.cons_append, explore, explore]
    refine bind_congr fun propagated => ?_
    rcases propagated with _ | ⟨candidates, reached⟩
    · rfl
    · exact ih candidates
  | case6 b acc es rest ih =>
    rw [List.cons_append, List.cons_append, explore, explore, ← List.append_assoc,
      ← List.append_assoc, ih]
  | case7 b acc e rest ih =>
    rw [List.cons_append, List.cons_append, explore, explore]
    exact ih
  | case8 b acc es rest several one ih =>
    rw [List.cons_append, List.cons_append, explore, explore]
    · refine bind_congr fun _ => ?_
      congr 1
      funext e acc
      exact ih acc e.1 e.2
    all_goals first | exact several | exact one

theorem explore_conjuncts (e : Equation V) (rest : List (Equation V)) (b : Branch V) (acc : β) :
    E.explore visit (e.conjuncts ++ rest) b acc = E.explore visit (e :: rest) b acc := by
  cases e with
  | always => rw [explore]; rfl
  | and es => rw [explore]; rfl
  | never | atom _ | or _ => rfl

theorem explore_flattened (es rest : List (Equation V)) (b : Branch V) (acc : β) :
    E.explore visit (es.flatMap Equation.conjuncts ++ rest) b acc =
      E.explore visit (es ++ rest) b acc := by
  induction es generalizing b acc with
  | nil => rfl
  | cons e es ih =>
    rw [List.flatMap_cons, List.append_assoc, explore_conjuncts]
    exact E.explore_later visit ih [e] b acc

theorem explore_all (es : List (Equation V)) (b : Branch V) (acc : β) :
    E.explore visit [Equation.all es] b acc = E.explore visit [.and es] b acc := by
  have flattened := E.explore_flattened visit es [] b acc
  rw [explore, ← flattened, Equation.all]
  split
  · next none => rw [none, explore]; rfl
  · next e one => rw [one]; rfl
  · rw [explore]

end Conjunction

/-! ## Disjunctions, where no account is kept -/

section Disjunction
variable [DecidableEq V] [Hashable V]

/-- Questions are put as by the solver, but nothing is paid, and no failure is noted. -/
def unaccounted (oracle : Oracle σ ε V) : Engine (SearchM σ ε V) V where
  ask := Solver.ask oracle
  charge _ := pure ()
  giveUp _ := pure ()
  leaf := pure ()

variable (oracle : Oracle σ ε V) (visit : Branch V → β → SearchM σ ε V (ForInStep β))

theorem explore_or (es rest : List (Equation V)) (b : Branch V) (acc : β) :
    (unaccounted oracle).explore visit (.or es :: rest) b acc =
      tryEach (fun e => (unaccounted oracle).explore visit (e :: rest) b) es acc := by
  rcases es with _ | ⟨e, _ | ⟨e', es⟩⟩
  · rw [explore, tryEach]
    rfl
  · rw [explore, try_each_singleton]
  · rw [explore]
    · have plain := try_each_map (fun e => (unaccounted oracle).explore visit (e :: rest) b)
        Subtype.val (e :: e' :: es).attach acc
      rw [List.attach_map_subtype_val] at plain
      exact plain.symm
    all_goals simp

theorem explore_disjuncts (e : Equation V) (b : Branch V) (acc : β) :
    tryEach (fun e => (unaccounted oracle).explore visit [e] b) e.disjuncts acc =
      (unaccounted oracle).explore visit [e] b acc := by
  cases e with
  | never => rw [explore]; rfl
  | or es => exact (explore_or oracle visit es [] b acc).symm
  | always | atom _ | and _ => exact try_each_singleton _ _ acc

theorem explore_any (es : List (Equation V)) (b : Branch V) (acc : β) :
    (unaccounted oracle).explore visit [Equation.any es] b acc =
      (unaccounted oracle).explore visit [.or es] b acc := by
  let search (e : Equation V) := (unaccounted oracle).explore visit [e] b
  have flattened : tryEach search (es.flatMap Equation.disjuncts) acc = tryEach search es acc := by
    rw [try_each_flat_map]
    congr 1
    funext e acc
    exact explore_disjuncts oracle visit e b acc
  rw [explore_or, ← flattened, Equation.any]
  split
  · next none => rw [none, explore]; rfl
  · next e one => rw [one, try_each_singleton]
  · rw [explore_or]

end Disjunction
end Engine

/-! ## What accounts leave untouched -/

section Accounts
variable [DecidableEq V] [Hashable V]

/-- Searches that know the same, whatever they paid and met. -/
structure Level (s t : Search σ V) : Prop where
  world : s.world = t.world
  answers : s.answers = t.answers

/-- Searches on a level are on a level afterwards, with the same result. -/
def Matches (act act' : SearchM σ ε V α) : Prop :=
  ∀ s t, Level s t → (act s).1 = (act' t).1 ∧ Level (act s).2 (act' t).2

theorem matches_pure (x : α) : Matches (pure x : SearchM σ ε V α) (pure x) :=
  fun _ _ level => ⟨rfl, level⟩

theorem matches_bind {act act' : SearchM σ ε V α} {next next' : α → SearchM σ ε V β}
    (first : Matches act act') (rest : ∀ x, Matches (next x) (next' x)) :
    Matches (act >>= next) (act' >>= next') := by
  intro s t level
  obtain ⟨same, level⟩ := first s t level
  rw [bind_run, bind_run]
  rcases ran : act s with ⟨halt | x, u⟩ <;> rcases ran' : act' t with ⟨halt' | x', u'⟩ <;>
    rw [ran, ran'] at same level <;> cases same
  · exact ⟨rfl, level⟩
  · exact rest x u u' level

theorem matches_ask (oracle : Oracle σ ε V) (q : Query V) :
    Matches (ask oracle q) (ask oracle q) := by
  intro s t level
  cases known : s.answers[q]? with
  | some b =>
    rw [ask_known known, ask_known (level.answers ▸ known)]
    exact ⟨rfl, level⟩
  | none =>
    rw [ask_new known, ask_new (level.answers ▸ known), level.world, level.answers]
    exact ⟨rfl, rfl, rfl⟩

/-- Without a limit the accounts decide nothing. -/
theorem standard_matches (oracle : Oracle σ ε V) :
    Engine.Related (fun _ => Matches) (.standard oracle 0) (.unaccounted oracle) where
  pure := matches_pure
  bind := matches_bind
  charge _ _ _ level := ⟨rfl, level.world, level.answers⟩
  giveUp _ _ _ level := ⟨rfl, level.world, level.answers⟩
  leaf := matches_pure ()

end Accounts
end Solver

namespace Equation
open Solver

/-- Taking equations apart neither drops nor moves an atom. -/
theorem atoms_of_parts {parts : Equation V → List (Equation V)}
    (same : ∀ e, (parts e).flatMap atoms = e.atoms) (es : List (Equation V)) :
    (es.flatMap parts).flatMap atoms = es.flatMap atoms := by
  rw [List.flatMap_assoc]
  exact congrArg es.flatMap (funext same)

theorem atoms_of_conjuncts (e : Equation V) : e.conjuncts.flatMap atoms = e.atoms := by
  cases e <;> simp [conjuncts, atoms]

theorem atoms_of_disjuncts (e : Equation V) : e.disjuncts.flatMap atoms = e.atoms := by
  cases e <;> simp [disjuncts, atoms]

theorem atoms_all (es : List (Equation V)) : (all es).atoms = (Equation.and es).atoms := by
  rw [atoms, ← atoms_of_parts atoms_of_conjuncts es, all]
  split
  · next none => rw [none, atoms, List.flatMap_nil]
  · next e one => rw [one, List.flatMap_singleton]
  · rw [atoms]

theorem atoms_any (es : List (Equation V)) : (any es).atoms = (Equation.or es).atoms := by
  rw [atoms, ← atoms_of_parts atoms_of_disjuncts es, any]
  split
  · next none => rw [none, atoms, List.flatMap_nil]
  · next e one => rw [one, List.flatMap_singleton]
  · rw [atoms]

theorem vars_all (es : List (Equation V)) : (all es).vars = (Equation.and es).vars := by
  rw [vars, vars, atoms_all]

theorem vars_any (es : List (Equation V)) : (any es).vars = (Equation.or es).vars := by
  rw [vars, vars, atoms_any]

variable [DecidableEq V] [Hashable V] (oracle : Oracle σ ε V)

/-- Solving a flattened conjunction and solving the nested one are the same program. -/
theorem solve_all (limit : Nat) (es : List (Equation V)) (bound : List (VarId × V)) :
    solveM oracle limit (all es) bound = solveM oracle limit (.and es) bound := by
  rw [← Engine.solve_standard, ← Engine.solve_standard, Engine.solve, Engine.solve, Engine.first,
    Engine.first, Engine.explore_all, start, start, vars_all]

theorem satisfiable_all (limit : Nat) (es : List (Equation V)) (bound : List (VarId × V)) :
    satisfiableM oracle limit (all es) bound = satisfiableM oracle limit (.and es) bound := by
  rw [← Engine.satisfiable_standard, ← Engine.satisfiable_standard, Engine.satisfiable,
    Engine.satisfiable, Engine.explore_all, start, start, vars_all]

/-- What a solve without a limit finds, and the world it leaves, are had without accounts. -/
theorem solve_unaccounted (e : Equation V) (bound : List (VarId × V)) (world : σ) :
    let found := (Engine.unaccounted oracle).first e bound (.start world)
    (e.solve oracle ⟨0⟩ bound world).1.map Outcome.values? = found.1 ∧
      (e.solve oracle ⟨0⟩ bound world).2 = found.2.world := by
  obtain ⟨same, level⟩ := Engine.first_related (standard_matches oracle) e
    (fun _ _ q _ => matches_ask oracle q) bound (.start world) (.start world) ⟨rfl, rfl⟩
  have run : e.solve oracle ⟨0⟩ bound world =
      (((Engine.standard oracle 0).solve e bound (.start world)).1,
        ((Engine.standard oracle 0).solve e bound (.start world)).2.world) := by
    rw [Engine.solve_standard]
    rfl
  dsimp only
  rw [run, ← same, ← level.world, Engine.solve, bind_run]
  rcases (Engine.standard oracle 0).first e bound (.start world) with ⟨halt | found, s⟩
  · exact ⟨rfl, rfl⟩
  · cases found <;> exact ⟨rfl, rfl⟩

theorem satisfiable_unaccounted (e : Equation V) (bound : List (VarId × V)) (world : σ) :
    let found := (Engine.unaccounted oracle).satisfiable e bound (.start world)
    e.satisfiableDomains oracle ⟨0⟩ bound world = (found.1, found.2.world) := by
  have alike := Engine.satisfiable_related (standard_matches oracle) e
    (fun _ _ q _ => matches_ask oracle q) bound
  rw [Engine.satisfiable_standard] at alike
  obtain ⟨same, level⟩ := alike (.start world) (.start world) ⟨rfl, rfl⟩
  exact Prod.ext same level.world

theorem solve_any (es : List (Equation V)) (bound : List (VarId × V)) (world : σ) :
    ((any es).solve oracle ⟨0⟩ bound world).1.map Outcome.values? =
        ((Equation.or es).solve oracle ⟨0⟩ bound world).1.map Outcome.values? ∧
      ((any es).solve oracle ⟨0⟩ bound world).2 =
        ((Equation.or es).solve oracle ⟨0⟩ bound world).2 := by
  have first : (Engine.unaccounted oracle).first (any es) bound =
      (Engine.unaccounted oracle).first (.or es) bound := by
    rw [Engine.first, Engine.first, Engine.explore_any, start, start, vars_any]
  obtain ⟨flat, left⟩ := (any es).solve_unaccounted oracle bound world
  obtain ⟨nested, right⟩ := (Equation.or es).solve_unaccounted oracle bound world
  rw [flat, nested, left, right, first]
  exact ⟨rfl, rfl⟩

theorem satisfiable_domains_any (es : List (Equation V)) (bound : List (VarId × V)) (world : σ) :
    (any es).satisfiableDomains oracle ⟨0⟩ bound world =
      (Equation.or es).satisfiableDomains oracle ⟨0⟩ bound world := by
  have walks : (Engine.unaccounted oracle).satisfiable (any es) bound =
      (Engine.unaccounted oracle).satisfiable (.or es) bound := by
    rw [Engine.satisfiable, Engine.satisfiable, Engine.explore_any, start, start, vars_any]
  rw [satisfiable_unaccounted, satisfiable_unaccounted, walks]

/-- Equations that are solved alike: they find the same, put the same questions and leave the
same world. What they pay for and which failure they report may differ. -/
structure SolvedAlike (config : SolverConfig) (bound : List (VarId × V)) (world : σ)
    (d e : Equation V) : Prop where
  values : (d.solve oracle config bound world).1.map Outcome.values? =
    (e.solve oracle config bound world).1.map Outcome.values?
  left : (d.solve oracle config bound world).2 = (e.solve oracle config bound world).2
  solveCalls : d.solveCalls oracle config bound world = e.solveCalls oracle config bound world
  domains : d.satisfiableDomains oracle config bound world =
    e.satisfiableDomains oracle config bound world
  domainsCalls : d.domainsCalls oracle config bound world =
    e.domainsCalls oracle config bound world

/-- Flattening changes no meaning. A conjunction is searched as the nested one is, under any
limit, down to the failure that is reported and the branches that are paid for; so it puts
the same questions. A disjunction is solved like the nested one where there is no limit. -/
theorem flattening_keeps_meaning (operands : List (Equation V)) (bound : List (VarId × V))
    (world : σ) :
    (∀ config : SolverConfig,
      solveM oracle config.maxBranches (all operands) bound =
          solveM oracle config.maxBranches (.and operands) bound ∧
        (all operands).solveCalls oracle config bound world =
          (Equation.and operands).solveCalls oracle config bound world ∧
        satisfiableM oracle config.maxBranches (all operands) bound =
          satisfiableM oracle config.maxBranches (.and operands) bound ∧
        (all operands).domainsCalls oracle config bound world =
          (Equation.and operands).domainsCalls oracle config bound world) ∧
    SolvedAlike oracle ⟨0⟩ bound world (any operands) (.or operands) := by
  obtain ⟨values, left⟩ := solve_any oracle operands bound world
  obtain ⟨-, recorded⟩ := solve_any (recording oracle) operands bound (world, [])
  have domains := satisfiable_domains_any (recording oracle) operands bound (world, [])
  refine ⟨fun config => ⟨solve_all .., ?_, satisfiable_all .., ?_⟩, values, left,
    congrArg Prod.snd recorded, satisfiable_domains_any .., ?_⟩
  · rw [solveCalls, solveCalls, solve, solve, solve_all]
  · rw [domainsCalls, domainsCalls, satisfiableDomains, satisfiableDomains, satisfiable_all]
  · rw [domainsCalls, domainsCalls, domains]

end Equation
end Trellis
