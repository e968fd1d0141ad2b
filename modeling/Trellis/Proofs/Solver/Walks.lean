import Trellis.Proofs.Solver.Gathering
import Trellis.Proofs.Solver.Simulation

/-! Solving, and asking for the candidates, side by side. Both walk over the same
branches with the same oracle, the same kept answers and the same budget. Until the
first branch that can be labelled they cannot be told apart; there solving stops,
while asking for the candidates goes on and puts further questions. -/
namespace Trellis
namespace Solver

variable [DecidableEq V] [Hashable V] {W : σ → Prop}

/-- An action, however it ends, keeps what is known of the world. -/
def Keeps (W : σ → Prop) (act : SearchM σ ε V α) : Prop :=
  Shadows (fun _ _ => True) (fun _ world world' => W world ∧ world' = world) act act

/-- Of two walks the first one leads: as long as it has found nothing the second one
does the same and leaves `acc` as it is; when it has found something the second one
goes on alone. -/
def Leads (W : σ → Prop) (act : SearchM σ ε V (ForInStep (Option α)))
    (act' : SearchM σ ε V (ForInStep β)) (acc : β) : Prop :=
  ∀ s, match act s with
    | (.error halt, t) => act' s = (.error halt, t)
    | (.ok (.yield none), t) => act' s = (.ok (.yield acc), t)
    | (.ok (.done (some _)), t) => W t.world → W (act' s).2.world
    | _ => False

theorem keeps_world {act : SearchM σ ε V α} (keeps : Keeps W act) (held : W s.world) :
    W (act s).2.world :=
  (keeps.along s s ⟨⟨held, rfl⟩, rfl, rfl, rfl⟩ trivial).2.world.1

theorem leads_nothing (acc : β) :
    Leads W (pure (.yield none) : SearchM σ ε V (ForInStep (Option α))) (pure (.yield acc)) acc :=
  fun _ => rfl

/-- What both walks do first. -/
theorem leads_bind {first : SearchM σ ε V γ} {next : γ → SearchM σ ε V (ForInStep (Option α))}
    {next' : γ → SearchM σ ε V (ForInStep β)} (rest : ∀ x, Leads W (next x) (next' x) acc) :
    Leads W (first >>= next) (first >>= next') acc := by
  intro s
  rw [bind_run, bind_run]
  rcases first s with ⟨halt | x, t⟩
  · rfl
  · exact rest x t

/-- Once the first walk has stopped at an alternative, what is left is the second one's. -/
theorem leads_try_each {f : α → Option γ → SearchM σ ε V (ForInStep (Option γ))}
    {f' : α → β → SearchM σ ε V (ForInStep β)} {acc : β} {xs : List α}
    (steps : ∀ x ∈ xs, Leads W (f x none) (f' x acc) acc)
    (keeps : ∀ x ∈ xs, ∀ acc, Keeps W (f' x acc)) :
    Leads W (tryEach f xs none) (tryEach f' xs acc) acc := by
  induction xs with
  | nil => exact leads_nothing acc
  | cons x rest ih =>
    intro s
    have here := steps x List.mem_cons_self s
    have later (acc : β) : Keeps W (tryEach f' rest acc) :=
      shadows_try_each (fun y mem => keeps y (List.mem_cons_of_mem x mem)) acc
    have alone (t : Search σ V) (kept : W t.world → W (f' x acc s).2.world) (held : W t.world) :
        W (tryEach f' (x :: rest) acc s).2.world := by
      have kept := kept held
      rw [tryEach, bind_run]
      rcases ran : f' x acc s with ⟨halt | step, u⟩ <;> rw [ran] at kept
      · exact kept
      · cases step with
        | done acc => exact kept
        | yield acc => exact keeps_world (later acc) kept
    rw [tryEach, bind_run]
    rcases ran : f x none s with ⟨halt | (found | found), t⟩ <;> rw [ran] at here
    · rw [tryEach, bind_run, here]
    · cases found with
      | none => exact here.elim
      | some values => exact alone t here
    · cases found with
      | some values => exact here.elim
      | none =>
        rw [tryEach, bind_run, here]
        exact ih (fun y mem => steps y (List.mem_cons_of_mem x mem))
          (fun y mem => keeps y (List.mem_cons_of_mem x mem)) t

theorem explore_leads {oracle : Oracle σ ε V}
    (asked : ∀ q world, W world → W (oracle q world).2)
    {visit : Branch V → Option γ → SearchM σ ε V (ForInStep (Option γ))}
    {visit' : Branch V → β → SearchM σ ε V (ForInStep β)} (limit : Nat)
    (visits : ∀ b, Leads W (visit b none) (visit' b acc) acc)
    (keeps : ∀ b acc, Keeps W (visit' b acc)) (pending : List (Equation V)) (b : Branch V) :
    Leads W (explore oracle limit visit pending b none)
      (explore oracle limit visit' pending b acc) acc := by
  have echoes (atoms : List (Atom V)) :
      EchoesAll (fun _ _ => True) (fun _ world world' => W world ∧ world' = world) oracle oracle
        atoms := fun _ _ q _ => Equation.echoes_of_keeps (asked q)
  induction pending, b, acc using explore.induct with
  | case1 b acc => rw [explore, explore]; exact visits b
  | case2 b acc rest ih => rw [explore, explore]; exact ih visits
  | case3 b acc rest =>
    rw [explore, explore]
    exact leads_bind fun _ => leads_nothing _
  | case4 b acc rest =>
    rw [explore, explore]
    exact leads_bind fun _ => leads_nothing _
  | case5 b acc a rest atoms ih =>
    rw [explore, explore]
    apply leads_bind
    intro propagated
    rcases propagated with _ | ⟨candidates, reached⟩
    · exact leads_nothing _
    · exact ih candidates visits
  | case6 b acc es rest ih => rw [explore, explore]; exact ih visits
  | case7 b acc e rest ih => rw [explore, explore]; exact ih visits
  | case8 b acc es rest several one ih =>
    rw [explore, explore]
    · apply leads_bind
      intro _
      apply leads_try_each
      · exact fun e _ => ih acc e.1 e.2 visits
      · exact fun e _ acc => explore_shadows limit keeps _ b acc (echoes _)
    all_goals first | exact several | exact one

end Solver

namespace Equation
open Solver

variable [DecidableEq V] [Hashable V] {W : σ → Prop}

/-- Looking for the first assignment leads gathering the candidates. -/
theorem walk_leads (oracle : Oracle σ ε V) (asked : ∀ q world, W world → W (oracle q world).2)
    (limit : Nat) (e : Equation V) (b : Branch V) (seen : Candidates V) :
    Leads W (explore oracle limit (visitFirst oracle limit) [e] b none)
      (explore oracle limit (visitAll oracle limit) [e] b (false, seen)) (false, seen) := by
  have echoes (atoms : List (Atom V)) :
      EchoesAll (fun _ _ => True) (fun _ world world' => W world ∧ world' = world) oracle oracle
        atoms := fun _ _ q _ => echoes_of_keeps (asked q)
  have visits (b : Branch V) :
      Leads W (visitFirst oracle limit b none) (visitAll oracle limit b (false, seen))
        (false, seen) := by
    apply leads_bind
    intro completed
    cases completed with
    | none => exact leads_nothing _
    | some c => exact fun _ => id
  have keeps (b : Branch V) (seen : Bool × Candidates V) :
      Keeps W (visitAll oracle limit b seen) := by
    apply shadows_bind (complete_shadows limit (echoes b.atoms))
    intro completed
    cases completed <;> exact shadows_pure _
  exact explore_leads asked limit visits keeps [e] b

/-- Solving leads: asking for the candidates halts where a solve halts, and has nothing
to report where a solve fails. -/
theorem solve_leads (oracle : Oracle σ ε V)
    (asked : ∀ q world, W world → W (oracle q world).2) (config : SolverConfig) (e : Equation V)
    (bound : List (VarId × V)) (world : σ) :
    match e.solve oracle config bound world with
    | (.error halt, t) => e.satisfiableDomains oracle config bound world = (.error halt, t)
    | (.ok (.failed _), t) => e.satisfiableDomains oracle config bound world = (.ok none, t)
    | (.ok (.solved _), t) => W t → W (e.satisfiableDomains oracle config bound world).2 := by
  let limit := config.maxBranches
  have walked := walk_leads oracle asked limit e (e.start bound) (.unknown e.vars) (.start world)
  show match ((solveM oracle limit e bound (.start world)).1,
      (solveM oracle limit e bound (.start world)).2.world) with
    | (.error halt, t) => ((satisfiableM oracle limit e bound (.start world)).1,
        (satisfiableM oracle limit e bound (.start world)).2.world) = (.error halt, t)
    | (.ok (.failed _), t) => ((satisfiableM oracle limit e bound (.start world)).1,
        (satisfiableM oracle limit e bound (.start world)).2.world) = (.ok none, t)
    | (.ok (.solved _), t) =>
      W t → W (satisfiableM oracle limit e bound (.start world)).2.world
  unfold solveM satisfiableM
  rw [bind_run, bind_run]
  rcases ran : explore oracle limit (visitFirst oracle limit) [e] (e.start bound) none
    (.start world) with ⟨halt | (found | found), t⟩ <;> rw [ran] at walked
  · rw [walked]
  · cases found with
    | none => exact walked.elim
    | some values =>
      intro held
      have kept := walked held
      rcases ran : explore oracle limit (visitAll oracle limit) [e] (e.start bound)
        (false, .unknown e.vars) (.start world) with ⟨halt | walked, u⟩ <;> rw [ran] at kept
      · exact kept
      · exact kept
  · cases found with
    | some values => exact walked.elim
    | none =>
      rw [walked]
      rfl

end Equation

/-! ## What is found is reported -/

/-- The value `x` is among the candidates that are reported for the variable `v`. -/
def Domains.Lists (domains : Domains V) (v : VarId) (x : V) : Prop :=
  ∃ xs, (v, xs) ∈ domains ∧ x ∈ xs

section Reported
open Solver
variable {domains : Domains V} {branches : List (Branch V)}

theorem lists_of_offers (joins : Joins branches domains) {b : Branch V} (mem : b ∈ branches)
    (mentioned : v ∈ b.vars) (offers : b.candidates.Offers v x) : domains.Lists v x := by
  obtain ⟨⟨w, xs⟩, reported, rfl⟩ := List.mem_map.1 ((joins.named v).2 ⟨b, mem, mentioned⟩)
  exact ⟨xs, reported, ((joins.listed w xs reported).2 x).2 ⟨b, mem, mentioned, offers⟩⟩

variable [DecidableEq V] {holds : Query V → Bool} {e : Equation V} {bound : List (VarId × V)}

/-- Labelling chooses among the candidates that the branch had before. -/
theorem offers_of_answer (chosen : choice ∈ e.choices)
    (ran : collect holds (e.start bound) choice = some b) (ended : completed holds b = some c)
    (mem : (v, x) ∈ Equation.assignment b c) : v ∈ b.vars ∧ b.candidates.Offers v x := by
  obtain ⟨w, mentioned, chosenHere⟩ := List.mem_filterMap.1 mem
  obtain ⟨ys, held, first⟩ := Option.bind_eq_some_iff.1 chosenHere
  obtain ⟨y, head, same⟩ := Option.bind_eq_some_iff.1 first
  cases same
  have labelling := ((propagated_of_collect chosen ran).labelling chosen ended).1
  obtain ⟨xs, before⟩ := (completed_some ended).1 v mentioned
  obtain ⟨zs, after, fewer⟩ := labelling.within.left v xs before
  rw [held] at after
  cases after
  exact ⟨mentioned, xs, before, fewer.subset (List.mem_of_head? head)⟩

/-- What an answer assigns is reported. -/
theorem lists_of_first_answer (joins : Joins (e.branches holds bound) domains)
    (found : e.firstAnswer holds bound = some s) (mem : (v, x) ∈ s) : domains.Lists v x := by
  obtain ⟨before, choice, after, b, c, parts, -, ran, ended, rfl⟩ := first_answer_some found
  have chosen : choice ∈ e.choices := by rw [parts]; simp
  have branch := mem_branches_iff.2 ⟨choice, chosen, ran, c, ended⟩
  obtain ⟨mentioned, offers⟩ := offers_of_answer chosen ran ended mem
  exact lists_of_offers joins branch mentioned offers

/-- So is every value that a solution of a grounded choice gives a variable of it. -/
theorem lists_of_solves (joins : Joins (e.branches holds bound) domains)
    (chosen : choice ∈ e.choices) (grounded : Grounded bound choice)
    (solves : Solves holds bound choice t) (mem : v ∈ e.varsOf choice) :
    ∃ x, t v = some x ∧ domains.Lists v x := by
  obtain ⟨b, ran, c, ended⟩ := branch_of_solves chosen grounded solves
  have branch := mem_branches_iff.2 ⟨choice, chosen, ran, c, ended⟩
  have done := propagated_of_collect chosen ran
  obtain ⟨b', ran', admits⟩ := collect_of_solves e solves
  cases ran.symm.trans ran'
  obtain ⟨x, value⟩ := valued_of_solves solves chosen v mem
  obtain ⟨xs, held⟩ := (done.grounded_iff chosen).1 grounded v mem
  exact ⟨x, value, lists_of_offers joins branch (done.vars_eq ▸ mem)
    ⟨xs, held, admits v x xs value held⟩⟩

end Reported

section Agreement
open Solver
variable [DecidableEq V] [Hashable V] {oracle : Oracle σ ε V} {holds : Query V → Bool}

/-- Of the questions that asking for the candidates puts, a solve puts the first ones. -/
theorem calls_prefix (oracle : Oracle σ ε V) (config : SolverConfig) (e : Equation V)
    (bound : List (VarId × V)) (world : σ) :
    e.solveCalls oracle config bound world <+: e.domainsCalls oracle config bound world := by
  let begun (recorded : σ × List (Query V × σ)) : Prop :=
    e.solveCalls oracle config bound world <+: recorded.2
  have asked : ∀ q recorded, begun recorded → begun (recording oracle q recorded).2 := by
    rintro q ⟨now, log⟩ held
    exact held.trans (List.prefix_append _ _)
  have leads := Equation.solve_leads (recording oracle) asked config e bound (world, [])
  have self : begun (e.solve (recording oracle) config bound (world, [])).2 := List.prefix_refl _
  show begun (e.satisfiableDomains (recording oracle) config bound (world, [])).2
  rcases ran : e.solve (recording oracle) config bound (world, []) with ⟨halt | outcome, t⟩ <;>
    rw [ran] at leads self
  · rw [leads]
    exact self
  · cases outcome with
    | failed why =>
      dsimp only at leads
      rw [leads]
      exact self
    | solved values => exact leads self

/-- Solving and asking for the candidates agree, whatever the oracle does to its world and
whenever it fails, as long as the answers that it gives are fixed. Nothing is reported
only if a solve fails. What is reported lists no variable and no candidate twice, and
it covers what a solve finds and every solution of a grounded choice. A solve halts only
where asking halts too, and the questions it puts are the first ones put there. -/
theorem solve_agrees_with_domains (fixed : ∀ q world b, (oracle q world).1 = .ok b → b = holds q)
    (config : SolverConfig) (e : Equation V) (bound : List (VarId × V)) (world : σ) :
    (match (e.satisfiableDomains oracle config bound world).1 with
      | .ok none => ∃ why, (e.solve oracle config bound world).1 = .ok (.failed why)
      | .ok (some domains) =>
        (∃ s, (e.solve oracle config bound world).1 = .ok (.solved s) ∧
          ∀ v x, (v, x) ∈ s → domains.Lists v x) ∧
        (∀ choice ∈ e.choices, Grounded bound choice → ∀ t, Solves holds bound choice t →
          ∀ v ∈ e.varsOf choice, ∃ x, t v = some x ∧ domains.Lists v x) ∧
        (domains.map (·.1)).Nodup ∧ ∀ v xs, (v, xs) ∈ domains → xs.Nodup
      | .error halt => (e.solve oracle config bound world).1 = .error halt ∨
        ∃ s, (e.solve oracle config bound world).1 = .ok (.solved s)) ∧
    e.solveCalls oracle config bound world <+: e.domainsCalls oracle config bound world := by
  refine ⟨?_, calls_prefix oracle config e bound world⟩
  have computed := Equation.solve_computes (reliable_of_fixed fixed) config (.inr trivial) e bound
    world
  have reported := satisfiable_domains_computes (reliable_of_fixed fixed) config (.inr trivial) e
    bound world
  have leads := Equation.solve_leads oracle (W := fun _ => True) (fun _ _ _ => trivial) config e
    bound world
  rcases ran : e.solve oracle config bound world with ⟨halt | outcome, t⟩ <;>
    rw [ran] at leads computed
  · rw [leads]
    exact .inl rfl
  · cases outcome with
    | failed why =>
      dsimp only at leads
      rw [leads]
      exact ⟨why, rfl⟩
    | solved s =>
      have found : e.firstAnswer holds bound = some s := computed.symm
      rcases asked : (e.satisfiableDomains oracle config bound world).1 with halt | none | domains
      · exact .inr ⟨s, rfl⟩
      · rw [asked] at reported
        obtain ⟨before, choice, after, b, c, parts, -, ran, ended, -⟩ := first_answer_some found
        have chosen : choice ∈ e.choices := by rw [parts]; simp
        have branch := mem_branches_iff.2 ⟨choice, chosen, ran, c, ended⟩
        rw [reported] at branch
        cases branch
      · rw [asked] at reported
        obtain ⟨-, joins⟩ := reported
        refine ⟨⟨s, rfl, fun v x mem => lists_of_first_answer joins found mem⟩, ?_, joins.distinct,
          fun v xs mem => (joins.listed v xs mem).1⟩
        intro choice chosen grounded t solves v mem
        exact lists_of_solves joins chosen grounded solves mem

/-- Of two alternatives solving takes the first one, and both are reported. -/
theorem solve_agrees_with_domains_of_alternatives :
    let e : Equation Nat := .or [.atom (.domain ⟨0⟩ [1] none),
      .and [.atom (.domain ⟨0⟩ [2] none), .atom (.predicate ⟨0⟩ ⟨0⟩ none)]]
    let oracle : Oracle Unit Unit Nat := answering fun _ => true
    ∃ domains, (e.satisfiableDomains oracle ⟨0⟩ [] ()).1 = .ok (some domains) ∧
      domains.Lists ⟨0⟩ 1 ∧ domains.Lists ⟨0⟩ 2 ∧
      ∃ s, (e.solve oracle ⟨0⟩ [] ()).1 = .ok (.solved s) := by
  intro e oracle
  let holds : Query Nat → Bool := fun _ => true
  let first : List (Atom Nat) := [.domain ⟨0⟩ [1] none]
  let second : List (Atom Nat) := [.domain ⟨0⟩ [2] none, .predicate ⟨0⟩ ⟨0⟩ none]
  have choices : e.choices = [first, second] := by
    simp [e, Equation.choices, Equation.choicesOfAny, Equation.choicesOfAll, first, second]
  have grounded : Grounded [] first ∧ Grounded [] second := by
    have here : Reached [] first ⟨0⟩ := .domain List.mem_cons_self
    have there : Reached [] second ⟨0⟩ := .domain List.mem_cons_self
    constructor
    · simp [Grounded, first, Atom.vars, here]
    · simp [Grounded, second, Atom.vars, there]
  have solves : Solves holds [] first (fun _ => some 1) ∧ Solves holds [] second fun _ => some 2 :=
    ⟨⟨by simp [boundValue], by simp [first, Atom.Holds]⟩,
      ⟨by simp [boundValue], by simp [second, Atom.Holds, holds]⟩⟩
  have answers : ∀ q world, (oracle q world).1 = .ok (holds q) := fun _ _ => rfl
  have fixed : ∀ q world b, (oracle q world).1 = .ok b → b = holds q :=
    fun q world b answered => (Except.ok.inj answered).symm
  have chosen : first ∈ e.choices ∧ second ∈ e.choices := by simp [choices]
  obtain ⟨s, ran⟩ := solved_of_solves answers [] () chosen.1 grounded.1 solves.1
  have agreed := (solve_agrees_with_domains fixed ⟨0⟩ e [] ()).1
  have reported := satisfiable_domains_computes (reliable_of_answers answers) ⟨0⟩ (.inl rfl) e [] ()
  rcases asked : (e.satisfiableDomains oracle ⟨0⟩ [] ()).1 with halt | none | domains <;>
    rw [asked] at agreed reported
  · exact reported.elim
  · obtain ⟨why, failed⟩ := agreed
    rw [ran] at failed
    cases failed
  · obtain ⟨-, covers, -⟩ := agreed
    have listed (x : Nat) (choice : List (Atom Nat)) (mem : choice ∈ e.choices)
        (mentions : ∃ a ∈ choice, ⟨0⟩ ∈ a.vars) (ground : Grounded [] choice)
        (solved : Solves holds [] choice fun _ => some x) : domains.Lists ⟨0⟩ x := by
      obtain ⟨y, value, lists⟩ := covers choice mem ground _ solved ⟨0⟩
        ((mem_vars_of_iff mem).2 mentions)
      cases value
      exact lists
    have mentioned : (∃ a ∈ first, ⟨0⟩ ∈ a.vars) ∧ ∃ a ∈ second, ⟨0⟩ ∈ a.vars :=
      ⟨⟨_, List.mem_cons_self, List.mem_cons_self⟩, ⟨_, List.mem_cons_self, List.mem_cons_self⟩⟩
    exact ⟨domains, rfl, listed 1 first chosen.1 mentioned.1 grounded.1 solves.1,
      listed 2 second chosen.2 mentioned.2 grounded.2 solves.2, s, ran⟩

end Agreement
end Trellis
