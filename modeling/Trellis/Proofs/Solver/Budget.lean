import Trellis.Proofs.Solver.Walks

/-! The limit on branches. A solve that keeps within its limit does not notice it, and
neither does it notice a larger one. What it pays for are the leaves of the search: the
ways that die and those on which everything is decided. A disjunction is paid for when
it is come to, a labelling step by step, and no leaf is visited that is not paid for. -/
namespace Trellis
namespace Solver

/-- A limit allows what another one allows. Zero is no limit. -/
def Allows (larger limit : Nat) : Prop := larger = 0 ∨ 0 < limit ∧ limit ≤ larger

variable [DecidableEq V] [Hashable V]

/-! ## A limit that is not reached -/

/-- The run did not come to its limit. -/
def Fits : Except (Halt ε) α → Prop
  | .error (.tooManyBranches _) => False
  | _ => True

/-- A program that does not come to its limit does what the other one does. -/
def Unnoticed (act act' : SearchM σ ε V α) : Prop := ∀ s, Fits (act s).1 → act' s = act s

theorem unnoticed_of_eq {act act' : SearchM σ ε V α} (same : act' = act) : Unnoticed act act' :=
  fun s _ => congrFun same s

theorem unnoticed_bind {act act' : SearchM σ ε V α} {next next' : α → SearchM σ ε V β}
    (first : Unnoticed act act') (rest : ∀ x, Unnoticed (next x) (next' x)) :
    Unnoticed (act >>= next) (act' >>= next') := by
  intro s fits
  have before := first s
  rw [bind_run] at fits
  rw [bind_run, bind_run]
  rcases ran : act s with ⟨halt | x, t⟩ <;> rw [ran] at before fits
  · have fits : Fits (.error halt : Except (Halt ε) α) := by cases halt <;> exact fits
    rw [before fits]
  · rw [before trivial]
    exact rest x t fits

theorem unnoticed_charge (allows : Allows larger limit) (extra : Nat) :
    Unnoticed (charge limit extra : SearchM σ ε V Unit) (charge larger extra) := by
  intro s fits
  have within : ¬(0 < limit ∧ limit < s.branches + extra) := by
    intro spent
    simp only [charge, if_pos spent] at fits
    exact fits
  have free : ¬(0 < larger ∧ larger < s.branches + extra) := by
    unfold Allows at allows
    omega
  simp only [charge, if_neg within, if_neg free]

theorem standard_unnoticed (oracle : Oracle σ ε V) (allows : Allows larger limit) :
    Engine.Related (fun _ => Unnoticed) (.standard oracle limit)
      (.standard oracle larger) where
  pure _ := unnoticed_of_eq rfl
  bind := unnoticed_bind
  giveUp _ := unnoticed_of_eq rfl
  charge := unnoticed_charge allows
  leaf := unnoticed_of_eq rfl

end Solver

namespace Equation
open Solver
variable [DecidableEq V] [Hashable V] (oracle : Oracle σ ε V)

theorem solve_unnoticed (allows : Allows larger limit) (e : Equation V)
    (bound : List (VarId × V)) :
    Unnoticed (solveM oracle limit e bound) (solveM oracle larger e bound) := by
  rw [← Engine.solve_standard, ← Engine.solve_standard]
  exact unnoticed_bind (Engine.first_related (standard_unnoticed oracle allows) e
    (fun _ _ _ _ => unnoticed_of_eq rfl) bound) fun _ => unnoticed_of_eq rfl

theorem satisfiable_unnoticed (allows : Allows larger limit) (e : Equation V)
    (bound : List (VarId × V)) :
    Unnoticed (satisfiableM oracle limit e bound) (satisfiableM oracle larger e bound) := by
  rw [← Engine.satisfiable_standard, ← Engine.satisfiable_standard]
  exact Engine.satisfiable_related (standard_unnoticed oracle allows) e
    (fun _ _ _ _ => unnoticed_of_eq rfl) bound

variable {oracle}

theorem solve_of_larger {limit larger : SolverConfig}
    (allows : Allows larger.maxBranches limit.maxBranches) (e : Equation V)
    (bound : List (VarId × V)) (world : σ) (fits : Fits (e.solve oracle limit bound world).1) :
    e.solve oracle larger bound world = e.solve oracle limit bound world := by
  have same := e.solve_unnoticed oracle allows bound (.start world) fits
  exact congrArg (fun run : Except (Halt ε) (Outcome V) × Search σ V => (run.1, run.2.world)) same

theorem satisfiable_domains_of_larger {limit larger : SolverConfig}
    (allows : Allows larger.maxBranches limit.maxBranches) (e : Equation V)
    (bound : List (VarId × V)) (world : σ)
    (fits : Fits (e.satisfiableDomains oracle limit bound world).1) :
    e.satisfiableDomains oracle larger bound world =
      e.satisfiableDomains oracle limit bound world := by
  have same := e.satisfiable_unnoticed oracle allows bound (.start world) fits
  exact congrArg
    (fun run : Except (Halt ε) (Option (Domains V)) × Search σ V => (run.1, run.2.world)) same

end Equation

/-! ## The leaves that are visited -/

namespace Solver
variable [DecidableEq V] [Hashable V]

/-- The same oracle beside a counter, which it leaves alone. -/
def beside (oracle : Oracle σ ε V) : Oracle (σ × Nat) ε V :=
  fun q (world, n) => ((oracle q world).1, (oracle q world).2, n)

/-- Count one more leaf. -/
def tick : SearchM (σ × Nat) ε V Unit :=
  modify fun s => { s with world := (s.world.1, s.world.2 + 1) }

/-- The solver's engine, counting the leaves. -/
def Engine.tallying (oracle : Oracle σ ε V) (limit : Nat) : Engine (SearchM (σ × Nat) ε V) V :=
  { standard (beside oracle) limit with leaf := tick }

end Solver

namespace Equation
open Solver
variable [DecidableEq V] [Hashable V]

/-- Solve, and count the leaves of the search that are visited. -/
def solveTallied (oracle : Oracle σ ε V) (config : SolverConfig) (e : Equation V)
    (bound : List (VarId × V)) (world : σ) : (Except (Halt ε) (Outcome V) × σ) × Nat :=
  let (result, s) := (Engine.tallying oracle config.maxBranches).solve e bound (.start (world, 0))
  ((result, s.world.1), s.world.2)

/-- Ask for the candidates, and count the leaves of the search that are visited. -/
def domainsTallied (oracle : Oracle σ ε V) (config : SolverConfig) (e : Equation V)
    (bound : List (VarId × V)) (world : σ) : (Except (Halt ε) (Option (Domains V)) × σ) × Nat :=
  let (result, s) := (Engine.tallying oracle config.maxBranches).satisfiable e bound
    (.start (world, 0))
  ((result, s.world.1), s.world.2)

end Equation

namespace Solver
variable [DecidableEq V] [Hashable V] {oracle : Oracle σ ε V} {limit : Nat}

/-- How far a search has come that counts its leaves: those visited, and `paid` more that
are still to come, are paid for within the limit. They are all that is paid for as
long as no alternative was left out. -/
structure Covered (limit paid : Nat) (whole : Prop) (s : Search (σ × Nat) V) : Prop where
  leaves : s.world.2 + paid ≤ s.branches
  all : whole → s.world.2 + paid = s.branches
  limit : limit = 0 ∨ s.branches ≤ limit

/-- An action goes through leaves that are paid for: of `before` ones it leaves `after`.
With a result that is `full` it has left out no alternative. -/
def Visits (limit before after : Nat) (full : α → Prop) (act : SearchM (σ × Nat) ε V α) : Prop :=
  ∀ whole s, Covered limit before whole s → match act s with
    | (.ok x, t) => Covered limit after (whole ∧ full x) t
    | (.error _, t) => limit = 0 ∨ t.world.2 ≤ limit

theorem visits_pure {full : α → Prop} (paid : Nat) (x : α) :
    Visits limit paid paid full (pure x : SearchM (σ × Nat) ε V α) :=
  fun _ _ covered => ⟨covered.leaves, fun h => covered.all h.1, covered.limit⟩

/-- Alternatives that are still to come are left out. -/
theorem visits_stop {full : α → Prop} (less : after ≤ before) (part : ¬full x) :
    Visits limit before after full (pure x : SearchM (σ × Nat) ε V α) :=
  fun _ _ covered =>
    ⟨by have := covered.leaves; exact Nat.le_trans (by omega) this, fun h => (part h.2).elim,
      covered.limit⟩

/-- What begins with part of the alternatives left out does not become whole again. -/
theorem visits_bind {act : SearchM (σ × Nat) ε V α} {next : α → SearchM (σ × Nat) ε V β}
    {begun : α → Prop} {full : β → Prop} (first : Visits limit before mid begun act)
    (rest : ∀ x, Visits limit mid after full (next x))
    (part : ∀ x, ¬begun x → ∀ s y t, next x s = (.ok y, t) → ¬full y) :
    Visits limit before after full (act >>= next) := by
  intro whole s covered
  have middle := first whole s covered
  rw [bind_run]
  rcases ran : act s with ⟨halt | x, t⟩ <;> rw [ran] at middle
  · exact middle
  · have last := rest x _ t middle
    dsimp only
    rcases ran : next x t with ⟨halt | y, u⟩ <;> rw [ran] at last
    · exact last
    · refine ⟨last.leaves, fun ⟨whole, full⟩ => last.all ⟨⟨whole, ?_⟩, full⟩, last.limit⟩
      exact Classical.byContradiction fun begun => part x begun t y u ran full

/-- Nothing is left out before. -/
theorem visits_after {act : SearchM (σ × Nat) ε V α} {next : α → SearchM (σ × Nat) ε V β}
    {full : β → Prop} (first : Visits limit before mid (fun _ => True) act)
    (rest : ∀ x, Visits limit mid after full (next x)) :
    Visits limit before after full (act >>= next) :=
  visits_bind first rest fun _ out => (out trivial).elim

theorem visits_charge {full : Unit → Prop} (paid extra : Nat) :
    Visits limit paid (paid + extra) full
      (charge limit extra : SearchM (σ × Nat) ε V Unit) := by
  intro whole s covered
  have leaves := covered.leaves
  have within := covered.limit
  by_cases spent : 0 < limit ∧ limit < s.branches + extra
  · have free : limit = 0 ∨ s.world.2 ≤ limit := by omega
    simpa only [charge, if_pos spent] using free
  · have further : s.world.2 + (paid + extra) ≤ s.branches + extra := by omega
    have free : limit = 0 ∨ s.branches + extra ≤ limit := by omega
    simp only [charge, if_neg spent]
    refine ⟨further, fun h => ?_, free⟩
    have all := covered.all h.1
    dsimp only
    omega

theorem visits_tick {full : Unit → Prop} (paid : Nat) :
    Visits limit (paid + 1) paid full (tick : SearchM (σ × Nat) ε V Unit) := by
  intro whole s covered
  have visited : s.world.2 + 1 + paid = s.world.2 + (paid + 1) := by omega
  refine ⟨?_, fun h => ?_, covered.limit⟩
  · exact visited ▸ covered.leaves
  · exact visited.trans (covered.all h.1)

theorem visits_give_up {full : Unit → Prop} (paid : Nat) (why : Inconsistency) :
    Visits limit paid paid full (giveUp why : SearchM (σ × Nat) ε V Unit) :=
  fun _ _ covered => ⟨covered.leaves, fun h => covered.all h.1, covered.limit⟩

theorem visits_ask {full : Bool → Prop} (paid : Nat) (q : Query V) :
    Visits limit paid paid full (ask (beside oracle) q) := by
  intro whole s covered
  have within : limit = 0 ∨ s.world.2 ≤ limit := by
    have := covered.leaves
    have := covered.limit
    omega
  cases known : s.answers[q]? with
  | some b =>
    rw [ask_known known]
    exact ⟨covered.leaves, fun h => covered.all h.1, covered.limit⟩
  | none =>
    rw [ask_new known]
    dsimp only [beside]
    cases (oracle q s.world.1).1 with
    | ok b => exact ⟨covered.leaves, fun h => covered.all h.1, covered.limit⟩
    | error cause => exact within

/-- Propagation comes to no leaf of its own. -/
theorem propagate_visits (atoms : List (Atom V)) (c : Candidates V) (paid : Nat) :
    Visits limit paid paid (fun _ => True)
      ((Engine.tallying oracle limit).propagate atoms c) := by
  let R (α : Type) (act _ : SearchM (σ × Nat) ε V α) : Prop :=
    ∀ paid, Visits limit paid paid (fun _ => True) act
  have propagates : Engine.Propagates R (.tallying oracle limit) (.tallying oracle limit) :=
    { pure := fun x paid => visits_pure paid x
      bind := fun first rest paid => visits_after (first paid) fun x => rest x paid
      giveUp := fun why paid => visits_give_up paid why }
  exact Engine.propagate_related propagates (fun _ _ q _ paid => visits_ask paid q) c paid

/-- Each candidate takes one leaf, or as many as are paid for on its way. -/
theorem visits_find_some {look : α → SearchM (σ × Nat) ε V (Option β)} {xs : List α}
    (looks : ∀ x paid, Visits limit (paid + 1) paid (· = none) (look x)) (paid : Nat) :
    Visits limit (paid + xs.length) paid (· = none) (xs.findSomeM? look) := by
  induction xs with
  | nil => exact visits_pure paid none
  | cons x xs ih =>
    apply visits_bind (looks x (paid + xs.length))
    · intro found
      cases found with
      | none => exact ih
      | some y => exact visits_stop (Nat.le_add_right ..) (by simp)
    · intro found part
      cases found with
      | none => exact (part rfl).elim
      | some y =>
        rintro s _ t ⟨⟩
        simp

theorem label_visits (atoms : List (Atom V)) (vars : List VarId) (c : Candidates V) (paid : Nat) :
    Visits limit (paid + 1) paid (· = none)
      ((Engine.tallying oracle limit).label atoms vars c) := by
  rw [Engine.label]
  cases undecided? c vars with
  | none => exact visits_after (visits_tick paid) fun _ => visits_pure paid _
  | some u =>
    have several : paid + 1 + (u.values.length - 1) = paid + u.values.length := by
      have := u.several
      omega
    apply visits_after (several ▸ visits_charge (paid + 1) _)
    intro _
    apply visits_find_some
    intro value paid
    apply visits_after (propagate_visits atoms _ (paid + 1))
    intro propagated
    rcases propagated with _ | ⟨d, reached⟩
    · exact visits_after (visits_tick paid) fun _ => visits_pure paid _
    · exact label_visits atoms vars d paid
termination_by (c.free, c.total)
decreasing_by exact (u.tighter reached).decreases

theorem complete_visits (b : Branch V) (paid : Nat) :
    Visits limit (paid + 1) paid (· = none) ((Engine.tallying oracle limit).complete b) := by
  unfold Engine.complete
  split
  · exact visits_after (visits_give_up _ _) fun _ =>
      visits_after (visits_tick paid) fun _ => visits_pure paid _
  · exact label_visits b.atoms b.vars b.candidates paid

/-- A walk that went on to its end. Of one that goes on after something was found this is
not of interest (`track` is false). -/
def Unstopped (track : Prop) : ForInStep β → Prop
  | .yield _ => track
  | .done _ => False

theorem track_of_unstopped : {step : ForInStep β} → Unstopped track step → track
  | .yield _, unstopped => unstopped

theorem visits_try_each {f : α → β → SearchM (σ × Nat) ε V (ForInStep β)} {xs : List α}
    (steps : ∀ x ∈ xs, ∀ acc paid, Visits limit (paid + 1) paid (Unstopped track) (f x acc))
    (acc : β) (paid : Nat) :
    Visits limit (paid + xs.length) paid (Unstopped track) (tryEach f xs acc) := by
  induction xs generalizing acc with
  | nil => exact visits_pure paid _
  | cons x xs ih =>
    apply visits_bind (steps x List.mem_cons_self acc (paid + xs.length))
    · intro step
      cases step with
      | done acc => exact visits_stop (Nat.le_add_right ..) id
      | yield acc => exact ih (fun y mem => steps y (List.mem_cons_of_mem x mem)) acc
    · intro step part
      cases step with
      | done acc =>
        rintro s _ t ⟨⟩
        exact id
      | yield acc => exact fun _ _ _ _ unstopped => part (track_of_unstopped unstopped)

/-- A way that dies is a leaf. -/
theorem visits_dead {full : α → Prop} (why : Inconsistency) (x : α) (paid : Nat) :
    Visits limit (paid + 1) paid full (do
      (Engine.tallying oracle limit).giveUp why
      (Engine.tallying oracle limit).leaf
      return x) :=
  visits_after (visits_give_up _ why) fun _ =>
    visits_after (visits_tick paid) fun _ => visits_pure paid x

/-- Whatever is still to come of a walk is one leaf, or as many as are paid for on the way. -/
theorem explore_visits {visit : Branch V → β → SearchM (σ × Nat) ε V (ForInStep β)}
    (visits : ∀ b acc paid, Visits limit (paid + 1) paid (Unstopped track) (visit b acc))
    (pending : List (Equation V)) (b : Branch V) (acc : β) (paid : Nat) :
    Visits limit (paid + 1) paid (Unstopped track)
      ((Engine.tallying oracle limit).explore visit pending b acc) := by
  induction pending, b, acc using Solver.explore.induct generalizing paid with
  | case1 b acc => rw [Engine.explore]; exact visits b acc paid
  | case2 b acc rest ih => rw [Engine.explore]; exact ih paid
  | case3 b acc rest => rw [Engine.explore]; exact visits_dead _ _ paid
  | case4 b acc rest => rw [Engine.explore]; exact visits_dead _ _ paid
  | case5 b acc a rest atoms ih =>
    rw [Engine.explore]
    apply visits_after (propagate_visits atoms b.candidates (paid + 1))
    intro propagated
    rcases propagated with _ | ⟨candidates, reached⟩
    · exact visits_after (visits_tick paid) fun _ => visits_pure paid _
    · exact ih candidates paid
  | case6 b acc es rest ih => rw [Engine.explore]; exact ih paid
  | case7 b acc e rest ih => rw [Engine.explore]; exact ih paid
  | case8 b acc es rest several one ih =>
    rw [Engine.explore]
    · have alternatives : paid + 1 + (es.length - 1) = paid + es.attach.length := by
        have := List.length_pos_iff.2 several
        rw [List.length_attach]
        omega
      apply visits_after (alternatives ▸ visits_charge (paid + 1) _)
      intro _
      exact visits_try_each (fun e _ acc paid => ih acc e.1 e.2 paid) acc paid
    all_goals first | exact several | exact one

theorem visit_first_visits (b : Branch V) (found : Option (Assignment V)) (paid : Nat) :
    Visits limit (paid + 1) paid (Unstopped True)
      ((Engine.tallying oracle limit).visitFirst b found) := by
  apply visits_bind (complete_visits b paid)
  · intro completed
    cases completed <;> exact visits_pure paid _
  · intro completed part
    cases completed with
    | none => exact (part rfl).elim
    | some c =>
      rintro s _ t ⟨⟩
      exact id

theorem visit_all_visits (b : Branch V) (seen : Bool × Candidates V) (paid : Nat) :
    Visits limit (paid + 1) paid (Unstopped False)
      ((Engine.tallying oracle limit).visitAll b seen) := by
  apply visits_bind (complete_visits b paid)
  · intro completed
    cases completed <;> exact visits_pure paid _
  · exact fun _ _ _ _ _ _ => track_of_unstopped

theorem walk_first_visits (oracle : Oracle σ ε V) (limit : Nat) (e : Equation V) (b : Branch V) :
    Visits limit 1 0 (Unstopped True) ((Engine.tallying oracle limit).explore
      (Engine.tallying oracle limit).visitFirst [e] b none) :=
  explore_visits visit_first_visits [e] b none 0

theorem satisfiable_visits (oracle : Oracle σ ε V) (limit : Nat) (e : Equation V)
    (bound : List (VarId × V)) :
    Visits limit 1 0 (fun _ => False) ((Engine.tallying oracle limit).satisfiable e bound) :=
  visits_bind (explore_visits visit_all_visits [e] (e.start bound) (false, .unknown e.vars) 0)
    (fun _ => visits_pure 0 _) fun _ _ _ _ _ _ => id

/-- Nothing but the counter tells a search that counts its leaves from the solver. -/
theorem tallying_shadows (oracle : Oracle σ ε V) (limit : Nat) :
    Engine.Related (fun _ => Shadows (fun _ _ => True) fun _ world counted => counted.1 = world)
      (.standard oracle limit) (.tallying oracle limit) where
  toSequential := shadows_sequential
  giveUp := shadows_give_up
  charge := shadows_charge limit
  leaf :=
    { back := fun _ => id
      along := fun _ _ abreast _ =>
        ⟨rfl, abreast.world, abreast.answers, abreast.branches, abreast.failure⟩ }

theorem echoes_of_beside (oracle : Oracle σ ε V) (q : Query V) :
    Echoes (fun _ _ => True) (fun _ world counted => counted.1 = world) oracle (beside oracle)
      q := by
  rintro world answers - -
  refine ⟨trivial, ?_⟩
  rintro ⟨_, n⟩ rfl
  exact ⟨rfl, rfl⟩

theorem walk_first_tallied (oracle : Oracle σ ε V) (limit : Nat) (e : Equation V)
    (bound : List (VarId × V)) (world : σ) :
    ((Engine.tallying oracle limit).explore (Engine.tallying oracle limit).visitFirst [e]
        (e.start bound) none (.start (world, 0))).1 =
      (explore oracle limit (Equation.visitFirst oracle limit) [e] (e.start bound) none
        (.start world)).1 := by
  have start : Abreast (fun world (counted : σ × Nat) => counted.1 = world)
      (.start world : Search σ V) (.start (world, 0)) := ⟨rfl, rfl, rfl, rfl⟩
  have shadows := Engine.walk_first_related (tallying_shadows oracle limit) e
    (fun _ _ q _ => shadows_ask (echoes_of_beside oracle q)) bound
  rw [← Engine.walk_first_standard]
  exact (shadows.along _ _ start trivial).1

theorem covered_start (within : limit = 0 ∨ 1 ≤ limit) (world : σ) :
    Covered limit 1 True (.start (world, 0) : Search (σ × Nat) V) :=
  ⟨Nat.le_refl 1, fun _ => rfl, within⟩

end Solver

namespace Equation
open Solver
variable [DecidableEq V] [Hashable V]

/-- How many branches a solve pays for. -/
def branchesPaid (oracle : Oracle σ ε V) (config : SolverConfig) (e : Equation V)
    (bound : List (VarId × V)) (world : σ) : Nat :=
  (solveM oracle config.maxBranches e bound (.start world)).2.branches

theorem solve_tallied (oracle : Oracle σ ε V) (config : SolverConfig) (e : Equation V)
    (bound : List (VarId × V)) (world : σ) :
    let tallied := (Engine.tallying oracle config.maxBranches).solve e bound (.start (world, 0))
    Abreast (fun world counted => counted.1 = world)
        (solveM oracle config.maxBranches e bound (.start world)).2 tallied.2 ∧
      tallied.1 = (solveM oracle config.maxBranches e bound (.start world)).1 := by
  have start : Abreast (fun world (counted : σ × Nat) => counted.1 = world)
      (.start world : Search σ V) (.start (world, 0)) := ⟨rfl, rfl, rfl, rfl⟩
  have shadows : Shadows (fun _ _ => True) (fun _ world (counted : σ × Nat) => counted.1 = world)
      (solveM oracle config.maxBranches e bound)
      ((Engine.tallying oracle config.maxBranches).solve e bound) := by
    rw [← Engine.solve_standard]
    apply shadows_bind (Engine.first_related (tallying_shadows oracle _) e
      (fun _ _ q _ => shadows_ask (echoes_of_beside oracle q)) bound)
    intro found
    cases found with
    | some values => exact shadows_pure _
    | none => exact shadows_read fun s t abreast => by rw [abreast.failure]
  obtain ⟨same, abreast⟩ := shadows.along _ _ start trivial
  exact ⟨abreast, same⟩

/-- A walk for the first assignment stops only where it found one. -/
theorem walk_first_found (oracle : Oracle σ ε V) (limit : Nat) (e : Equation V) (b : Branch V)
    (s : Search σ V) (walked : ForInStep (Option (Assignment V)))
    (ran : (explore oracle limit (visitFirst oracle limit) [e] b none s).1 = .ok walked)
    (nothing : walked.value = none) : walked = .yield none := by
  have leads := walk_leads (W := fun _ => True) oracle (fun _ _ _ => trivial) limit e b
    (.unknown []) s
  rcases explored : explore oracle limit (visitFirst oracle limit) [e] b none s with
    ⟨halt | (found | found), t⟩ <;> rw [explored] at ran leads <;> cases ran <;> cases nothing
  · exact leads.elim
  · rfl

/-- No more leaves are visited than are paid for, and where a solve fails no fewer. -/
theorem leaves_of_solve (oracle : Oracle σ ε V) (config : SolverConfig) (e : Equation V)
    (bound : List (VarId × V)) (world : σ) :
    (0 < config.maxBranches →
      (e.solveTallied oracle config bound world).2 ≤ config.maxBranches) ∧
      ∀ why, (e.solve oracle config bound world).1 = .ok (.failed why) →
        (e.solveTallied oracle config bound world).2 =
          e.branchesPaid oracle config bound world := by
  let limit := config.maxBranches
  obtain ⟨abreast, same⟩ := e.solve_tallied oracle config bound world
  have within : limit = 0 ∨ 1 ≤ limit := by omega
  have visits :=
    walk_first_visits oracle limit e (e.start bound) True _ (covered_start within world)
  have run := (Engine.tallying oracle limit).solve_run e bound (.start (world, 0))
  have tallied : (e.solveTallied oracle config bound world).2 =
    ((Engine.tallying oracle limit).solve e bound (.start (world, 0))).2.world.2 := rfl
  have outcome : (e.solve oracle config bound world).1 =
    ((Engine.tallying oracle limit).solve e bound (.start (world, 0))).1 := same.symm
  have paid : e.branchesPaid oracle config bound world =
    ((Engine.tallying oracle limit).solve e bound (.start (world, 0))).2.branches :=
    abreast.branches.symm
  rw [tallied, outcome, paid, run]
  rcases walk : (Engine.tallying oracle limit).explore (Engine.tallying oracle limit).visitFirst [e]
    (e.start bound) none (.start (world, 0)) with ⟨halt | walked, t⟩ <;> rw [walk] at visits
  · refine ⟨fun some => ?_, fun why failed => ?_⟩
    · exact visits.resolve_left (Nat.ne_of_gt some)
    · cases failed
  · refine ⟨fun some => ?_, fun why failed => ?_⟩
    · have := visits.leaves
      have := visits.limit
      dsimp only
      omega
    · have nothing : walked.value = none := by
        cases value : walked.value with
        | none => rfl
        | some values => simp [value] at failed
      have ran :=
        (walk_first_tallied oracle limit e bound world).symm.trans (congrArg Prod.fst walk)
      rw [walk_first_found oracle limit e _ _ walked ran nothing] at visits
      exact visits.all ⟨trivial, trivial⟩

theorem domains_tallied (oracle : Oracle σ ε V) (config : SolverConfig) (e : Equation V)
    (bound : List (VarId × V)) (world : σ) :
    (e.domainsTallied oracle config bound world).1 =
      e.satisfiableDomains oracle config bound world := by
  have start : Abreast (fun world (counted : σ × Nat) => counted.1 = world)
      (.start world : Search σ V) (.start (world, 0)) := ⟨rfl, rfl, rfl, rfl⟩
  have shadows := Engine.satisfiable_related (tallying_shadows oracle config.maxBranches) e
    (fun _ _ q _ => shadows_ask (echoes_of_beside oracle q)) bound
  rw [Engine.satisfiable_standard] at shadows
  obtain ⟨same, abreast⟩ := shadows.along _ _ start trivial
  exact Prod.ext same abreast.world

theorem leaves_of_domains (oracle : Oracle σ ε V) (config : SolverConfig) (e : Equation V)
    (bound : List (VarId × V)) (world : σ) (limited : 0 < config.maxBranches) :
    (e.domainsTallied oracle config bound world).2 ≤ config.maxBranches := by
  have visits := satisfiable_visits oracle config.maxBranches e bound True _
    (covered_start (.inr limited) world)
  have tallied : (e.domainsTallied oracle config bound world).2 =
    ((Engine.tallying oracle config.maxBranches).satisfiable e bound
      (.start (world, 0))).2.world.2 := rfl
  rw [tallied]
  rcases ran : (Engine.tallying oracle config.maxBranches).satisfiable e bound
    (.start (world, 0)) with ⟨halt | domains, t⟩ <;> rw [ran] at visits
  · exact visits.resolve_left (Nat.ne_of_gt limited)
  · have := visits.leaves
    have := visits.limit
    dsimp only
    omega

/-- The limit on branches bounds the search and does not change it. Where it is not reached
no larger limit makes a difference, neither to the result nor to the questions put. The
leaves visited keep within it, as they keep within the branches paid for; and where a
solve fails, every branch paid for is one leaf visited. -/
theorem limit_bounds_search (oracle : Oracle σ ε V) (limit : SolverConfig) (e : Equation V)
    (bound : List (VarId × V)) (world : σ) :
    (∀ larger : SolverConfig, Allows larger.maxBranches limit.maxBranches →
      (Fits (e.solve oracle limit bound world).1 →
        e.solve oracle larger bound world = e.solve oracle limit bound world ∧
          e.solveCalls oracle larger bound world = e.solveCalls oracle limit bound world) ∧
      (Fits (e.satisfiableDomains oracle limit bound world).1 →
        e.satisfiableDomains oracle larger bound world =
            e.satisfiableDomains oracle limit bound world ∧
          e.domainsCalls oracle larger bound world = e.domainsCalls oracle limit bound world)) ∧
    ((e.solveTallied oracle limit bound world).1 = e.solve oracle limit bound world ∧
      (e.domainsTallied oracle limit bound world).1 =
        e.satisfiableDomains oracle limit bound world) ∧
    (0 < limit.maxBranches →
      (e.solveTallied oracle limit bound world).2 ≤ limit.maxBranches ∧
        (e.domainsTallied oracle limit bound world).2 ≤ limit.maxBranches) ∧
    ∀ why, (e.solve oracle limit bound world).1 = .ok (.failed why) →
      (e.solveTallied oracle limit bound world).2 = e.branchesPaid oracle limit bound world := by
  obtain ⟨bounded, whole⟩ := e.leaves_of_solve oracle limit bound world
  obtain ⟨abreast, same⟩ := e.solve_tallied oracle limit bound world
  refine ⟨fun larger allows => ⟨fun fits => ⟨?_, ?_⟩, fun fits => ⟨?_, ?_⟩⟩,
    ⟨Prod.ext same abreast.world, e.domains_tallied oracle limit bound world⟩,
    fun limited => ⟨bounded limited, e.leaves_of_domains oracle limit bound world limited⟩, whole⟩
  · exact e.solve_of_larger allows bound world fits
  · rw [e.solve_recorded oracle limit bound world []] at fits
    rw [solveCalls, e.solve_of_larger allows bound _ fits, solveCalls]
  · exact e.satisfiable_domains_of_larger allows bound world fits
  · rw [e.satisfiable_domains_recorded oracle limit bound world []] at fits
    rw [domainsCalls, e.satisfiable_domains_of_larger allows bound _ fits, domainsCalls]

/-- Two contradictions are two leaves. A limit of two is enough for them. -/
theorem limit_bounds_search_of_contradictions :
    let e : Equation Nat := .or [.never, .never]
    let oracle : Oracle Unit Unit Nat := fun _ world => (.ok true, world)
    Fits (e.solve oracle ⟨2⟩ [] ()).1 ∧ e.solve oracle ⟨0⟩ [] () = e.solve oracle ⟨2⟩ [] () ∧
      (e.solveTallied oracle ⟨2⟩ [] ()).2 ≤ 2 ∧
      (e.solveTallied oracle ⟨2⟩ [] ()).2 = e.branchesPaid oracle ⟨2⟩ [] () := by
  intro e oracle
  have failed : (e.solve oracle ⟨2⟩ [] ()).1 = .ok (.failed .contradiction) := by
    simp only [e, solve, solveM, explore, tryEach, giveUp, List.attach_cons, List.attach_nil,
      List.map_cons, List.map_nil]
    rfl
  have fits : Fits (e.solve oracle ⟨2⟩ [] ()).1 := by
    rw [failed]
    trivial
  obtain ⟨free, -, bounded, whole⟩ := limit_bounds_search oracle ⟨2⟩ e [] ()
  exact ⟨fits, ((free ⟨0⟩ (.inl rfl)).1 fits).1, (bounded (by decide)).1, whole _ failed⟩

end Equation
end Trellis
