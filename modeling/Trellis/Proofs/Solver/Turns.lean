import Trellis.Proofs.Solver.Engine

/-! The search as loops that know of no end. Propagation repeats its rounds, labelling
calls itself, and the walk works off a stack of paths, each of them for as long as there
is something to do. Nothing here looks at a measure: a loop is given a number of turns,
and comes to nothing when they are used up. That turns enough can always be given, and
that the loops then do what the search does, is what it means for them to end. -/
namespace Trellis
namespace Solver

variable [DecidableEq V] [Hashable V]

/-! ## Loops -/

/-- A search that may come to nothing. -/
abbrev LoopM (σ ε V : Type) [DecidableEq V] [Hashable V] :=
  ExceptT (Halt ε) (StateT (Search σ V) Option)

/-- Nothing comes of this: the turns are used up, or a count would fall below zero. -/
def stuck : LoopM σ ε V α := fun _ => none

/-- What goes over finitely many things, and ends with the last of them. -/
def ending (act : SearchM σ ε V α) : LoopM σ ε V α := fun s => some (act s)

/-- Pay for all but one of several candidates. With fewer than two of them the search
would be stuck. -/
def chargeSpare (limit candidates : Nat) : LoopM σ ε V Unit :=
  if 2 ≤ candidates then ending (charge limit (candidates - 1)) else stuck

section Loops
variable (oracle : Oracle σ ε V) (limit : Nat)

/-- Repeat rounds until one changes nothing. -/
def propagateLoop (atoms : List (Atom V)) :
    Nat → Candidates V → LoopM σ ε V (Option (Candidates V))
  | 0, _ => stuck
  | turns + 1, c => do
    match ← ending (round oracle atoms c) with
    | .settled => return some c
    | .dead => return none
    | .moved d _ => propagateLoop atoms turns d

/-- Fix the first variable with several candidates, then the next one. -/
def labelLoop (atoms : List (Atom V)) (vars : List VarId) :
    Nat → Candidates V → LoopM σ ε V (Option (Candidates V))
  | 0, _ => stuck
  | turns + 1, c =>
    match vars.find? fun v => (c.get? v).any (1 < ·.length) with
    | none => return some c
    | some v => do
      let values := (c.get? v).getD []
      chargeSpare limit values.length
      values.findSomeM? fun value => do
        match ← propagateLoop oracle atoms turns (c.set v [value]) with
        | none => return none
        | some d => labelLoop atoms vars turns d

def completeLoop (turns : Nat) (b : Branch V) : LoopM σ ε V (Option (Candidates V)) := do
  match b.vars.find? fun v => (b.candidates.get? v).isNone with
  | some v =>
    ending (giveUp (.unconstrained v ((b.atoms.find? (·.mentions v)).bind Atom.origin)))
    return none
  | none => labelLoop oracle limit b.atoms b.vars turns b.candidates

/-- A branch with the equations that are still to be visited on it. -/
structure Path (V : Type) where
  branch : Branch V
  pending : List (Equation V)

/-- Work off a stack of paths. A turn visits one equation of the path on top, which goes
on, ends, or makes room for its alternatives. -/
def exploreLoop (visit : Nat → Branch V → β → LoopM σ ε V (ForInStep β)) :
    Nat → List (Path V) → β → LoopM σ ε V (ForInStep β)
  | 0, _, _ => stuck
  | _ + 1, [], acc => return .yield acc
  | turns + 1, ⟨b, []⟩ :: stack, acc => do
    match ← visit turns b acc with
    | .done acc => return .done acc
    | .yield acc => exploreLoop visit turns stack acc
  | turns + 1, ⟨b, e :: rest⟩ :: stack, acc =>
    match e with
    | .always => exploreLoop visit turns (⟨b, rest⟩ :: stack) acc
    | .never | .or [] => do
      ending (giveUp .contradiction)
      exploreLoop visit turns stack acc
    | .atom a => do
      let atoms := b.atoms ++ [a]
      match ← propagateLoop oracle atoms turns b.candidates with
      | none => exploreLoop visit turns stack acc
      | some candidates => exploreLoop visit turns (⟨⟨atoms, candidates⟩, rest⟩ :: stack) acc
    | .and es => exploreLoop visit turns (⟨b, es ++ rest⟩ :: stack) acc
    | .or [e] => exploreLoop visit turns (⟨b, e :: rest⟩ :: stack) acc
    | .or es => do
      ending (charge limit (es.length - 1))
      exploreLoop visit turns (es.map (⟨b, · :: rest⟩) ++ stack) acc

def visitFirstLoop (turns : Nat) (b : Branch V) (found : Option (Assignment V)) :
    LoopM σ ε V (ForInStep (Option (Assignment V))) := do
  match ← completeLoop oracle limit turns b with
  | none => return .yield found
  | some c => return .done (some (Equation.assignment b c))

/-- The loops of a solve. -/
def solveLoop (turns : Nat) (e : Equation V) (bound : List (VarId × V)) :
    LoopM σ ε V (Outcome V) := do
  let found ← exploreLoop oracle limit (visitFirstLoop oracle limit) turns
    [⟨e.start bound, [e]⟩] none
  match found.value with
  | some values => return .solved values
  | none => return .failed ((← get).failure.getD .contradiction)

def visitAllLoop (turns : Nat) (b : Branch V) (seen : Bool × Candidates V) :
    LoopM σ ε V (ForInStep (Bool × Candidates V)) := do
  match ← completeLoop oracle limit turns b with
  | none => return .yield seen
  | some _ => return .yield (true, Equation.gather b seen.2)

/-- The loops of asking for the candidates. -/
def satisfiableLoop (turns : Nat) (e : Equation V) (bound : List (VarId × V)) :
    LoopM σ ε V (Option (Domains V)) := do
  let walked ← exploreLoop oracle limit (visitAllLoop oracle limit) turns
    [⟨e.start bound, [e]⟩] (false, .unknown e.vars)
  let (any, seen) := walked.value
  return if any then
    some (seen.vars.filterMap fun v => (seen.get? v).map (v, ·))
  else none

end Loops

/-! ## Turns enough -/

/-- Given turns enough the loop does what the search does; `read` takes the one's result
for the other's. -/
def ComesTo (read : α → β) (loop : Nat → LoopM σ ε V β) (act : SearchM σ ε V α) : Prop :=
  ∀ s, ∃ enough, ∀ turns, enough ≤ turns → loop turns s = some ((act s).1.map read, (act s).2)

theorem ends_of_comes_to {loop : Nat → LoopM σ ε V α} {act : SearchM σ ε V α}
    (comes : ComesTo id loop act) (s : Search σ V) :
    ∃ enough, ∀ turns, enough ≤ turns → loop turns s = some (act s) := by
  obtain ⟨enough, ends⟩ := comes s
  refine ⟨enough, fun turns many => ?_⟩
  rw [ends turns many, Except.map_id]
  rfl

theorem loop_bind_run (loop : LoopM σ ε V α) (next : α → LoopM σ ε V β) (s : Search σ V) :
    (loop >>= next) s = match loop s with
      | none => none
      | some (.ok x, t) => next x t
      | some (.error halt, t) => some (.error halt, t) := by
  change (loop s).bind _ = _
  rcases loop s with _ | ⟨halt | x, t⟩ <;> rfl

theorem comes_to_ending (act : SearchM σ ε V α) : ComesTo id (fun _ => ending act) act := by
  refine fun s => ⟨0, fun _ _ => ?_⟩
  rw [Except.map_id]
  rfl

theorem comes_to_pure {read : α → β} (x : α) :
    ComesTo read (fun _ => (pure (read x) : LoopM σ ε V β)) (pure x) :=
  fun _ => ⟨0, fun _ _ => rfl⟩

theorem comes_to_bind {read : α → β} {read' : γ → δ} {loop : Nat → LoopM σ ε V β}
    {act : SearchM σ ε V α} {after : Nat → β → LoopM σ ε V δ} {next : α → SearchM σ ε V γ}
    (first : ComesTo read loop act)
    (rest : ∀ x, ComesTo read' (fun turns => after turns (read x)) (next x)) :
    ComesTo read' (fun turns => loop turns >>= after turns) (act >>= next) := by
  intro s
  obtain ⟨enough, first⟩ := first s
  dsimp only
  rcases ran : act s with ⟨halt | x, t⟩ <;> rw [ran] at first
  · refine ⟨enough, fun turns many => ?_⟩
    rw [loop_bind_run, first turns many, bind_run, ran]
    rfl
  · obtain ⟨more, rest⟩ := rest x t
    refine ⟨max enough more, fun turns many => ?_⟩
    obtain ⟨some, many⟩ := Nat.max_le.1 many
    rw [loop_bind_run, first turns some, bind_run, ran]
    exact rest turns many

/-- The search may change a result that the loop has as it is. -/
theorem comes_to_map {read : α → γ} {read' : β → γ} {change : α → β}
    (same : ∀ x, read' (change x) = read x) {loop : Nat → LoopM σ ε V γ} {act : SearchM σ ε V α}
    (first : ComesTo read loop act) : ComesTo read' loop (act >>= fun x => pure (change x)) := by
  intro s
  obtain ⟨enough, first⟩ := first s
  refine ⟨enough, fun turns many => ?_⟩
  rw [first turns many, bind_run]
  rcases act s with ⟨halt | x, t⟩
  · rfl
  · exact congrArg (fun y => some (Except.ok y, t)) (same x).symm

/-- One turn is taken before the rest. -/
theorem comes_to_turn {read : α → β} {loop : Nat → LoopM σ ε V β} {act : SearchM σ ε V α}
    (rest : ComesTo read (fun turns => loop (turns + 1)) act) : ComesTo read loop act := by
  intro s
  obtain ⟨enough, rest⟩ := rest s
  refine ⟨enough + 1, fun turns many => ?_⟩
  obtain ⟨fewer, rfl⟩ := Nat.exists_eq_add_of_le' (Nat.le_of_add_left_le many)
  exact rest fewer (Nat.le_of_succ_le_succ many)

theorem comes_to_find_some {look : Nat → α → LoopM σ ε V (Option β)}
    {look' : α → SearchM σ ε V (Option β)}
    (looks : ∀ x, ComesTo id (fun turns => look turns x) (look' x)) (xs : List α) :
    ComesTo id (fun turns => xs.findSomeM? (look turns)) (xs.findSomeM? look') := by
  induction xs with
  | nil => exact comes_to_pure none
  | cons x xs ih =>
    apply comes_to_bind (looks x)
    intro found
    cases found with
    | none => exact ih
    | some y => exact comes_to_pure (some y)

section Loops
variable (oracle : Oracle σ ε V) (limit : Nat)

theorem comes_to_propagate (atoms : List (Atom V)) (c : Candidates V) :
    ComesTo (Option.map Subtype.val) (fun turns => propagateLoop oracle atoms turns c)
      (propagate oracle atoms c) := by
  apply comes_to_turn
  rw [propagate]
  simp only [propagateLoop]
  apply comes_to_bind (comes_to_ending _)
  intro result
  cases result with
  | settled => exact comes_to_pure (some (⟨c, .inl rfl⟩ : From c))
  | dead => exact comes_to_pure (none : Option (From c))
  | moved d tighter =>
    exact comes_to_map (fun found => by cases found <;> rfl) (comes_to_propagate atoms d)
termination_by (c.free, c.total)
decreasing_by exact tighter.decreases

omit [DecidableEq V] [Hashable V] in
theorem undecided_var (c : Candidates V) (vars : List VarId) :
    (undecided? c vars).map (·.var) = vars.find? fun v => (c.get? v).any (1 < ·.length) := by
  induction vars with
  | nil => rfl
  | cons v rest ih =>
    unfold undecided?
    split
    · next values held =>
      split
      · next several => simp [held, several]
      · next single => simp [held, single, ih]
    · next held => simp [held, ih]

/-- The search labels a variable with several candidates only, so that there is one
to be had for free. -/
theorem comes_to_charge_spare (several : 2 ≤ candidates) :
    ComesTo id (fun _ => (chargeSpare limit candidates : LoopM σ ε V Unit))
      (charge limit (candidates - 1)) := by
  rw [chargeSpare, if_pos several]
  exact comes_to_ending _

theorem comes_to_label (atoms : List (Atom V)) (vars : List VarId) (c : Candidates V) :
    ComesTo id (fun turns => labelLoop oracle limit atoms vars turns c)
      (label oracle limit atoms vars c) := by
  apply comes_to_turn
  rw [label]
  have chosen := undecided_var c vars
  simp only [labelLoop]
  cases first : undecided? c vars with
  | none =>
    rw [← chosen, first]
    exact comes_to_pure (some c)
  | some u =>
    rw [← chosen, first]
    simp only [Option.map_some, u.held, Option.getD_some]
    apply comes_to_bind (comes_to_charge_spare limit u.several)
    intro _
    apply comes_to_find_some
    intro value
    -- the variable has candidates, so the table lists it
    have fixed : c.set u.var [value] = c.put u.var [value] (Candidates.mem_vars u.held) :=
      dif_pos _
    rw [fixed]
    apply comes_to_bind (comes_to_propagate oracle atoms _)
    intro propagated
    rcases propagated with _ | ⟨d, reached⟩
    · exact comes_to_pure none
    · exact comes_to_label atoms vars d
termination_by (c.free, c.total)
decreasing_by exact (u.tighter reached).decreases

theorem comes_to_complete (b : Branch V) :
    ComesTo id (fun turns => completeLoop oracle limit turns b) (complete oracle limit b) := by
  unfold completeLoop complete
  cases b.vars.find? fun v => (b.candidates.get? v).isNone with
  | some v => exact comes_to_bind (comes_to_ending _) fun _ => comes_to_pure none
  | none => exact comes_to_label oracle limit b.atoms b.vars b.candidates

/-- What a walk does after a path: it stops, or goes on to the paths below. -/
def onward (below : β → SearchM σ ε V (ForInStep β)) :
    ForInStep β → SearchM σ ε V (ForInStep β)
  | .done acc => return .done acc
  | .yield acc => below acc

section Explore
variable (visitLoop : Nat → Branch V → β → LoopM σ ε V (ForInStep β))

/-- The loop comes to `act` with the path on top, and then to what is below it. -/
def Explores (path : Path V) (acc : β) (act : SearchM σ ε V (ForInStep β)) : Prop :=
  ∀ stack below,
    (∀ acc, ComesTo id (fun turns => exploreLoop oracle limit visitLoop turns stack acc)
      (below acc)) →
    ComesTo id (fun turns => exploreLoop oracle limit visitLoop turns (path :: stack) acc)
      (act >>= onward below)

variable {visitLoop}

/-- Paths on a stack are alternatives, tried one after the other. -/
theorem comes_to_try_each {explored : α → β → SearchM σ ε V (ForInStep β)} {path : α → Path V}
    (each : ∀ x acc, Explores oracle limit visitLoop (path x) acc (explored x acc)) (xs : List α)
    (below : β → SearchM σ ε V (ForInStep β))
    (rest : ∀ acc, ComesTo id (fun turns => exploreLoop oracle limit visitLoop turns stack acc)
      (below acc)) (acc : β) :
    ComesTo id (fun turns => exploreLoop oracle limit visitLoop turns (xs.map path ++ stack) acc)
      (tryEach explored xs acc >>= onward below) := by
  induction xs generalizing acc with
  | nil => exact rest acc
  | cons x xs ih =>
    have split : tryEach explored (x :: xs) acc >>= onward below =
        explored x acc >>= onward fun acc => tryEach explored xs acc >>= onward below := by
      rw [tryEach, bind_assoc]
      refine bind_congr fun step => ?_
      cases step <;> rfl
    rw [split]
    exact each x acc _ _ ih

theorem comes_to_explore {visit : Branch V → β → SearchM σ ε V (ForInStep β)}
    (visits : ∀ b acc, ComesTo id (fun turns => visitLoop turns b acc) (visit b acc))
    (pending : List (Equation V)) (b : Branch V) (acc : β) :
    Explores oracle limit visitLoop ⟨b, pending⟩ acc
      (explore oracle limit visit pending b acc) := by
  -- The measure is the search's own. What lies below is left open, since a fork leaves there
  -- its other alternatives.
  induction pending, b, acc using explore.induct with
  | case1 b acc =>
    intro stack below rest
    apply comes_to_turn
    rw [explore]
    simp only [exploreLoop]
    apply comes_to_bind (visits b acc)
    intro visited
    cases visited with
    | done acc => exact comes_to_pure (ForInStep.done acc)
    | yield acc => exact rest acc
  | case2 b acc later ih =>
    intro stack below rest
    apply comes_to_turn
    rw [explore]
    simp only [exploreLoop]
    exact ih stack below rest
  | case3 b acc later =>
    intro stack below rest
    apply comes_to_turn
    rw [explore, bind_assoc]
    simp only [exploreLoop]
    exact comes_to_bind (comes_to_ending _) fun _ => rest acc
  | case4 b acc later =>
    intro stack below rest
    apply comes_to_turn
    rw [explore, bind_assoc]
    simp only [exploreLoop]
    exact comes_to_bind (comes_to_ending _) fun _ => rest acc
  | case5 b acc a later atoms ih =>
    intro stack below rest
    apply comes_to_turn
    rw [explore, bind_assoc]
    simp only [exploreLoop]
    apply comes_to_bind (comes_to_propagate oracle atoms b.candidates)
    intro propagated
    rcases propagated with _ | ⟨candidates, reached⟩
    · exact rest acc
    · exact ih candidates stack below rest
  | case6 b acc es later ih =>
    intro stack below rest
    apply comes_to_turn
    rw [explore]
    simp only [exploreLoop]
    exact ih stack below rest
  | case7 b acc e later ih =>
    intro stack below rest
    apply comes_to_turn
    rw [explore]
    simp only [exploreLoop]
    exact ih stack below rest
  | case8 b acc es later several one ih =>
    intro stack below rest
    apply comes_to_turn
    rw [explore, bind_assoc]
    · have forks : (es.attach.map fun e => Path.mk b (e.1 :: later)) =
          es.map fun e => ⟨b, e :: later⟩ := by simp
      have each (e : { e // e ∈ es }) (acc : β) := ih acc e.1 e.2
      have alternatives := comes_to_try_each oracle limit each es.attach below rest acc
      rw [forks] at alternatives
      rcases es with _ | ⟨e, _ | ⟨e', es⟩⟩
      · exact (several rfl).elim
      · exact (one e rfl).elim
      · simp only [exploreLoop]
        exact comes_to_bind (comes_to_ending _) fun _ => alternatives
    all_goals first | exact several | exact one

/-- A stack with one path on it is worked off as that path is explored. -/
theorem comes_to_walk {visit : Branch V → β → SearchM σ ε V (ForInStep β)}
    (visits : ∀ b acc, ComesTo id (fun turns => visitLoop turns b acc) (visit b acc))
    (e : Equation V) (b : Branch V) (acc : β) :
    ComesTo id (fun turns => exploreLoop oracle limit visitLoop turns [⟨b, [e]⟩] acc)
      (explore oracle limit visit [e] b acc) := by
  have bottom (acc : β) :
      ComesTo id (fun turns => exploreLoop oracle limit visitLoop turns [] acc)
        (pure (.yield acc)) :=
    comes_to_turn (comes_to_pure _)
  have walked := comes_to_explore oracle limit visits [e] b acc [] _ bottom
  have nothing : onward (fun acc => (pure (.yield acc) : SearchM σ ε V (ForInStep β))) = pure := by
    funext step
    cases step <;> rfl
  rw [nothing, bind_pure] at walked
  exact walked

end Explore

theorem comes_to_solve (e : Equation V) (bound : List (VarId × V)) :
    ComesTo id (fun turns => solveLoop oracle limit turns e bound)
      (Equation.solveM oracle limit e bound) := by
  have visits (b : Branch V) (found : Option (Assignment V)) :
      ComesTo id (fun turns => visitFirstLoop oracle limit turns b found)
        (Equation.visitFirst oracle limit b found) := by
    apply comes_to_bind (comes_to_complete oracle limit b)
    intro completed
    cases completed <;> exact comes_to_pure _
  apply comes_to_bind (comes_to_walk oracle limit visits e _ none)
  intro walked
  dsimp only [id]
  cases walked.value with
  | some values => exact comes_to_pure (Outcome.solved values)
  | none => exact fun s => ⟨0, fun _ _ => rfl⟩

theorem comes_to_satisfiable (e : Equation V) (bound : List (VarId × V)) :
    ComesTo id (fun turns => satisfiableLoop oracle limit turns e bound)
      (Equation.satisfiableM oracle limit e bound) := by
  have visits (b : Branch V) (seen : Bool × Candidates V) :
      ComesTo id (fun turns => visitAllLoop oracle limit turns b seen)
        (Equation.visitAll oracle limit b seen) := by
    apply comes_to_bind (comes_to_complete oracle limit b)
    intro completed
    cases completed <;> exact comes_to_pure _
  exact comes_to_bind (comes_to_walk oracle limit visits e _ _) fun _ => comes_to_pure _

end Loops
end Solver

namespace Equation
open Solver
variable [DecidableEq V] [Hashable V]

/-- The loops of the search come to an end, whatever the limit on branches, and if there is
none. With turns enough none of them is cut short, labelling never begins on a variable
with fewer than two candidates, and what comes of it is the result of the search. -/
theorem loops_end (oracle : Oracle σ ε V) (config : SolverConfig) (e : Equation V)
    (bound : List (VarId × V)) (world : σ) :
    ∃ enough, ∀ turns, enough ≤ turns →
      solveLoop oracle config.maxBranches turns e bound (.start world) =
          some (solveM oracle config.maxBranches e bound (.start world)) ∧
        satisfiableLoop oracle config.maxBranches turns e bound (.start world) =
          some (satisfiableM oracle config.maxBranches e bound (.start world)) := by
  obtain ⟨few, solved⟩ :=
    ends_of_comes_to (comes_to_solve oracle config.maxBranches e bound) (.start world)
  obtain ⟨more, asked⟩ :=
    ends_of_comes_to (comes_to_satisfiable oracle config.maxBranches e bound) (.start world)
  refine ⟨max few more, fun turns many => ?_⟩
  obtain ⟨few, more⟩ := Nat.max_le.1 many
  exact ⟨solved turns few, asked turns more⟩

end Equation
end Trellis
