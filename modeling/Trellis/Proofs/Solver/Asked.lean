import Trellis.Proofs.Solver.Simulation

/-! Which questions a solve can ask. The solver asks an oracle only about the
predicates of the atoms it has collected; what the oracle would have said to any
other question, and what it would have done meanwhile, makes no difference. -/
namespace Trellis

namespace Solver

/-- Two oracles that cannot be told apart by what these atoms ask. -/
def Agree (oracle oracle' : Oracle σ ε V) (atoms : List (Atom V)) : Prop :=
  ∀ a ∈ atoms, ∀ q, a.Asks q → oracle q = oracle' q

variable [DecidableEq V] [Hashable V] {oracle oracle' : Oracle σ ε V}

theorem bind_of_ok {act : SearchM σ ε V α} {next : α → SearchM σ ε V β} {s t : Search σ V}
    (answered : act s = (.ok a, t)) : (act >>= next) s = next a t := by
  rw [bind_run, answered]

theorem bind_of_error {act : SearchM σ ε V α} {next : α → SearchM σ ε V β} {s t : Search σ V}
    (halted : act s = (.error halt, t)) : (act >>= next) s = (.error halt, t) := by
  rw [bind_run, halted]

omit [DecidableEq V] [Hashable V] in
theorem narrow_fresh {c : Candidates V} (listed : v ∈ c.vars) (free : c.get? v = none) (x : V) :
    narrow c v [x] = .tightened (c.put v [x] listed) (c.put_supplied listed free _) := by
  unfold narrow
  split
  · next held => rw [free] at held; cases held
  · rw [dif_pos listed]
    rfl

omit [DecidableEq V] [Hashable V] in
theorem narrow_single {c : Candidates V} (held : c.get? v = some [x]) :
    narrow c v [x] = .unchanged := by
  unfold narrow
  split
  · next old there =>
    obtain rfl : [x] = old := Option.some.inj (held.symm.trans there)
    simp
  · next there => rw [held] at there; cases there

omit [DecidableEq V] [Hashable V] in
theorem narrow_emptied_of_held {c : Candidates V} (held : c.get? v = some old) :
    narrow c v [] = .emptied v := by
  unfold narrow
  split
  · rfl
  · next there => rw [held] at there; cases there

/-- A variable's only candidate given once more changes nothing. -/
theorem round_given_again {c : Candidates V} (held : c.get? v = some [x]) (origin : Option Site)
    (atoms : List (Atom V)) :
    round oracle (.domain v [x] origin :: atoms) c = round oracle atoms c := by
  have kept := narrow_single held
  simp [round, applyAtom, held, kept]

/-- A variable without candidates takes the one that it is given. -/
theorem propagate_fresh {c : Candidates V} (listed : v ∈ c.vars) (free : c.get? v = none) (x : V)
    (origin : Option Site) :
    ∃ reached, propagate oracle [.domain v [x] origin] c =
      pure (some ⟨c.put v [x] listed, reached⟩) := by
  have supplied := narrow_fresh listed free x
  have held : (c.put v [x] listed).get? v = some [x] := by rw [Candidates.get?_put, if_pos rfl]
  have moved : round oracle [.domain v [x] origin] c =
      pure (.moved (c.put v [x] listed) (c.put_supplied listed free _)) := by
    simp [round, applyAtom, free, supplied, List.eraseDups_cons, Round.after]
  have settled : propagate oracle [.domain v [x] origin] (c.put v [x] listed) =
      pure (some ⟨c.put v [x] listed, .inl rfl⟩) := by
    rw [propagate_settled]
    exact round_given_again held origin []
  refine ⟨.inr (c.put_supplied listed free _), ?_⟩
  rw [propagate, moved, pure_bind]
  dsimp only
  rw [settled]
  rfl

/-- A filter asks about the only candidate, and the failing answer ends the propagation. -/
theorem propagate_failing_filter {c : Candidates V} {s t : Search σ V}
    (held : c.get? v = some [x]) (failed : ask oracle (.unary p x) s = (.error halt, t))
    (given asked : Option Site) :
    propagate oracle [.domain v [x] given, .predicate v p asked] c s = (.error halt, t) := by
  have filtered : keepIf (fun y => ask oracle (.unary p y)) [x] s = (.error halt, t) :=
    bind_of_error failed
  rw [propagate, round_given_again held given]
  refine bind_of_error ?_
  simp only [round, applyAtom, held]
  exact bind_of_error (bind_of_error filtered)

/-- A filter that lets the only candidate pass changes nothing. -/
theorem propagate_passing_filter {c : Candidates V} {s t : Search σ V}
    (held : c.get? v = some [x]) (passed : ask oracle (.unary p x) s = (.ok true, t))
    (given asked : Option Site) :
    propagate oracle [.domain v [x] given, .predicate v p asked] c s =
      (.ok (some ⟨c, .inl rfl⟩), t) := by
  have filtered : keepIf (fun y => ask oracle (.unary p y)) [x] s = (.ok [x], t) := by
    rw [keepIf, bind_run, passed]
    rfl
  have kept : applyAtom oracle c (.predicate v p asked) s = (.ok .unchanged, t) := by
    simp only [applyAtom, held]
    rw [bind_run, filtered]
    exact congrArg (fun effect => (Except.ok effect, t)) (narrow_single held)
  have settled : round oracle [.predicate v p asked] c s = (.ok .settled, t) := by
    rw [round, bind_run, kept]
    rfl
  rw [propagate, round_given_again held given, bind_run, settled]
  rfl

/-- A filter that rejects the only candidate leaves none. -/
theorem propagate_rejecting_filter {c : Candidates V} {s t : Search σ V}
    (held : c.get? v = some [x]) (rejected : ask oracle (.unary p x) s = (.ok false, t))
    (given asked : Option Site) :
    propagate oracle [.domain v [x] given, .predicate v p asked] c s =
      (.ok none, { t with failure := some (.emptyDomain v asked) }) := by
  have filtered : keepIf (fun y => ask oracle (.unary p y)) [x] s = (.ok [], t) := by
    rw [keepIf, bind_run, rejected]
    rfl
  have emptied : applyAtom oracle c (.predicate v p asked) s = (.ok (.emptied v), t) := by
    simp only [applyAtom, held]
    rw [bind_run, filtered]
    exact congrArg (fun effect => (Except.ok effect, t)) (narrow_emptied_of_held held)
  have dead : round oracle [.predicate v p asked] c s =
      (.ok .dead, { t with failure := some (.emptyDomain v asked) }) := by
    rw [round, bind_run, emptied]
    rfl
  rw [propagate, round_given_again held given, bind_run, dead]
  rfl

/-- A branch with a single variable that has a single candidate is labelled as it is. -/
theorem visit_first_single {b : Branch V} (listed : b.candidates.vars = [v])
    (mentioned : b.atoms.any (·.mentions v) = true) (held : b.candidates.get? v = some [x])
    (limit : Nat) (found : Option (Assignment V)) :
    Equation.visitFirst oracle limit b found = pure (.done (some [(v, x)])) := by
  have vars : b.vars = [v] := by
    rw [Branch.vars_eq, listed]
    simp [mentioned]
  have decided : undecided? b.candidates [v] = none := by
    unfold undecided?
    split
    · next values known =>
      obtain rfl : values = [x] := Option.some.inj (known.symm.trans held)
      rfl
    · rfl
  have ended : complete oracle limit b = pure (some b.candidates) := by
    unfold complete
    rw [vars, List.find?_cons, held]
    dsimp only [Option.isNone_some, List.find?_nil]
    rw [label, decided]
  rw [Equation.visitFirst, ended, pure_bind]
  simp [Equation.assignment, vars, held]

end Solver

namespace Equation
open Solver
variable [DecidableEq V] [Hashable V] {oracle oracle' : Oracle σ ε V}

/-- A solve depends on the oracle for nothing but what the atoms of its equation ask. -/
theorem solve_congr (e : Equation V) (agree : Agree oracle oracle' e.atoms)
    (config : SolverConfig) (bound : List (VarId × V)) :
    e.solve oracle config bound = e.solve oracle' config bound := by
  have echoes : EchoesAll (fun _ _ => True) (fun _ world world' => world' = world) oracle oracle'
      e.atoms := by
    rintro a mem q asks world answers - -
    refine ⟨trivial, ?_⟩
    rintro _ rfl
    rw [agree a mem q asks]
    exact ⟨rfl, rfl⟩
  funext world
  obtain ⟨same, worlds⟩ := e.solve_along echoes config bound (rfl : world = world) trivial
  exact (Prod.ext same worlds).symm

/-- What is asked does count: a variable is given a candidate, a filter asks about it,
and the solve ends as the answer fails. -/
theorem solve_of_failing_filter {cause : ε} {world world' : σ} {v : VarId} {x : V} {p : PredId}
    (failed : oracle (.unary p x) world = (.error cause, world')) (given asked : Option Site)
    (config : SolverConfig) :
    (Equation.and [.atom (.domain v [x] given), .atom (.predicate v p asked)]).solve oracle config
      [] world = (.error (.predicate cause), world') := by
  let e : Equation V := .and [.atom (.domain v [x] given), .atom (.predicate v p asked)]
  let c : Candidates V := .unknown e.vars
  let s : Search σ V := .start world
  let t : Search σ V := { s with world := world' }
  have listed : v ∈ c.vars := by
    simp [c, e, Candidates.unknown, vars, atoms, Atom.vars, List.eraseDups_cons]
  have free : c.get? v = none := by simp [c, Candidates.unknown, Candidates.get?]
  have question : ask oracle (.unary p x) s = (.error (.predicate cause), t) := by
    simp [ask, s, t, Search.start, failed]
  have stopped : propagate oracle [.domain v [x] given, .predicate v p asked]
      (c.put v [x] listed) s = (.error (.predicate cause), t) :=
    propagate_failing_filter (by rw [Candidates.get?_put, if_pos rfl]) question given asked
  obtain ⟨reached, supplied⟩ := propagate_fresh listed free x given
  have walked (limit : Nat) (visit : Branch V → Option (Assignment V) → _) :
      explore oracle limit visit [e] (e.start []) none s = (.error (.predicate cause), t) := by
    rw [explore]
    show explore oracle limit visit [.atom (.domain v [x] given), .atom (.predicate v p asked)]
      ⟨[], c⟩ none s = _
    rw [explore]
    show (propagate oracle [.domain v [x] given] c >>= _) s = _
    rw [supplied, pure_bind]
    show explore oracle limit visit [.atom (.predicate v p asked)] _ none s = _
    rw [explore]
    exact bind_of_error stopped
  have ran : solveM oracle config.maxBranches e [] s = (.error (.predicate cause), t) :=
    bind_of_error (walked _ _)
  show ((solveM oracle config.maxBranches e [] s).1,
    (solveM oracle config.maxBranches e [] s).2.world) = _
  rw [ran]

/-- The walk gives a variable its first candidate. -/
private theorem explore_given {c : Candidates V} (listed : v ∈ c.vars) (free : c.get? v = none)
    (x : V) (given : Option Site) (rest : List (Equation V)) (limit : Nat)
    (visit : Branch V → β → SearchM σ ε V (ForInStep β)) (acc : β) :
    explore oracle limit visit (.atom (.domain v [x] given) :: rest) ⟨[], c⟩ acc =
      explore oracle limit visit rest ⟨[.domain v [x] given], c.put v [x] listed⟩ acc := by
  obtain ⟨reached, supplied⟩ := propagate_fresh listed free x given
  rw [explore]
  show (propagate oracle [.domain v [x] given] c >>= _) = _
  rw [supplied, pure_bind]
  rfl

section Single
variable (v : VarId) (x : V)

omit [DecidableEq V] [Hashable V] in
private theorem unknown_listed : v ∈ (Candidates.unknown [v] : Candidates V).vars :=
  List.mem_cons_self

omit [DecidableEq V] [Hashable V] in
private theorem unknown_free : (Candidates.unknown [v] : Candidates V).get? v = none := by
  simp [Candidates.unknown, Candidates.get?]

omit [DecidableEq V] [Hashable V] in
private theorem given_held :
    ((Candidates.unknown [v] : Candidates V).put v [x] (unknown_listed v)).get? v = some [x] := by
  rw [Candidates.get?_put, if_pos rfl]

/-- A variable is given its only candidate and takes it. -/
theorem solve_of_candidate (oracle : Oracle σ ε V) (given : Option Site) (config : SolverConfig)
    (world : σ) :
    (Equation.atom (.domain v [x] given)).solve oracle config [] world =
      (.ok (.solved [(v, x)]), world) := by
  let e : Equation V := .atom (.domain v [x] given)
  have start : e.start [] = ⟨[], .unknown [v]⟩ := by
    simp [e, Equation.start, vars, atoms, Atom.vars, List.eraseDups_cons]
  have walked : explore oracle config.maxBranches (visitFirst oracle config.maxBranches) [e]
      (e.start []) none = pure (.done (some [(v, x)])) := by
    rw [start, explore_given (unknown_listed v) (unknown_free v), explore]
    exact visit_first_single rfl (by simp [Atom.mentions, Atom.vars]) (given_held v x) _ _
  unfold solve solveM
  rw [walked]
  rfl

variable {v x}

/-- A variable is given a candidate, and takes it if the filter that asks about it lets
it pass. -/
theorem solve_of_passing_filter {world world' : σ} {p : PredId}
    (passed : oracle (.unary p x) world = (.ok true, world')) (given asked : Option Site)
    (config : SolverConfig) :
    (Equation.and [.atom (.domain v [x] given), .atom (.predicate v p asked)]).solve oracle config
      [] world = (.ok (.solved [(v, x)]), world') := by
  let e : Equation V := .and [.atom (.domain v [x] given), .atom (.predicate v p asked)]
  let s : Search σ V := .start world
  let t : Search σ V := ⟨world', s.answers.insert (.unary p x) true, 1, none⟩
  have start : e.start [] = ⟨[], .unknown [v]⟩ := by
    simp [e, Equation.start, vars, atoms, Atom.vars, List.eraseDups_cons]
  have question : ask oracle (.unary p x) s = (.ok true, t) := by
    simp [ask, s, t, Search.start, passed]
  have walked : explore oracle config.maxBranches (visitFirst oracle config.maxBranches) [e]
      (e.start []) none s = (.ok (.done (some [(v, x)])), t) := by
    rw [start, explore]
    show explore _ _ _ [.atom (.domain v [x] given), .atom (.predicate v p asked)] _ _ s = _
    rw [explore_given (unknown_listed v) (unknown_free v), explore]
    refine (bind_of_ok (propagate_passing_filter (given_held v x) question given asked)).trans ?_
    show explore _ _ _ [] _ _ t = _
    rw [explore, visit_first_single rfl (by simp [Atom.mentions, Atom.vars]) (given_held v x)]
    rfl
  show ((solveM oracle config.maxBranches e [] s).1,
    (solveM oracle config.maxBranches e [] s).2.world) = _
  rw [solveM, bind_run, walked]
  rfl

/-- A variable is given a candidate, and the filter that asks about it rejects it. -/
theorem solve_of_rejecting_filter {world world' : σ} {p : PredId}
    (rejected : oracle (.unary p x) world = (.ok false, world')) (given asked : Option Site)
    (config : SolverConfig) :
    (Equation.and [.atom (.domain v [x] given), .atom (.predicate v p asked)]).solve oracle config
      [] world = (.ok (.failed (.emptyDomain v asked)), world') := by
  let e : Equation V := .and [.atom (.domain v [x] given), .atom (.predicate v p asked)]
  let s : Search σ V := .start world
  let t : Search σ V := ⟨world', s.answers.insert (.unary p x) false, 1, none⟩
  have start : e.start [] = ⟨[], .unknown [v]⟩ := by
    simp [e, Equation.start, vars, atoms, Atom.vars, List.eraseDups_cons]
  have question : ask oracle (.unary p x) s = (.ok false, t) := by
    simp [ask, s, t, Search.start, rejected]
  have walked : explore oracle config.maxBranches (visitFirst oracle config.maxBranches) [e]
      (e.start []) none s =
      (.ok (.yield none), { t with failure := some (.emptyDomain v asked) }) := by
    rw [start, explore]
    show explore _ _ _ [.atom (.domain v [x] given), .atom (.predicate v p asked)] _ _ s = _
    rw [explore_given (unknown_listed v) (unknown_free v), explore]
    exact bind_of_ok (propagate_rejecting_filter (given_held v x) question given asked)
  show ((solveM oracle config.maxBranches e [] s).1,
    (solveM oracle config.maxBranches e [] s).2.world) = _
  rw [solveM, bind_run, walked]
  rfl

end Single

end Equation
end Trellis
