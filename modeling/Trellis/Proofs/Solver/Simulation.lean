import Trellis.Proofs.Solver.Engine

/-! Two runs of the solver side by side. The solver looks at nothing of its oracle but
the answers to what the atoms ask, so two oracles that answer alike are asked alike,
whatever worlds they keep. What is known about the first run may concern its end, since
answers that were kept once are kept for good. -/
namespace Trellis

namespace Solver

variable [DecidableEq V] [Hashable V]

/-- Searches that have come equally far, with worlds that `r` relates. -/
structure Abreast (r : σ → τ → Prop) (s : Search σ V) (t : Search τ V) : Prop where
  world : r s.world t.world
  answers : t.answers = s.answers
  branches : t.branches = s.branches
  failure : t.failure = s.failure

/-- Whether an action went on to its end. It does unless a question went unanswered. -/
def answered : Except (Halt ε) α → Bool
  | .error (.predicate _) => false
  | _ => true

/-- The second action does what the first one does wherever the first one ends as `p`
says, and then `p` held of where it began. The worlds are related by `r true` as long as
questions are answered, and by `r false` once one was not. -/
structure Shadows (p : σ → Std.HashMap (Query V) Bool → Prop) (r : Bool → σ → τ → Prop)
    (act : SearchM σ ε V α) (act' : SearchM τ ε V α) : Prop where
  back : ∀ s, p (act s).2.world (act s).2.answers → p s.world s.answers
  along : ∀ s t, Abreast (r true) s t → p (act s).2.world (act s).2.answers →
    (act' t).1 = (act s).1 ∧ Abreast (r (answered (act s).1)) (act s).2 (act' t).2

/-- The answers that are known when one more question was put. -/
def noted (answers : Std.HashMap (Query V) Bool) (q : Query V) :
    Except ε Bool → Std.HashMap (Query V) Bool
  | .ok b => answers.insert q b
  | .error _ => answers

/-- The second oracle answers a new question as the first one does. -/
def Echoes (p : σ → Std.HashMap (Query V) Bool → Prop) (r : Bool → σ → τ → Prop)
    (oracle : Oracle σ ε V) (oracle' : Oracle τ ε V) (q : Query V) : Prop :=
  ∀ world answers, answers[q]? = none →
    p (oracle q world).2 (noted answers q (oracle q world).1) → p world answers ∧
      ∀ world', r true world world' → (oracle' q world').1 = (oracle q world).1 ∧
        r (oracle q world).1.isOk (oracle q world).2 (oracle' q world').2

variable {p : σ → Std.HashMap (Query V) Bool → Prop} {r : Bool → σ → τ → Prop}

theorem ask_known {oracle : Oracle σ ε V} {s : Search σ V} (known : s.answers[q]? = some b) :
    ask oracle q s = (.ok b, s) := by
  simp only [ask, known]

theorem ask_new {oracle : Oracle σ ε V} {s : Search σ V} (new : s.answers[q]? = none) :
    ask oracle q s = ((oracle q s.world).1.mapError .predicate,
      { s with
        world := (oracle q s.world).2
        answers := noted s.answers q (oracle q s.world).1 }) := by
  simp only [ask, new]
  rcases oracle q s.world with ⟨e | b, world⟩ <;> rfl

theorem answered_map_error (answer : Except ε Bool) :
    answered (answer.mapError Halt.predicate) = answer.isOk := by
  cases answer <;> rfl

theorem shadows_ask {oracle : Oracle σ ε V} {oracle' : Oracle τ ε V}
    (echoes : Echoes p r oracle oracle' q) : Shadows p r (ask oracle q) (ask oracle' q) where
  back s := by
    cases known : s.answers[q]? with
    | some b => rw [ask_known known]; exact id
    | none =>
      rw [ask_new known]
      exact fun ends => (echoes s.world s.answers known ends).1
  along s t abreast := by
    cases known : s.answers[q]? with
    | some b =>
      rw [ask_known known, ask_known (abreast.answers ▸ known)]
      exact fun _ => ⟨rfl, abreast⟩
    | none =>
      rw [ask_new known, ask_new (abreast.answers ▸ known)]
      intro ends
      obtain ⟨answer, related⟩ := (echoes s.world s.answers known ends).2 t.world abreast.world
      refine ⟨by rw [answer], ?_, ?_, abreast.branches, abreast.failure⟩
      · dsimp only
        rw [answered_map_error]
        exact related
      · dsimp only
        rw [answer, abreast.answers]

theorem shadows_pure (x : α) : Shadows p r (pure x : SearchM σ ε V α) (pure x) where
  back _ := id
  along _ _ abreast _ := ⟨rfl, abreast⟩

theorem shadows_bind {act : SearchM σ ε V α} {act' : SearchM τ ε V α}
    {next : α → SearchM σ ε V β} {next' : α → SearchM τ ε V β} (first : Shadows p r act act')
    (rest : ∀ x, Shadows p r (next x) (next' x)) :
    Shadows p r (act >>= next) (act' >>= next') where
  back s := by
    have before := first.back s
    rw [bind_run]
    rcases ran : act s with ⟨halt | x, u⟩ <;> rw [ran] at before
    · exact before
    · exact fun ends => before ((rest x).back u ends)
  along s t abreast := by
    have before := first.along s t abreast
    rw [bind_run, bind_run]
    rcases ran : act s with ⟨halt | x, u⟩ <;> rcases ran' : act' t with ⟨halt' | x', u'⟩ <;>
      rw [ran, ran'] at before <;> intro ends
    · obtain ⟨same, abreast⟩ := before ends
      cases same
      refine ⟨rfl, ?_⟩
      cases halt <;> exact abreast
    · cases (before ends).1
    · cases (before ((rest x).back u ends)).1
    · obtain ⟨same, abreast⟩ := before ((rest x).back u ends)
      cases same
      exact (rest x).along u u' abreast ends

/-- Where the searches are equally far, whatever is read off them is the same. -/
theorem shadows_read {f : Search σ V → α} {f' : Search τ V → α}
    (same : ∀ s t, Abreast (r true) s t → f' t = f s) :
    Shadows p r (do return f (← get) : SearchM σ ε V α) (do return f' (← get)) where
  back _ := id
  along s t abreast _ := ⟨congrArg Except.ok (same s t abreast), abreast⟩

theorem shadows_give_up (why : Inconsistency) :
    Shadows p r (giveUp why : SearchM σ ε V Unit) (giveUp why) where
  back _ := id
  along _ _ abreast _ := ⟨rfl, abreast.world, abreast.answers, abreast.branches, rfl⟩

theorem shadows_charge (limit extra : Nat) :
    Shadows p r (charge limit extra : SearchM σ ε V Unit) (charge limit extra) where
  back s := by
    simp only [charge]
    split <;> exact id
  along s t abreast _ := by
    have further : Abreast (r true) { s with branches := s.branches + extra }
        { t with branches := t.branches + extra } :=
      ⟨abreast.world, abreast.answers, congrArg (· + extra) abreast.branches, abreast.failure⟩
    simp only [charge, abreast.branches] at further ⊢
    split <;> exact ⟨rfl, further⟩

theorem shadows_sequential :
    Engine.Sequential fun α (act : SearchM σ ε V α) (act' : SearchM τ ε V α) =>
      Shadows p r act act' :=
  ⟨shadows_pure, shadows_bind⟩

theorem shadows_try_each {f : α → β → SearchM σ ε V (ForInStep β)}
    {f' : α → β → SearchM τ ε V (ForInStep β)} {xs : List α}
    (steps : ∀ x ∈ xs, ∀ acc, Shadows p r (f x acc) (f' x acc)) (acc : β) :
    Shadows p r (tryEach f xs acc) (tryEach f' xs acc) :=
  shadows_sequential.try_each steps acc

/-- The second oracle answers whatever these atoms ask as the first one does. -/
def EchoesAll (p : σ → Std.HashMap (Query V) Bool → Prop) (r : Bool → σ → τ → Prop)
    (oracle : Oracle σ ε V) (oracle' : Oracle τ ε V) (atoms : List (Atom V)) : Prop :=
  ∀ a ∈ atoms, ∀ q, a.Asks q → Echoes p r oracle oracle' q

section Solve
variable {oracle : Oracle σ ε V} {oracle' : Oracle τ ε V}

theorem standard_shadows (limit : Nat) :
    Engine.Related (fun _ => Shadows p r) (.standard oracle limit)
      (.standard oracle' limit) where
  toSequential := shadows_sequential
  charge := shadows_charge limit
  giveUp := shadows_give_up
  leaf := shadows_pure ()

theorem answers_of_echoes {atoms : List (Atom V)} (echoes : EchoesAll p r oracle oracle' atoms)
    (limit : Nat) : Engine.Answers (fun _ => Shadows p r) (.standard oracle limit)
      (.standard oracle' limit) atoms :=
  fun a mem q asks => shadows_ask (echoes a mem q asks)

theorem complete_shadows (limit : Nat) {b : Branch V}
    (echoes : EchoesAll p r oracle oracle' b.atoms) :
    Shadows p r (complete oracle limit b) (complete oracle' limit b) := by
  rw [← Engine.complete_standard, ← Engine.complete_standard]
  exact Engine.complete_related (standard_shadows limit) (answers_of_echoes echoes limit)

/-- The walk asks about the atoms of the branch and about those still to come. -/
theorem explore_shadows {visit : Branch V → β → SearchM σ ε V (ForInStep β)}
    {visit' : Branch V → β → SearchM τ ε V (ForInStep β)} (limit : Nat)
    (visits : ∀ b acc, Shadows p r (visit b acc) (visit' b acc))
    (pending : List (Equation V)) (b : Branch V) (acc : β)
    (echoes : EchoesAll p r oracle oracle' (b.atoms ++ pending.flatMap Equation.atoms)) :
    Shadows p r (explore oracle limit visit pending b acc)
      (explore oracle' limit visit' pending b acc) := by
  rw [← Engine.explore_standard, ← Engine.explore_standard]
  exact Engine.explore_related (standard_shadows limit) (fun b acc _ => visits b acc) pending b acc
    (answers_of_echoes echoes limit)

end Solve

end Solver

namespace Equation
open Solver

variable [DecidableEq V] [Hashable V] {p : σ → Std.HashMap (Query V) Bool → Prop}
  {r : Bool → σ → τ → Prop} {oracle : Oracle σ ε V} {oracle' : Oracle τ ε V}

theorem solve_shadows (e : Equation V) (echoes : EchoesAll p r oracle oracle' e.atoms)
    (limit : Nat) (bound : List (VarId × V)) :
    Shadows p r (solveM oracle limit e bound) (solveM oracle' limit e bound) := by
  rw [← Engine.solve_standard, ← Engine.solve_standard]
  apply shadows_bind
    (Engine.first_related (standard_shadows limit) e (answers_of_echoes echoes limit) bound)
  intro found
  cases found with
  | some values => exact shadows_pure _
  | none => exact shadows_read fun s t abreast => by rw [abreast.failure]

theorem satisfiable_shadows (e : Equation V) (echoes : EchoesAll p r oracle oracle' e.atoms)
    (limit : Nat) (bound : List (VarId × V)) :
    Shadows p r (satisfiableM oracle limit e bound) (satisfiableM oracle' limit e bound) := by
  rw [← Engine.satisfiable_standard, ← Engine.satisfiable_standard]
  exact Engine.satisfiable_related (standard_shadows limit) e (answers_of_echoes echoes limit) bound

/-- Solves whose oracles answer alike end alike. -/
theorem solve_along (e : Equation V) (echoes : EchoesAll p r oracle oracle' e.atoms)
    (config : SolverConfig) (bound : List (VarId × V)) (related : r true world world')
    (ends : let last := (solveM oracle config.maxBranches e bound (.start world)).2
      p last.world last.answers) :
    (e.solve oracle' config bound world').1 = (e.solve oracle config bound world).1 ∧
      r (answered (e.solve oracle config bound world).1)
        (e.solve oracle config bound world).2 (e.solve oracle' config bound world').2 := by
  have start : Abreast (r true) (.start world : Search σ V) (.start world') :=
    ⟨related, rfl, rfl, rfl⟩
  obtain ⟨same, abreast⟩ := (e.solve_shadows echoes _ bound).along _ _ start ends
  exact ⟨same, abreast.world⟩

theorem satisfiable_domains_along (e : Equation V) (echoes : EchoesAll p r oracle oracle' e.atoms)
    (config : SolverConfig) (bound : List (VarId × V)) (related : r true world world')
    (ends : let last := (satisfiableM oracle config.maxBranches e bound (.start world)).2
      p last.world last.answers) :
    (e.satisfiableDomains oracle' config bound world').1 =
        (e.satisfiableDomains oracle config bound world).1 ∧
      r (answered (e.satisfiableDomains oracle config bound world).1)
        (e.satisfiableDomains oracle config bound world).2
        (e.satisfiableDomains oracle' config bound world').2 := by
  have start : Abreast (r true) (.start world : Search σ V) (.start world') :=
    ⟨related, rfl, rfl, rfl⟩
  obtain ⟨same, abreast⟩ := (e.satisfiable_shadows echoes _ bound).along _ _ start ends
  exact ⟨same, abreast.world⟩

/-! ## What a solve does to the world of its oracle -/

theorem echoes_of_ends {W : Bool → σ → Prop}
    (asked : ∀ world, W true world → W (oracle q world).1.isOk (oracle q world).2) :
    Echoes (fun _ _ => True) (fun ok world world' => W ok world ∧ world' = world) oracle oracle
      q := by
  rintro world answers - -
  refine ⟨trivial, ?_⟩
  rintro _ ⟨held, same⟩
  subst same
  exact ⟨rfl, asked _ held, rfl⟩

theorem echoes_of_keeps {W : σ → Prop} (asked : ∀ world, W world → W (oracle q world).2) :
    Echoes (fun _ _ => True) (fun _ world world' => W world ∧ world' = world) oracle oracle q :=
  echoes_of_ends (W := fun _ => W) asked

section Ends
variable {W : Bool → σ → Prop}
  (asked : ∀ q world, W true world → W (oracle q world).1.isOk (oracle q world).2)
include asked

/-- A solve ends as its last question did, and as the others if all were answered. -/
theorem solve_ends (config : SolverConfig) (e : Equation V) (bound : List (VarId × V))
    (held : W true world) :
    W (answered (e.solve oracle config bound world).1) (e.solve oracle config bound world).2 :=
  (e.solve_along (fun _ _ q _ => echoes_of_ends (asked q)) config bound ⟨held, rfl⟩ trivial).2.1

/-- So does asking for the candidates. -/
theorem satisfiable_domains_ends (config : SolverConfig) (e : Equation V)
    (bound : List (VarId × V)) (held : W true world) :
    W (answered (e.satisfiableDomains oracle config bound world).1)
      (e.satisfiableDomains oracle config bound world).2 :=
  (e.satisfiable_domains_along (fun _ _ q _ => echoes_of_ends (asked q)) config bound
    ⟨held, rfl⟩ trivial).2.1

end Ends

variable {W : σ → Prop} (asked : ∀ q world, W world → W (oracle q world).2)
include asked

/-- A solve keeps what every question to the oracle keeps. -/
theorem solve_keeps (config : SolverConfig) (e : Equation V) (bound : List (VarId × V))
    (held : W world) : W (e.solve oracle config bound world).2 :=
  solve_ends (W := fun _ => W) asked config e bound held

end Equation

/-! ## The questions that are put -/

section Recording
open Solver
variable [DecidableEq V] [Hashable V]

/-- The same oracle, keeping a record of the questions that were put to it, each with
the world in which that was done. -/
def Solver.recording (oracle : Oracle σ ε V) : Oracle (σ × List (Query V × σ)) ε V :=
  fun q (world, log) => ((oracle q world).1, (oracle q world).2, log ++ [(q, world)])

/-- The questions that a solve puts, in order. -/
def Equation.solveCalls (oracle : Oracle σ ε V) (config : SolverConfig) (e : Equation V)
    (bound : List (VarId × V)) (world : σ) : List (Query V × σ) :=
  (e.solve (recording oracle) config bound (world, [])).2.2

/-- The questions that asking for the candidates puts, in order. -/
def Equation.domainsCalls (oracle : Oracle σ ε V) (config : SolverConfig) (e : Equation V)
    (bound : List (VarId × V)) (world : σ) : List (Query V × σ) :=
  (e.satisfiableDomains (recording oracle) config bound (world, [])).2.2

theorem Solver.echoes_of_recording (oracle : Oracle σ ε V) (q : Query V) :
    Echoes (fun _ _ => True) (fun _ recorded world => world = recorded.1) (recording oracle) oracle
      q := by
  rintro ⟨world, log⟩ answers - -
  refine ⟨trivial, ?_⟩
  rintro _ rfl
  exact ⟨rfl, rfl⟩

/-- Keeping a record changes nothing else. -/
theorem Equation.solve_recorded (e : Equation V) (oracle : Oracle σ ε V) (config : SolverConfig)
    (bound : List (VarId × V)) (world : σ) (log : List (Query V × σ)) :
    let recorded := e.solve (recording oracle) config bound (world, log)
    e.solve oracle config bound world = (recorded.1, recorded.2.1) := by
  have start : world = (world, log).1 := rfl
  obtain ⟨same, worlds⟩ :=
    e.solve_along (fun _ _ q _ => echoes_of_recording oracle q) config bound start trivial
  exact Prod.ext same worlds

theorem Equation.satisfiable_domains_recorded (e : Equation V) (oracle : Oracle σ ε V)
    (config : SolverConfig) (bound : List (VarId × V)) (world : σ) (log : List (Query V × σ)) :
    let recorded := e.satisfiableDomains (recording oracle) config bound (world, log)
    e.satisfiableDomains oracle config bound world = (recorded.1, recorded.2.1) := by
  have start : world = (world, log).1 := rfl
  obtain ⟨same, worlds⟩ := e.satisfiable_domains_along
    (fun _ _ q _ => echoes_of_recording oracle q) config bound start trivial
  exact Prod.ext same worlds

/-- For a solve nothing counts but the questions that it puts: where they are all answered
alike it ends alike, and what each of them keeps it keeps. -/
theorem Equation.solve_by_calls {oracle oracle' : Oracle σ ε V} {config : SolverConfig}
    {e : Equation V} {bound : List (VarId × V)} {world : σ} {W : σ → Prop} (held : W world)
    (keeps : ∀ p ∈ e.solveCalls oracle config bound world, W p.2 → W (oracle p.1 p.2).2)
    (alike : ∀ p ∈ e.solveCalls oracle config bound world, oracle' p.1 p.2 = oracle p.1 p.2) :
    e.solve oracle' config bound world = e.solve oracle config bound world ∧
      W (e.solve oracle config bound world).2 := by
  let put (p : Query V × σ) : Prop := p ∈ e.solveCalls oracle config bound world
  have echoes (q : Query V) :
      Echoes (fun recorded _ => ∀ p ∈ recorded.2, put p)
        (fun _ recorded other => W recorded.1 ∧ recorded.1 = other) (recording oracle) oracle'
        q := by
    rintro ⟨now, log⟩ answers - all
    refine ⟨fun p mem => all p (List.mem_append_left _ mem), ?_⟩
    rintro _ ⟨there, rfl⟩
    have among : put (q, now) := all _ (List.mem_append_right _ (List.mem_singleton.2 rfl))
    have same : oracle' q now = oracle q now := alike _ among
    exact ⟨congrArg Prod.fst same, keeps _ among there, (congrArg Prod.snd same).symm⟩
  let log : List (Query V × σ) := []
  have start : W (world, log).1 ∧ (world, log).1 = world := ⟨held, rfl⟩
  obtain ⟨same, there, worlds⟩ :=
    e.solve_along (fun _ _ q _ => echoes q) config bound start fun p mem => mem
  rw [e.solve_recorded oracle config bound world []]
  exact ⟨Prod.ext same worlds.symm, there⟩

end Recording

/-! ## Answers as those of a fixed function -/

section Fixed
open Solver
variable [DecidableEq V] [Hashable V]

/-- Whenever the oracle answers, the answer is what is so. -/
def Solver.corrected (holds : Query V → Bool) (oracle : Oracle σ ε V) : Oracle σ ε V :=
  fun q world => ((oracle q world).1.map fun _ => holds q, (oracle q world).2)

omit [DecidableEq V] [Hashable V] in
theorem Solver.answer_of_corrected (holds : Query V → Bool) (oracle : Oracle σ ε V) (q : Query V)
    (world : σ) (b : Bool) (answered : (corrected holds oracle q world).1 = .ok b) :
    b = holds q := by
  unfold corrected at answered
  rcases asked : oracle q world with ⟨e | c, later⟩ <;> rw [asked] at answered <;> cases answered
  rfl

/-- No question is put twice, so whatever answers a run gets might have been those of
a fixed function. -/
theorem Equation.run_as_fixed (e : Equation V) (oracle : Oracle σ ε V) (limit : Nat)
    (bound : List (VarId × V)) (world : σ) :
    ∃ holds, (solveM (corrected holds oracle) limit e bound (.start world)).1 =
        (solveM oracle limit e bound (.start world)).1 ∧
      Abreast (fun world world' => world' = world) (solveM oracle limit e bound (.start world)).2
        (solveM (corrected holds oracle) limit e bound (.start world)).2 := by
  let last := (solveM oracle limit e bound (.start world)).2.answers
  let holds (q : Query V) : Bool := last[q]?.getD false
  let told (answers : Std.HashMap (Query V) Bool) : Prop :=
    ∀ q b, answers[q]? = some b → holds q = b
  have echoes (q : Query V) :
      Echoes (fun _ => told) (fun _ world world' => world' = world) oracle (corrected holds oracle)
        q := by
    intro world answers new ends
    unfold corrected
    rcases asked : oracle q world with ⟨e | b, later⟩ <;> rw [asked] at ends
    · refine ⟨ends, ?_⟩
      rintro _ rfl
      rw [asked]
      exact ⟨rfl, rfl⟩
    · refine ⟨fun other c known => ends other c ?_, ?_⟩
      · have different : ¬(q == other) = true := by
          intro same
          rw [← eq_of_beq same, new] at known
          cases known
        rw [noted, Std.HashMap.getElem?_insert, if_neg different, known]
      · rintro _ rfl
        have answer : holds q = b := ends q b (by simp [noted])
        rw [asked]
        exact ⟨congrArg Except.ok answer, rfl⟩
  have ends : told last := fun q b known => by simp [holds, known]
  have start : Abreast (fun world world' => world' = world) (.start world : Search σ V)
    (.start world) := ⟨rfl, rfl, rfl, rfl⟩
  exact ⟨holds, (e.solve_shadows (fun _ _ q _ => echoes q) limit bound).along _ _ start ends⟩

/-- So might those of a solve, which ends alike. -/
theorem Equation.solve_as_fixed (e : Equation V) (oracle : Oracle σ ε V) (config : SolverConfig)
    (bound : List (VarId × V)) (world : σ) :
    ∃ holds, e.solve (corrected holds oracle) config bound world =
      e.solve oracle config bound world := by
  obtain ⟨holds, same, abreast⟩ := e.run_as_fixed oracle config.maxBranches bound world
  exact ⟨holds, Prod.ext same abreast.world⟩

end Fixed
end Trellis
