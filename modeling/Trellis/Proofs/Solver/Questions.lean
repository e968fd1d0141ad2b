import Trellis.Proofs.Solver.Simulation

/-! The questions of a run: what they are about, in which worlds they are put, and that a
run which gives no answer ran out of branches or ends at one of them. Any action of the solver
keeps a record of which this is so, by a rule for each way of putting actions together. -/
namespace Trellis
namespace Solver
variable [DecidableEq V] [Hashable V]

/-- A record of questions about these atoms, put in worlds where `W` holds; it holds now. -/
structure Records (W : σ → Prop) (atoms : List (Atom V)) (world : σ × List (Query V × σ)) :
    Prop where
  now : W world.1
  put : ∀ p ∈ world.2, (∃ a ∈ atoms, a.Asks p.1) ∧ W p.2

/-- Why a run gave no answer: it ran out of branches, or a recorded question failed. -/
def Explains (oracle : Oracle σ ε V) (limit : Nat) (log : List (Query V × σ)) (halt : Halt ε) :
    Prop :=
  halt = .tooManyBranches limit ∨
    ∃ p ∈ log, ∃ cause, halt = .predicate cause ∧ (oracle p.1 p.2).1 = .error cause

/-- The action keeps such a record, and the record explains why it gave no answer. -/
def KeepsRecord (W : σ → Prop) (atoms : List (Atom V)) (oracle : Oracle σ ε V) (limit : Nat)
    (act : SearchM (σ × List (Query V × σ)) ε V α) : Prop :=
  ∀ s, Records W atoms s.world → Records W atoms (act s).2.world ∧
    ∀ halt, (act s).1 = .error halt → Explains oracle limit (act s).2.world.2 halt

section Rules
variable {W : σ → Prop} {atoms : List (Atom V)} {oracle : Oracle σ ε V} {limit : Nat}

theorem records_pure (x : α) : KeepsRecord W atoms oracle limit
    (pure x : SearchM (σ × List (Query V × σ)) ε V α) :=
  fun _ records => ⟨records, nofun⟩

theorem records_bind {act : SearchM (σ × List (Query V × σ)) ε V α}
    {next : α → SearchM (σ × List (Query V × σ)) ε V β}
    (first : KeepsRecord W atoms oracle limit act)
    (rest : ∀ x, KeepsRecord W atoms oracle limit (next x)) :
    KeepsRecord W atoms oracle limit (act >>= next) := by
  intro s records
  obtain ⟨further, explained⟩ := first s records
  rw [bind_run]
  rcases ran : act s with ⟨halt | x, t⟩ <;> rw [ran] at further explained
  · refine ⟨further, ?_⟩
    rintro _ ⟨⟩
    exact explained halt rfl
  · exact rest x t further

theorem records_charge (extra : Nat) : KeepsRecord W atoms oracle limit
    (charge limit extra : SearchM (σ × List (Query V × σ)) ε V Unit) := by
  intro s records
  unfold charge
  dsimp only
  split
  · refine ⟨records, ?_⟩
    rintro _ ⟨⟩
    exact .inl rfl
  · exact ⟨records, nofun⟩

theorem records_read (f : Search (σ × List (Query V × σ)) V → α) :
    KeepsRecord W atoms oracle limit (do return f (← get)) :=
  fun _ records => ⟨records, nofun⟩

/-- A question that was not put before is put now. -/
theorem records_ask {a : Atom V} {q : Query V} (among : a ∈ atoms) (asks : a.Asks q)
    (keeps : ∀ world, W world → W (oracle q world).2) :
    KeepsRecord W atoms oracle limit (ask (recording oracle) q) := by
  intro s records
  cases known : s.answers[q]? with
  | some b =>
    rw [ask_known known]
    exact ⟨records, nofun⟩
  | none =>
    rw [ask_new known]
    have put : Records W atoms (recording oracle q s.world).2 := by
      refine ⟨keeps _ records.now, fun p mem => ?_⟩
      rcases List.mem_append.1 mem with earlier | last
      · exact records.put p earlier
      · rw [List.mem_singleton.1 last]
        exact ⟨⟨a, among, asks⟩, records.now⟩
    refine ⟨put, fun halt failed => .inr ?_⟩
    change (oracle q s.world.1).1.mapError .predicate = .error halt at failed
    refine ⟨(q, s.world.1), List.mem_append_right _ (List.mem_singleton.2 rfl), ?_⟩
    cases asked : (oracle q s.world.1).1 with
    | ok b =>
      rw [asked] at failed
      cases failed
    | error cause =>
      rw [asked] at failed
      cases failed
      exact ⟨cause, rfl, rfl⟩

theorem standard_records : Engine.Related
    (fun _ (act act' : SearchM (σ × List (Query V × σ)) ε V _) =>
      act' = act ∧ KeepsRecord W atoms oracle limit act)
    (.standard (recording oracle) limit) (.standard (recording oracle) limit) where
  pure x := ⟨rfl, records_pure x⟩
  bind first rest := by
    obtain ⟨rfl, first⟩ := first
    exact ⟨congrArg _ (funext fun x => (rest x).1), records_bind first fun x => (rest x).2⟩
  charge extra := ⟨rfl, records_charge extra⟩
  giveUp _ := ⟨rfl, fun _ records => ⟨records, nofun⟩⟩
  leaf := ⟨rfl, records_pure ()⟩

end Rules
end Solver

namespace Equation
open Solver
variable [DecidableEq V] [Hashable V] {oracle : Oracle σ ε V} {W : σ → Prop} {world : σ}

/-- The questions of a run are about the atoms of its equation and put in worlds that it
gets to, and one of them failed unless there were too many branches. -/
structure Accounts (oracle : Oracle σ ε V) (W : σ → Prop) (config : SolverConfig) (e : Equation V)
    (calls : List (Query V × σ)) (result : Except (Halt ε) α) : Prop where
  put : ∀ p ∈ calls, (∃ a ∈ e.atoms, a.Asks p.1) ∧ W p.2
  halted : ∀ halt, result = .error halt → Explains oracle config.maxBranches calls halt

variable (config : SolverConfig) (e : Equation V) (bound : List (VarId × V)) (held : W world)
  (keeps : ∀ a ∈ e.atoms, ∀ q, a.Asks q → ∀ world, W world → W (oracle q world).2)
include held keeps

theorem solve_accounts : Accounts oracle W config e (e.solveCalls oracle config bound world)
    (e.solve oracle config bound world).1 := by
  have records : KeepsRecord W e.atoms oracle config.maxBranches
      (solveM (recording oracle) config.maxBranches e bound) := by
    rw [← Engine.solve_standard]
    refine records_bind (Engine.first_related standard_records e
      (fun a among q asks => ⟨rfl, records_ask among asks (keeps a among q asks)⟩) bound).2
      fun found => ?_
    cases found with
    | some values => exact records_pure _
    | none => exact records_read fun s => Outcome.failed (s.failure.getD .contradiction)
  obtain ⟨put, halted⟩ := records (.start (world, [])) ⟨held, nofun⟩
  rw [e.solve_recorded oracle config bound world []]
  exact ⟨put.put, halted⟩

theorem domains_accounts : Accounts oracle W config e (e.domainsCalls oracle config bound world)
    (e.satisfiableDomains oracle config bound world).1 := by
  have records : KeepsRecord W e.atoms oracle config.maxBranches
      (satisfiableM (recording oracle) config.maxBranches e bound) := by
    rw [← Engine.satisfiable_standard]
    exact (Engine.satisfiable_related standard_records e
      (fun a among q asks => ⟨rfl, records_ask among asks (keeps a among q asks)⟩) bound).2
  obtain ⟨put, halted⟩ := records (.start (world, [])) ⟨held, nofun⟩
  rw [e.satisfiable_domains_recorded oracle config bound world []]
  exact ⟨put.put, halted⟩

end Equation
end Trellis
