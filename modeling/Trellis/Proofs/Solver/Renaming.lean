import Trellis.Proofs.Solver.Engine

/-! Runs whose questions fail under other names. The solver does nothing with a failed
question but to stop there, so a run with an oracle that renames its failures is the run with
the oracle as it is, renamed at its end. Nothing else can tell the two apart: that there were
too many branches is said in the same words. -/
namespace Trellis
namespace Solver

/-- The same end, with a failed question under another name. -/
def Halt.map (f : ε → δ) : Halt ε → Halt δ
  | .tooManyBranches limit => .tooManyBranches limit
  | .predicate cause => .predicate (f cause)

variable [DecidableEq V] [Hashable V]

/-- In worlds where `W` holds the second action does what the first one does, except that a
failed question goes by the name `f` gives it, and `W` holds of the world that it gets to. -/
def Renames (W : σ → Prop) (f : ε → δ) (act : SearchM σ ε V α) (act' : SearchM σ δ V α) : Prop :=
  ∀ s, W s.world → act' s = ((act s).1.mapError (Halt.map f), (act s).2) ∧ W (act s).2.world

section Rules
variable {W : σ → Prop} {f : ε → δ}

theorem renames_pure (x : α) :
    Renames W f (pure x : SearchM σ ε V α) (pure x : SearchM σ δ V α) :=
  fun _ there => ⟨rfl, there⟩

theorem renames_bind {act : SearchM σ ε V α} {act' : SearchM σ δ V α}
    {next : α → SearchM σ ε V β} {next' : α → SearchM σ δ V β} (first : Renames W f act act')
    (rest : ∀ x, Renames W f (next x) (next' x)) :
    Renames W f (act >>= next) (act' >>= next') := by
  intro s there
  obtain ⟨same, further⟩ := first s there
  rw [bind_run, bind_run, same]
  rcases ran : act s with ⟨halt | x, t⟩ <;> rw [ran] at further
  · exact ⟨rfl, further⟩
  · exact rest x t further

theorem renames_charge (limit extra : Nat) :
    Renames W f (charge limit extra : SearchM σ ε V Unit) (charge limit extra) := by
  intro s there
  unfold charge
  dsimp only
  split
  · exact ⟨rfl, there⟩
  · exact ⟨rfl, there⟩

/-- A question that was answered before is not put again, so it has no name to change. -/
theorem renames_ask {oracle : Oracle σ ε V} {oracle' : Oracle σ δ V} {q : Query V}
    (renamed : ∀ world, W world →
      oracle' q world = ((oracle q world).1.mapError f, (oracle q world).2) ∧
        W (oracle q world).2) :
    Renames W f (ask oracle q) (ask oracle' q) := by
  intro s there
  obtain ⟨same, further⟩ := renamed s.world there
  unfold ask
  cases s.answers[q]? with
  | some known => exact ⟨rfl, there⟩
  | none =>
    dsimp only
    rw [same]
    rcases asked : oracle q s.world with ⟨cause | b, world⟩ <;> rw [asked] at further
    · exact ⟨rfl, further⟩
    · exact ⟨rfl, further⟩

end Rules
end Solver

open Solver in
/-- A run with an oracle that renames its failures is the run with the oracle as it is,
renamed. -/
theorem Equation.solve_renamed [DecidableEq V] [Hashable V] {W : σ → Prop} {f : ε → δ}
    {oracle : Oracle σ ε V} {oracle' : Oracle σ δ V} (config : SolverConfig) (e : Equation V)
    (bound : List (VarId × V)) {world : σ} (held : W world)
    (renamed : ∀ q world, W world →
      oracle' q world = ((oracle q world).1.mapError f, (oracle q world).2) ∧
        W (oracle q world).2) :
    e.solve oracle' config bound world =
        ((e.solve oracle config bound world).1.mapError (Halt.map f),
          (e.solve oracle config bound world).2) ∧
      W (e.solve oracle config bound world).2 := by
  have engines : Engine.Related (fun _ => Renames (V := V) W f)
      (.standard oracle config.maxBranches) (.standard oracle' config.maxBranches) :=
    { pure := renames_pure
      bind := renames_bind
      charge := renames_charge _
      giveUp := fun _ _ there => ⟨rfl, there⟩
      leaf := renames_pure () }
  have renames : Renames W f (solveM oracle config.maxBranches e bound)
      (solveM oracle' config.maxBranches e bound) := by
    rw [← Engine.solve_standard, ← Engine.solve_standard]
    refine renames_bind (Engine.first_related engines e (fun _ _ q _ => renames_ask (renamed q))
      bound) fun found => ?_
    cases found with
    | some values => exact renames_pure _
    | none => exact fun _ there => ⟨rfl, there⟩
  obtain ⟨same, further⟩ := renames (.start world) held
  refine ⟨?_, further⟩
  unfold solve
  rw [show (solveM oracle' config.maxBranches e bound).run (.start world) = _ from same]
  rfl

end Trellis
