import Trellis.Proofs.Solver.Choices
import Trellis.Proofs.Solver.Simulation

/-! Answers that are kept, and the same search without keeping any. When each question has
a fixed answer, or fixedly none, both searches end alike; what is kept only spares
questions, and a question that goes unanswered ends the search, so it is never repeated. -/
namespace Trellis
namespace Solver

/-- An oracle with one answer to each question, or one reason why it gives none. What
becomes of its world meanwhile is left open. -/
def steady (f : Query V → Except ε Bool) (next : Query V → σ → σ) : Oracle σ ε V :=
  fun q world => (f q, next q world)

variable [DecidableEq V] [Hashable V]

/-- Put a question whether or not it was put before, and keep no answer. -/
def askAfresh (oracle : Oracle σ ε V) (q : Query V) : SearchM σ ε V Bool := fun s =>
  ((oracle q s.world).1.mapError .predicate, { s with world := (oracle q s.world).2 })

/-- The solver's engine without the answers kept. -/
def Engine.forgetful (oracle : Oracle σ ε V) (limit : Nat) : Engine (SearchM σ ε V) V :=
  { standard oracle limit with ask := askAfresh oracle }

/-- The questions put so far. -/
def Search.asked (s : Search (σ × List (Query V × σ)) V) : List (Query V) := s.world.2.map (·.1)

end Solver

namespace Equation
open Solver
variable [DecidableEq V] [Hashable V]

/-- Solve without keeping answers: the outcome, and the questions in order. -/
def solveAfresh (oracle : Oracle σ ε V) (config : SolverConfig) (e : Equation V)
    (bound : List (VarId × V)) (world : σ) : Except (Halt ε) (Outcome V) × List (Query V) :=
  let (result, s) := (Engine.forgetful (recording oracle) config.maxBranches).solve e bound
    (.start (world, []))
  (result, s.asked)

/-- Ask for the candidates without keeping answers. -/
def domainsAfresh (oracle : Oracle σ ε V) (config : SolverConfig) (e : Equation V)
    (bound : List (VarId × V)) (world : σ) :
    Except (Halt ε) (Option (Domains V)) × List (Query V) :=
  let (result, s) := (Engine.forgetful (recording oracle) config.maxBranches).satisfiable e bound
    (.start (world, []))
  (result, s.asked)

end Equation

namespace Solver
variable [DecidableEq V] [Hashable V]

/-- Of two searches that have come equally far the first one kept its answers. Each
question was answered, and the answers kept are those to the questions put. -/
structure Abridges (f : Query V → Except ε Bool) (s t : Search (σ × List (Query V × σ)) V) :
    Prop where
  branches : t.branches = s.branches
  failure : t.failure = s.failure
  asked : s.asked = t.asked.eraseDups
  kept : ∀ q b, s.answers[q]? = some b ↔ q ∈ t.asked ∧ f q = .ok b
  answered : ∀ q ∈ t.asked, ∃ b, f q = .ok b

/-- Both searches stopped at a question that went unanswered. -/
def StoppedAt (f : Query V → Except ε Bool) (cause : ε)
    (s t : Search (σ × List (Query V × σ)) V) : Prop :=
  ∃ before q, t.asked = before ++ [q] ∧ s.asked = before.eraseDups ++ [q] ∧
    f q = .error cause ∧ ∀ p ∈ before, ∃ b, f p = .ok b

/-- The first program keeps answers, the second one does not, and they end alike. -/
def Abridged (f : Query V → Except ε Bool) (act act' : SearchM (σ × List (Query V × σ)) ε V α) :
    Prop :=
  ∀ s t, Abridges f s t → (act' t).1 = (act s).1 ∧ match (act s).1 with
    | .error (.predicate cause) => StoppedAt f cause (act s).2 (act' t).2
    | _ => Abridges f (act s).2 (act' t).2

variable {f : Query V → Except ε Bool} {next : Query V → σ → σ}

theorem abridged_pure (x : α) :
    Abridged f (pure x : SearchM (σ × List (Query V × σ)) ε V α) (pure x) :=
  fun _ _ abridges => ⟨rfl, abridges⟩

theorem abridged_bind {act act' : SearchM (σ × List (Query V × σ)) ε V α}
    {rest rest' : α → SearchM (σ × List (Query V × σ)) ε V β} (first : Abridged f act act')
    (later : ∀ x, Abridged f (rest x) (rest' x)) :
    Abridged f (act >>= rest) (act' >>= rest') := by
  intro s t abridges
  obtain ⟨same, ended⟩ := first s t abridges
  rw [bind_run, bind_run]
  rcases ran : act s with ⟨halt | x, u⟩ <;> rcases ran' : act' t with ⟨halt' | x', u'⟩ <;>
    rw [ran, ran'] at same ended <;> cases same
  · cases halt <;> exact ⟨rfl, ended⟩
  · exact later x u u' ended

theorem abridged_charge (limit extra : Nat) :
    Abridged f (charge limit extra : SearchM (σ × List (Query V × σ)) ε V Unit)
      (charge limit extra) := by
  intro s t abridges
  have further : Abridges f { s with branches := s.branches + extra }
      { t with branches := t.branches + extra } :=
    ⟨congrArg (· + extra) abridges.branches, abridges.failure, abridges.asked, abridges.kept,
      abridges.answered⟩
  simp only [charge, abridges.branches] at further ⊢
  split <;> exact ⟨rfl, further⟩

theorem abridged_give_up (why : Inconsistency) :
    Abridged f (giveUp why : SearchM (σ × List (Query V × σ)) ε V Unit) (giveUp why) :=
  fun _ _ abridges =>
    ⟨rfl, abridges.branches, rfl, abridges.asked, abridges.kept, abridges.answered⟩

theorem abridged_failure (g : Option Inconsistency → α) :
    Abridged f (do return g (← get).failure : SearchM (σ × List (Query V × σ)) ε V α)
      (do return g (← get).failure) :=
  fun _ _ abridges => ⟨congrArg (fun why => Except.ok (g why)) abridges.failure, abridges⟩

omit [Hashable V] in
private theorem erase_dups_concat (qs : List (Query V)) (q : Query V) :
    (qs ++ [q]).eraseDups = if q ∈ qs then qs.eraseDups else qs.eraseDups ++ [q] := by
  rw [List.eraseDups_append]
  by_cases mem : q ∈ qs <;> simp [List.removeAll, mem, List.eraseDups_cons]

theorem ask_afresh_eq (oracle : Oracle σ ε V) (q : Query V)
    (s : Search (σ × List (Query V × σ)) V) :
    (askAfresh (recording oracle) q s).1 = (oracle q s.world.1).1.mapError .predicate ∧
      (askAfresh (recording oracle) q s).2.asked = s.asked ++ [q] ∧
      (askAfresh (recording oracle) q s).2.branches = s.branches ∧
      (askAfresh (recording oracle) q s).2.failure = s.failure := by
  simp [askAfresh, recording, Search.asked]

/-- A question that was put before is spared; a new one is put by both. -/
theorem abridged_ask (q : Query V) :
    Abridged f (ask (recording (steady f next)) q) (askAfresh (recording (steady f next)) q) := by
  intro s t abridges
  obtain ⟨result, asked, branches, failure⟩ := ask_afresh_eq (steady f next) q t
  have branches := branches.trans abridges.branches
  have failure := failure.trans abridges.failure
  generalize askAfresh (recording (steady f next)) q t = afresh at result asked branches failure
  change afresh.1 = (f q).mapError .predicate at result
  cases known : s.answers[q]? with
  | some b =>
    obtain ⟨mem, answer⟩ := (abridges.kept q b).1 known
    rw [answer] at result
    rw [ask_known known]
    refine ⟨result, branches, failure, ?_, fun p c => ?_, fun p among => ?_⟩
    · rw [asked, erase_dups_concat, if_pos mem]
      exact abridges.asked
    · rw [abridges.kept p c, asked, List.mem_append, List.mem_singleton]
      exact and_congr_left fun _ => ⟨.inl, fun h => h.elim id (· ▸ mem)⟩
    · rw [asked, List.mem_append, List.mem_singleton] at among
      exact among.elim (abridges.answered p) fun same => ⟨b, same ▸ answer⟩
  | none =>
    -- every answer is kept, so what has none kept was not put by the other search either
    have new : q ∉ t.asked := by
      intro mem
      obtain ⟨b, answer⟩ := abridges.answered q mem
      rw [(abridges.kept q b).2 ⟨mem, answer⟩] at known
      cases known
    have asks : (ask (recording (steady f next)) q s).2.asked = s.asked ++ [q] := by
      simp [ask_new known, Search.asked, recording]
    rw [ask_new known] at asks ⊢
    refine ⟨result, ?_⟩
    dsimp only [recording, steady] at asks ⊢
    cases answer : f q with
    | ok b =>
      refine ⟨branches, failure, ?_, fun p c => ?_, fun p among => ?_⟩
      · rw [answer] at asks
        rw [asks, asked, erase_dups_concat, if_neg new, abridges.asked]
      · rw [asked, List.mem_append, List.mem_singleton, noted, Std.HashMap.getElem?_insert]
        split
        · next same =>
          obtain rfl : q = p := eq_of_beq same
          simp [answer]
        · next different =>
          have other : p ≠ q := fun same => different (beq_iff_eq.2 same.symm)
          simp [abridges.kept p c, other]
      · rw [asked, List.mem_append, List.mem_singleton] at among
        exact among.elim (abridges.answered p) fun same => ⟨b, same ▸ answer⟩
    | error cause =>
      rw [answer] at asks
      exact ⟨t.asked, q, asked, by rw [asks, abridges.asked], answer, abridges.answered⟩

theorem standard_abridged (limit : Nat) :
    Engine.Related (fun _ => Abridged f)
      (.standard (recording (steady f next)) limit)
      (.forgetful (recording (steady f next)) limit) where
  pure := abridged_pure
  bind := abridged_bind
  charge := abridged_charge limit
  giveUp := abridged_give_up
  leaf := abridged_pure ()

theorem abridges_start (world : σ) :
    Abridges f (.start (world, []) : Search (σ × List (Query V × σ)) V) (.start (world, [])) := by
  refine ⟨rfl, rfl, rfl, fun q b => ?_, fun q among => ?_⟩
  · simp [Search.start, Search.asked]
  · simp [Search.start, Search.asked] at among

/-- What keeping answers comes to for a run, given what the run without them would be. No
question is put twice, none after one that went unanswered, and the run ends as the
other one; of whose questions it puts the first ones only. -/
structure Spares (f : Query V → Except ε Bool) (calls : List (Query V))
    (result : Except (Halt ε) α) (afresh : Except (Halt ε) α × List (Query V)) : Prop where
  distinct : calls.Nodup
  last : ∀ before q after cause, calls = before ++ q :: after → f q = .error cause →
    after = [] ∧ result = .error (.predicate cause)
  result : result = afresh.1
  calls : calls = afresh.2.eraseDups

/-- No question that was put before the last one went unanswered. -/
theorem Abridges.spares {s t : Search (σ × List (Query V × σ)) V} (abridges : Abridges f s t)
    (result : Except (Halt ε) α) : Spares f s.asked result (result, t.asked) where
  distinct := abridges.asked ▸ nodup_eraseDups _
  last before q after cause parts failed := by
    have mem : q ∈ t.asked := by
      rw [← List.mem_eraseDups, ← abridges.asked, parts]
      simp
    obtain ⟨b, answer⟩ := abridges.answered q mem
    rw [answer] at failed
    cases failed
  result := rfl
  calls := abridges.asked

theorem StoppedAt.spares {s t : Search (σ × List (Query V × σ)) V}
    (stopped : StoppedAt f cause s t) :
    Spares f s.asked (.error (.predicate cause) : Except (Halt ε) α)
      (.error (.predicate cause), t.asked) := by
  obtain ⟨earlier, q, asked, put, failed, answered⟩ := stopped
  have new : q ∉ earlier := by
    intro mem
    obtain ⟨b, answer⟩ := answered q mem
    rw [answer] at failed
    cases failed
  have calls : s.asked = t.asked.eraseDups := by
    rw [put, asked, erase_dups_concat, if_neg new]
  refine ⟨calls ▸ nodup_eraseDups _, fun before p after other parts unanswered => ?_, rfl, calls⟩
  rw [put] at parts
  rcases List.eq_nil_or_concat after with rfl | ⟨rest, x, rfl⟩
  · obtain ⟨-, same⟩ := List.append_inj' parts rfl
    cases same
    rw [failed] at unanswered
    cases unanswered
    exact ⟨rfl, rfl⟩
  · -- another question follows, so that this one was answered
    have parts : earlier.eraseDups ++ [q] = (before ++ p :: rest) ++ [x] := by simpa using parts
    obtain ⟨here, -⟩ := List.append_inj' parts rfl
    have mem : p ∈ earlier := by
      rw [← List.mem_eraseDups, here]
      simp
    obtain ⟨b, answer⟩ := answered p mem
    rw [answer] at unanswered
    cases unanswered

theorem spares_of_abridged {act act' : SearchM (σ × List (Query V × σ)) ε V α}
    (abridged : Abridged f act act') (world : σ) :
    Spares f (act (.start (world, []))).2.asked (act (.start (world, []))).1
      ((act' (.start (world, []))).1, (act' (.start (world, []))).2.asked) := by
  obtain ⟨same, ended⟩ := abridged _ _ (abridges_start world)
  rcases ran : act (.start (world, [])) with ⟨(limit | cause) | x, s⟩ <;>
    rw [ran] at same ended <;> rw [same]
  · exact Abridges.spares ended _
  · exact StoppedAt.spares ended
  · exact Abridges.spares ended _

end Solver

namespace Equation
open Solver
variable [DecidableEq V] [Hashable V] (f : Query V → Except ε Bool) (next : Query V → σ → σ)

theorem solve_abridged (limit : Nat) (e : Equation V) (bound : List (VarId × V)) :
    Abridged f (solveM (recording (steady f next)) limit e bound)
      ((Engine.forgetful (recording (steady f next)) limit).solve e bound) := by
  rw [← Engine.solve_standard]
  apply abridged_bind
    (Engine.first_related (standard_abridged limit) e (fun _ _ q _ => abridged_ask q) bound)
  intro found
  cases found with
  | some values => exact abridged_pure _
  | none => exact abridged_failure fun why => Outcome.failed (why.getD .contradiction)

theorem satisfiable_abridged (limit : Nat) (e : Equation V) (bound : List (VarId × V)) :
    Abridged f (satisfiableM (recording (steady f next)) limit e bound)
      ((Engine.forgetful (recording (steady f next)) limit).satisfiable e bound) := by
  rw [← Engine.satisfiable_standard]
  exact Engine.satisfiable_related (standard_abridged limit) e (fun _ _ q _ => abridged_ask q) bound

/-- Keeping answers only spares questions. -/
theorem kept_answers_spare_questions (config : SolverConfig) (e : Equation V)
    (bound : List (VarId × V)) (world : σ) :
    Spares f ((e.solveCalls (steady f next) config bound world).map (·.1))
        (e.solve (steady f next) config bound world).1
        (e.solveAfresh (steady f next) config bound world) ∧
      Spares f ((e.domainsCalls (steady f next) config bound world).map (·.1))
        (e.satisfiableDomains (steady f next) config bound world).1
        (e.domainsAfresh (steady f next) config bound world) := by
  rw [e.solve_recorded _ config bound world [],
    e.satisfiable_domains_recorded _ config bound world []]
  exact ⟨spares_of_abridged (solve_abridged f next config.maxBranches e bound) world,
    spares_of_abridged (satisfiable_abridged f next config.maxBranches e bound) world⟩

end Equation
end Trellis
