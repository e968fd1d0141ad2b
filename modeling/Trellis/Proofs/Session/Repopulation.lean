import Trellis.Proofs.Forest
import Trellis.Proofs.Session.Repeats

/-! To populate a subtree again. Before anything else a population looks whether a node of the
subtree has its environments, parents before children. Only then does it refuse with the
node it found, and it leaves nothing behind but a report: what fails later, in the middle of
the subtree, is something else. -/
namespace Trellis

namespace Tree

/-- Whether a node has its environments. -/
def Populated (t : Tree) (n : NodeId) : Prop := (t.node? n).any Node.isPopulated

instance (t : Tree) (n : NodeId) : Decidable (t.Populated n) :=
  inferInstanceAs (Decidable ((t.node? n).any Node.isPopulated = true))

/-- The node `n` is the first populated one from `root` on, in the order of the walk. -/
def FirstPopulated (t : Tree) (root n : NodeId) : Prop :=
  ∃ before after, t.preorder root = before ++ n :: after ∧ t.Populated n ∧
    ∀ k ∈ before, ¬ t.Populated k

variable {t : Tree} {root : NodeId}

theorem first_below_populated (n : NodeId) :
    t.firstBelow Node.isPopulated root = some n ↔ t.FirstPopulated root n := by
  rw [firstBelow_eq, List.find?_eq_some_iff_append]
  constructor
  · rintro ⟨populated, before, after, walk, none_⟩
    exact ⟨before, after, walk, populated, fun k mem => by simpa [Populated] using none_ k mem⟩
  · rintro ⟨before, after, walk, populated, none_⟩
    exact ⟨populated, before, after, walk, fun k mem => by simpa [Populated] using none_ k mem⟩

/-- There is a first populated node if there is a populated one at all. -/
theorem first_populated_exists :
    (∃ n, t.FirstPopulated root n) ↔ ∃ k, t.Below root k ∧ t.Populated k := by
  simp only [← first_below_populated, firstBelow_eq, ← Option.isSome_iff_exists, List.find?_isSome,
    mem_preorder, Populated]

/-- A populated node is one of the tree, and so is every node it is below. -/
theorem known_of_first_populated {n : NodeId} (first : t.FirstPopulated root n) :
    ∃ node, t.node root = .ok node := by
  unfold node
  cases held : t.node? root with
  | some node => exact ⟨node, rfl⟩
  | none =>
    -- A handle that names no node has nothing below it but itself.
    obtain ⟨k, below, populated⟩ := first_populated_exists.1 ⟨n, first⟩
    rcases Relation.ReflTransGen.cases_head below with rfl | ⟨c, child, -⟩
    · simp [Populated, held] at populated
    · simp [Holds, childList, held] at child

theorem first_populated_eq (n : NodeId) :
    t.firstPopulated root = .ok (some n) ↔ t.FirstPopulated root n := by
  rw [← first_below_populated]
  constructor
  · intro found
    unfold firstPopulated at found
    cases held : t.node root with
    | error e => rw [held] at found; cases found
    | ok node => rw [held] at found; exact Except.ok.inj found
  · intro found
    obtain ⟨node, held⟩ := known_of_first_populated ((first_below_populated n).1 found)
    unfold firstPopulated
    rw [held, found]
    rfl

end Tree

namespace SessionM
variable {P : ε → Prop}

/-- Whatever an action fails with is among certain errors. -/
def FailsWith (P : ε → Prop) (act : SessionM ε α) : Prop :=
  ∀ s e, (act s).1 = .error (.failure e) → P e

theorem fails_with_bind {act : SessionM ε α} {next : α → SessionM ε β} (first : FailsWith P act)
    (rest : ∀ a, FailsWith P (next a)) : FailsWith P (act >>= next) := by
  intro s e failed
  rw [run_bind] at failed
  rcases ran : act s with ⟨halt | a, t⟩
  · rw [ran] at failed
    cases failed
    exact first s e (by rw [ran])
  · rw [ran] at failed
    exact rest a t e failed

theorem fails_with_read (f : Session → α) : FailsWith P (read f) := nofun

theorem fails_with_pure (a : α) : FailsWith P (pure a : SessionM ε α) := nofun

theorem fails_with_modify (f : Session → Session) : FailsWith P (modify f : SessionM ε PUnit) :=
  nofun

theorem fails_with_map_error {Q : δ → Prop} {f : ε → δ} (act : SessionM ε α)
    (each : ∀ e, Q (f e)) : FailsWith Q (mapError f act) := by
  intro s e failed
  unfold mapError at failed
  rcases ran : act s with ⟨(_ | _) | a, t⟩
  · rw [ran] at failed
    cases failed
    exact each _
  · rw [ran] at failed
    cases failed
  · rw [ran] at failed
    cases failed

theorem fails_with_for {act : α → SessionM ε Unit} {xs : List α}
    (each : ∀ x ∈ xs, FailsWith P (act x)) : FailsWith P (xs.forM act) := by
  induction xs with
  | nil => exact fails_with_pure _
  | cons x rest ih =>
    exact fails_with_bind (each x List.mem_cons_self)
      fun _ => ih fun y mem => each y (List.mem_cons_of_mem x mem)

end SessionM

section Population
variable {S : Setting} {m : Machine}

open SessionM

/-- What a population can fail with once it has begun. -/
def PopulateError.Begun (e : PopulateError) : Prop := ∀ n, e ≠ .alreadyPopulated n

theorem of_tree_begun (e : Except TreeError α) : FailsWith PopulateError.Begun
    (PopulateM.ofTree e) := by
  cases e with
  | ok a => exact fails_with_pure a
  | error e =>
    intro s e failed
    cases failed
    exact nofun

theorem populate_node_begun (n : NodeId) (ambient : EnvId) :
    FailsWith PopulateError.Begun (populateNode S m n ambient) := by
  rw [populateNode]
  refine fails_with_bind (fails_with_read _) fun _ => ?_
  refine fails_with_bind (of_tree_begun _) fun node => ?_
  refine fails_with_bind (fails_with_read _) fun children => ?_
  have populate (envs : NodeEnvs) : FailsWith PopulateError.Begun (do
      let tree ← PopulateM.ofTree (← SessionM.read fun s => s.tree.setEnvs n envs)
      modify ({ · with tree })
      children.forM fun c => populateNode S m c.1 envs.inner) := by
    refine fails_with_bind (fails_with_read _) fun _ => ?_
    refine fails_with_bind (of_tree_begun _) fun tree => ?_
    refine fails_with_bind (fails_with_modify _) fun _ => ?_
    exact fails_with_for fun c _ => populate_node_begun c.1 envs.inner
  dsimp only
  split
  · exact fails_with_bind (fails_with_map_error _ fun _ => nofun) populate
  · exact populate _
termination_by n.raw
decreasing_by exact c.2

end Population

/-- **To populate again is refused without effect.** A population is refused with a node
exactly if that is the first populated one of the subtree, in the order of the walk; there is
such a node exactly if any node of the subtree is populated, however deep down and whatever
else is. All that is left of the attempt then is one report about the node: the tree with its
variables, the environments, those of units, the remembered results and everything else are
what they were. -/
theorem populate_refused_iff (S : Setting) (m : Machine) (s : Session) (root : NodeId) :
    (∀ n t, populateWith S m root s = (.error (.failure (.alreadyPopulated n)), t) ↔
      s.tree.FirstPopulated root n ∧
        let text := "environments of " ++ n.text ++ " are already populated"
        t = { s with bag := s.bag.report ⟨.K2003, .error, text, s.nodeLocation n⟩ }) ∧
    ((∃ n, s.tree.FirstPopulated root n) ↔ ∃ k, s.tree.Below root k ∧ s.tree.Populated k) := by
  refine ⟨fun n t => ?_, Tree.first_populated_exists⟩
  rw [populate_with_eq, ← Tree.first_populated_eq]
  rcases s.tree.firstPopulated root with e | (_ | k)
  · exact iff_of_false (fun refused => by cases refused) (fun first => by cases first.1)
  · refine iff_of_false (fun refused => ?_) (fun first => by cases first.1)
    have begun (n k : NodeId) (ambient : EnvId) (u : Session) :
        populateNode S m n ambient u ≠ (.error (.failure (.alreadyPopulated k)), t) :=
      fun refused => populate_node_begun n ambient u _ (congrArg Prod.fst refused) k rfl
    dsimp only at refused
    split at refused
    · cases refused
    · split at refused
      · exact begun _ _ _ _ refused
      · exact begun _ _ _ _ refused
  · rw [Except.ok.injEq, Option.some.injEq]
    constructor
    · intro refused
      cases refused
      exact ⟨rfl, rfl⟩
    · rintro ⟨rfl, rfl⟩
      rfl

/-- A leaf has been populated by itself. The list that has it is not populated any more. -/
theorem populate_refused_iff_of_leaf :
    let s := Session.hung (some ⟨⟨1⟩, ⟨1⟩⟩) none none [.opened none (some ⟨0⟩)]
    s.tree.preorder ⟨2⟩ = [⟨2⟩, ⟨0⟩] ∧ ¬ s.tree.Populated ⟨2⟩ ∧ s.tree.Populated ⟨0⟩ ∧
    ∀ S m, ∃ d : Diagnostic, d.code = .K2003 ∧ populateWith S m ⟨2⟩ s =
      (.error (.failure (.alreadyPopulated ⟨0⟩)), { s with bag := s.bag.report d }) := by
  intro s
  have leaf : s.tree.preorder ⟨0⟩ = [⟨0⟩] := by
    rw [Tree.preorder_eq]
    rfl
  have walk : s.tree.preorder ⟨2⟩ = [⟨2⟩, ⟨0⟩] := by
    rw [Tree.preorder_eq]
    show ⟨2⟩ :: ([⟨0⟩].flatMap s.tree.preorder) = _
    rw [List.flatMap_singleton, leaf]
  have list : ¬ s.tree.Populated ⟨2⟩ := by decide
  have populated : s.tree.Populated ⟨0⟩ := by decide
  have first : s.tree.FirstPopulated ⟨2⟩ ⟨0⟩ :=
    ⟨[⟨2⟩], [], walk, populated, fun k mem => by rwa [List.mem_singleton.1 mem]⟩
  refine ⟨walk, list, populated, fun S m => ?_⟩
  obtain ⟨refused, -⟩ := populate_refused_iff S m s ⟨2⟩
  exact ⟨_, rfl, (refused ⟨0⟩ _).2 ⟨first, rfl⟩⟩

end Trellis
