import Trellis.Entity

/-! Chains of replacements as sequences. What a chain replaces, oldest first, tells everything
about it: how long it is, what stands in for an environment, and which other chains it equals. -/
namespace Trellis
namespace Rebindings

variable (r later : Rebindings) (env old new : EnvId)

theorem newestFirst_eq : r.newestFirst = r.pairs.reverse := (List.reverse_reverse _).symm

/-- Chains are told apart by what they replace, and by nothing about how they were made. -/
theorem eq_iff_pairs {r s : Rebindings} : r = s ↔ r.pairs = s.pairs := by
  refine ⟨fun same => congrArg pairs same, fun same => eq_of_newestFirst ?_⟩
  rw [newestFirst_eq, newestFirst_eq, same]

theorem length_eq : r.length = r.pairs.length := by
  rw [← r.counted, pairs, List.length_reverse]

theorem length_compose : (r.compose later).length = r.length + later.length := by
  simp only [length_eq, pairs_compose, List.length_append]

theorem pairs_pushAll (made : List (EnvId × EnvId)) : (r.pushAll made).pairs = r.pairs ++ made := by
  rw [pairs, newestFirst_pushAll, List.reverse_append, List.reverse_reverse, pairs]

/-- Every chain is made by pushing what it replaces. -/
theorem pushAll_pairs : none.pushAll r.pairs = r :=
  eq_iff_pairs.2 ((none.pairs_pushAll _).trans (List.nil_append _))

theorem standIn_push :
    (r.push old new).standIn env = if env = old then new else r.standIn env := by
  unfold standIn push
  dsimp only
  rw [List.lookup_cons]
  by_cases same : env = old
  · rw [beq_iff_eq.2 same, if_pos same, Option.getD_some]
  · rw [beq_eq_false_iff_ne.2 same, if_neg same]

/-- Where the later chain replaces an environment, the earlier one has no say. -/
theorem standIn_compose : (r.compose later).standIn env =
    if env ∈ later.pairs.map Prod.fst then later.standIn env else r.standIn env := by
  have replaced : env ∈ later.pairs.map Prod.fst ↔ (later.newestFirst.lookup env).isSome = true := by
    rw [List.lookup_isSome_iff, pairs, List.map_reverse, List.mem_reverse, List.mem_map]
    exact exists_congr fun p => and_congr_right fun _ => eq_comm.trans beq_iff_eq.symm
  unfold standIn
  rw [newestFirst_compose, List.lookup_append]
  split
  · next mem => rw [Option.or_of_isSome (replaced.1 mem)]
  · next free =>
    rw [Option.not_isSome_iff_eq_none.1 (mt replaced.2 free), Option.none_or]

/-- **Chains compose as sequences.** Every chain is a sequence of replacements, with the newest
one listed last, and composing chains puts their sequences one after the other. So composing is
associative, the chain without replacements is neutral, and lengths add up. The newest
replacement of an environment says what stands in for it, that of a later chain before that of
an earlier one. Chains are equal exactly if they replace the same in the same order. -/
theorem chains_are_sequences :
    (none.pairs = [] ∧ (∀ r old new, (push r old new).pairs = r.pairs ++ [(old, new)]) ∧
      ∀ r, none.pushAll r.pairs = r) ∧
    (∀ r s, (compose r s).pairs = r.pairs ++ s.pairs) ∧
    ((∀ r s t, (compose r s).compose t = r.compose (s.compose t)) ∧
      ∀ r, compose r none = r ∧ none.compose r = r) ∧
    (∀ r, length r = r.pairs.length ∧ ∀ s, (compose r s).length = r.length + s.length) ∧
    ((∀ env, none.standIn env = env) ∧
      (∀ r old new env, (push r old new).standIn env = if env = old then new else r.standIn env) ∧
      ∀ r s env, (compose r s).standIn env =
        if env ∈ s.pairs.map Prod.fst then s.standIn env else r.standIn env) ∧
    (∀ r, newestFirst r = r.pairs.reverse) ∧
    ∀ r s : Rebindings, (r == s) = true ↔ r.pairs = s.pairs :=
  ⟨⟨pairs_none, pairs_push, pushAll_pairs⟩, pairs_compose,
    ⟨compose_assoc, fun r => ⟨compose_none r, none_compose r⟩⟩,
    fun r => ⟨length_eq r, length_compose r⟩,
    ⟨fun _ => rfl, fun r old new env => standIn_push r env old new, standIn_compose⟩,
    newestFirst_eq, fun _ _ => beq_iff_eq.trans eq_iff_pairs⟩

end Rebindings
end Trellis
