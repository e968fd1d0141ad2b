import Trellis.Proofs.DynVars
import Trellis.Proofs.Session.Calls
import Trellis.Proofs.Session.Reachable

/-! What a call sees of the dynamic variables that are bound when it is made. It
works on the bindings of the variables that its property declares, and from them
the key under which the result is remembered is made as well. Two sets that cannot
be told apart by the declared variables therefore lead to the same result, and leave
the same session behind. The order in which a set was put together does not matter
either: what counts of the bindings of a variable is the last one. -/
namespace Trellis

namespace DynVars

/-- Two ways to bind variables agree on some of them if both bind all of these, to
the same values, or if both lack the same one first. -/
def Agree (vars : List DynVarId) (bound bound' : DynVarId → Option Value) : Prop :=
  (∀ var ∈ vars, ∃ value, bound var = some value ∧ bound' var = some value) ∨
  ∃ var, firstMissing bound vars = some var ∧ firstMissing bound' vars = some var

/-- To agree is to be cut down to the same. -/
theorem restrict_eq_iff {d e : DynVars} :
    d.restrict vars = e.restrict vars ↔ Agree vars d.get? e.get? := by
  constructor
  · intro same
    cases cut : d.restrict vars with
    | ok kept =>
      refine .inl fun var mem => ?_
      have ofD : kept.get? var = d.get? var := get?_of_restrictOnto cut mem
      have ofE : kept.get? var = e.get? var := get?_of_restrictOnto (same.symm.trans cut) mem
      obtain ⟨value, bound⟩ := Option.isSome_iff_exists.1 (bound_of_restrictOnto cut var mem)
      exact ⟨value, bound, by rw [← ofE, ofD, bound]⟩
    | error var =>
      exact .inr ⟨var, restrictOnto_error_iff.1 cut,
        restrictOnto_error_iff.1 (same.symm.trans cut)⟩
  · rintro (bound | ⟨var, missing, missing'⟩)
    · refine restrictOnto_congr none fun var mem => ?_
      obtain ⟨value, ofD, ofE⟩ := bound var mem
      rw [ofD, ofE]
    · exact (restrictOnto_error_iff.2 missing).trans (restrictOnto_error_iff.2 missing').symm

end DynVars

namespace EvalM

/-- A call sees no more of the bindings than the cut of them that its property declares. -/
theorem call_with_congr {d e : DynVars} (S : Setting) (m : Machine) (entity : Entity)
    (args : List Value)
    (same : ∀ info, S.language.property? prop = some info →
      d.restrict info.dynVars = e.restrict info.dynVars) :
    callWith S m entity prop args d = callWith S m entity prop args e := by
  unfold callWith callUnclaimed
  cases known : S.language.property? prop with
  | none => simp only [known]
  | some info => simp only [known, same info known]

end EvalM

open EvalM DynVars

/-- Only the variables that a property declares have an influence on a call of it. Of
two sets of bindings that agree on these, put together in any way and whatever else
they bind, the call gives the same result or the same error, and leaves the same
session. -/
theorem call_blind_to_undeclared (S : Setting) (depth : Nat) (s : Session) (entity : Entity)
    (prop : PropId) (args : List Value) (xs ys : List (DynVarId × Value))
    (agree : ∀ info, S.language.property? prop = some info →
      Agree info.dynVars (xs.reverse.lookup ·) (ys.reverse.lookup ·)) :
    (Machine.upTo S depth).call entity prop args (.ofList xs) s =
      (Machine.upTo S depth).call entity prop args (.ofList ys) s := by
  cases depth with
  | zero => rfl
  | succ n =>
    have same : ∀ info, S.language.property? prop = some info →
        (ofList xs).restrict info.dynVars = (ofList ys).restrict info.dynVars := by
      intro info known
      rw [restrict_eq_iff, get?_ofList, get?_ofList]
      exact agree info known
    exact congrFun (call_with_congr S (.upTo S n) entity args same) s

/-- A kind with one property, which is remembered, and gives what the one dynamic
variable that it declares is bound to. -/
def Language.scaling : Language where
  kinds := #[⟨⟨0⟩, "Leaf", none, false, [], false, false, [], [⟨0⟩], .caller⟩]
  properties := #[⟨⟨0⟩, "scale", ⟨0⟩, [], .int, [⟨1⟩], true, true, [0], .caller⟩]
  implementations := #[⟨⟨0⟩, ⟨0⟩, .expr (.dynVar ⟨1⟩), .caller⟩]
  dynVars := #[⟨⟨0⟩, "verbose", .bool, .caller⟩, ⟨⟨1⟩, "factor", .int, .caller⟩]
  envSpecs := #[]
  metadata := none
  table := #[#[some (.runs 0)]]
  warnings := []

theorem scaled_alike_of_bindings_in_any_order :
    let S : Setting := ⟨.scaling, .standard⟩
    let s := [Operation.newUnit "", .addNode ⟨0⟩ ⟨0⟩ [] .empty .dummy].foldl
      (Operation.run S (.upTo S 0)) (.new (.new none) .standard .ready)
    let xs := [(⟨1⟩, .int 3)]
    let ys := [(⟨1⟩, .int 4), (⟨0⟩, .bool true), (⟨1⟩, .int 3)]
    ((Machine.upTo S 1).call (.bare ⟨0⟩) ⟨0⟩ [] (.ofList xs) s).1 = .ok (.int 3) ∧
    (Machine.upTo S 1).call (.bare ⟨0⟩) ⟨0⟩ [] (.ofList ys) s =
      (Machine.upTo S 1).call (.bare ⟨0⟩) ⟨0⟩ [] (.ofList xs) s := by
  intro S s xs ys
  refine ⟨?_, call_blind_to_undeclared S 1 s (.bare ⟨0⟩) ⟨0⟩ [] ys xs fun info known => ?_⟩
  · let key : MemoKey := ⟨⟨0⟩, .bare ⟨0⟩, [], .ofList xs⟩
    let info := Language.scaling.properties[0]
    have cut : (ofList xs).restrict [⟨1⟩] = .ok (.ofList xs) := by
      subst xs
      rfl
    have called : Called S s key (.ofList xs) _ info 0 :=
      ⟨rfl, rfl, rfl, fun p mem => (List.not_mem_nil mem).elim, cut, rfl⟩
    have within : { s with memo := s.memo.start key }.Within S.config.maxCallDepth := .inr (by decide)
    have ran : bodyOf S (.upTo S 0) ⟨0⟩ 0 key { s with memo := s.memo.start key }.deeper =
        (.ok (.int 3), { s with memo := s.memo.start key }.deeper) := by
      subst key xs s S
      rfl
    have computed : compute S (.upTo S 0) ⟨0⟩ info 0 key _ = (.ok (.int 3), _) :=
      compute_of_body within ran rfl
    have answered : answer S (.upTo S 0) ⟨0⟩ info 0 key s = _ :=
      memoized_of_computed Std.HashMap.getElem?_empty Std.HashSet.not_mem_empty computed
    exact congrArg Prod.fst ((called_eq called _).trans (SessionM.map_error_of_ok answered))
  · cases known
    refine .inl fun var mem => ⟨.int 3, ?_⟩
    cases List.mem_singleton.1 mem
    exact ⟨rfl, rfl⟩

end Trellis
