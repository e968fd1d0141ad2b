import Mathlib
import Trellis.Proofs.Session.Readings

/-! What the checks of a build promise about running. A reading that stops to look
before each access does something else, anything else, where an argument, a local or
a dynamic variable is not there, or where a property is called that cannot be; no
analysis of a language that was built can tell it from evaluation. -/
namespace Trellis
open FrameM

/-- Evaluation with a look before each access. What happens instead of an access that
is wrong is left open. -/
def Handling.guarded (S : Setting) (wrong : EvalM Value) (m : Machine) : Handling :=
  { Handling.plain S m with
    arg := fun i => do
      let args ← read (·.args)
      if i < args.length then eval S m (.arg i) else session wrong
    loc := fun around slot =>
      if slot ∈ around.map (·.1) then eval S m (.loc slot) else session wrong
    dynVar := fun v => do
      let dynVars ← read (·.dynVars)
      if (dynVars.get? v).isSome then eval S m (.dynVar v) else session wrong
    call := fun receiver p args => do
      let dynVars ← read (·.dynVars)
      if S.language.ready p args.length dynVars then
        session (m.call receiver p args dynVars)
      else session wrong }

theorem guarded_trusts (S : Setting) (wrong : EvalM Value) (m : Machine) :
    (Handling.guarded S wrong m).Trusts S m where
  arg i f s inRange := by
    show (if i < f.args.length then eval S m (.arg i) else session wrong) f s = _
    rw [if_pos inRange]
  loc around slot listed := if_pos listed
  dynVar v f s bound := by
    show (if (f.dynVars.get? v).isSome then eval S m (.dynVar v) else session wrong) f s = _
    rw [if_pos bound]
  call receiver p args f s ready := by
    show (if S.language.ready p args.length f.dynVars then
      session (m.call receiver p args f.dynVars) else session wrong) f s = _
    rw [if_pos ready]
    rfl
  constrain p args enter f s ready := rfl
  solve e := rfl

/-- In a language that was built nothing goes wrong: no call of a property, no
population and no reference that was made by one ever comes to an argument out of
range, to a local that no enclosing binder has bound, to a dynamic variable that is
not bound, or to a call of a property that cannot be called like that. -/
theorem build_prevents_wrong_access {declarations : List Declaration} {S : Setting}
    (built : (Builder.declare declarations).build = .ok S.language) (wrong : EvalM Value) :
    (∀ depth, Machine.upTo S depth = Machine.reading S (.guarded S wrong) depth) ∧
    ∀ kind s, S.language.envSpec kind = some s →
      (∀ m n ambient, runSpec S m n ambient s.spec =
        runSpecBy (interpret (.guarded S wrong m) S m []) n ambient s.spec) ∧
      ∀ nodes through metadata rebind,
        .reference nodes through metadata rebind ∈ s.spec.actions →
          S.language.ready through 0 .none = true := by
  refine ⟨fun depth => ?_, fun kind s found => ⟨fun m n ambient => ?_, ?_⟩⟩
  · exact (reading_eq built (guarded_trusts S wrong) depth).symm
  · exact (run_spec_read built (guarded_trusts S wrong m) found n ambient).symm
  · exact fun nodes through metadata rebind mem => reference_ready built found mem

/-- A language in which each of these accesses occurs. -/
theorem build_prevents_wrong_access_of_calls :
    let declarations : List Declaration := [
      .kind ⟨"Leaf", none, [], [], false, false, true, .caller⟩,
      .dynVar "flag" .bool .caller,
      .property ⟨⟨0⟩, "given", [], .bool, [⟨0⟩], false, true, .expr (.dynVar ⟨0⟩), .caller⟩,
      .property ⟨⟨0⟩, "chosen", [("there", .int)], .int, [], false, true,
        .expr (.letIn 0 (.arg 0)
          (.ite (.bindDynVar ⟨0⟩ (.lit (.bool true)) (.call .self ⟨0⟩ [])) (.loc 0)
            (.call .self ⟨1⟩ [.loc 0]))), .caller⟩,
      .property ⟨⟨0⟩, "around", [], .env, [], false, true, .expr (.nodeEnv .self), .caller⟩,
      .envSpec ⟨0⟩ ⟨[.reference .self ⟨2⟩ .empty none], .caller⟩]
    ∃ l, (Builder.declare declarations).build = .ok l ∧ ∃ s, l.envSpec ⟨0⟩ = some s ∧
      let S : Setting := ⟨l, .standard⟩
      let wrong : EvalM Value := throw .exhausted
      (∀ depth, Machine.upTo S depth = Machine.reading S (.guarded S wrong) depth) ∧
      (∀ m n ambient, runSpec S m n ambient s.spec =
        runSpecBy (interpret (.guarded S wrong m) S m []) n ambient s.spec) ∧
      l.ready ⟨2⟩ 0 .none = true := by
  intro declarations
  obtain ⟨l, built⟩ := Builder.exists_language
    (show (Builder.declare declarations).build.isOk = true by decide +kernel)
  have found : (Builder.declare declarations).definition.envSpec ⟨0⟩ =
      some ⟨⟨0⟩, ⟨[.reference .self ⟨2⟩ .empty none], .caller⟩⟩ := by cbv
  rw [← (Builder.build_ok built).1] at found
  have sound := build_prevents_wrong_access (S := ⟨l, .standard⟩) built (throw .exhausted)
  obtain ⟨specs, references⟩ := sound.2 ⟨0⟩ _ found
  exact ⟨l, built, _, found, sound.1, specs, references _ _ _ _ List.mem_cons_self⟩

end Trellis
