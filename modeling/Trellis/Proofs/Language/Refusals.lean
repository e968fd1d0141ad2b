import Trellis.Proofs.Language.Accepted

/-! Declarations that are refused. A refused declaration leaves one error in the log and
nothing else, and no later declaration looks at the log; so a history of declarations
comes to the same language as the accepted ones among them. -/
namespace Trellis

/-- What an accepted declaration gives back. -/
inductive Declared where
  | kind (id : KindId)
  | dynVar (id : DynVarId)
  | property (id : PropId)
  | done

namespace Declaration

/-- Make a declaration and hand over its answer. -/
def perform : Declaration → Builder.BuildM Declared
  | kind decl => do return .kind (← Builder.kind decl)
  | dynVar name type site => do return .dynVar (← Builder.dynVar name type site)
  | property decl => do return .property (← Builder.property decl)
  | setBody prop owner body site => do
    Builder.setBody prop owner body site
    return .done
  | envSpec k spec => do
    Builder.envSpec k spec
    return .done
  | envMetadata decl => do
    Builder.envMetadata decl
    return .done

/-- The answers of some declarations, made one after another. -/
def answers : List Declaration → Builder → List (Except DefinitionError Declared)
  | [], _ => []
  | declaration :: rest, b => (declaration.perform b).1 :: answers rest (declaration.perform b).2

/-- Those declarations that are accepted when all of them are made one after another. -/
def accepted : List Declaration → Builder → List Declaration
  | [], _ => []
  | declaration :: rest, b =>
    match declaration.perform b with
    | (.ok _, after) => declaration :: accepted rest after
    | (.error _, after) => accepted rest after

theorem settles (declaration : Declaration) (d : Definition) :
    Builder.Settles d declaration.perform fun _ => d.Extends := by
  cases declaration with
  | kind decl => exact Builder.settles_done (Builder.kind_extends decl) _
  | dynVar name type site => exact Builder.settles_done (Builder.dyn_var_extends name type site) _
  | property decl => exact Builder.settles_done (Builder.property_extends decl) _
  | setBody prop owner body site =>
    exact Builder.settles_done (Builder.set_body_extends prop owner body site) _
  | envSpec k spec => exact Builder.settles_done (Builder.env_spec_extends k spec) _
  | envMetadata decl => exact Builder.settles_done (Builder.env_metadata_extends decl) _

theorem perform_run (declaration : Declaration) (b : Builder) :
    (declaration.perform b).2 = declaration.run b := by
  have done {α : Type} (act : Builder.BuildM α) (handle : α → Declared) :
      ((act >>= fun x => pure (handle x)) b).2 = (act b).2 := by
    rw [Builder.run_bind]
    rcases act b with ⟨e | x, after⟩ <;> rfl
  cases declaration <;> exact done _ _

end Declaration

namespace Builder

/-- Two builders that differ in the errors they were told of at most. -/
structure Agrees (b c : Builder) : Prop where
  definition : b.definition = c.definition
  context : b.log.context = c.log.context
  quiet : b.log.pending = false ∧ c.log.pending = false
  warnings : b.log.warnings = c.log.warnings

/-- Builders that agree are made the same language, or none. -/
theorem Agrees.build {b c : Builder} (agrees : Agrees b c) (l : Language) :
    b.build = .ok l ↔ c.build = .ok l := by
  have same : b.language = c.language := by
    unfold language
    rw [agrees.definition, agrees.warnings]
  rw [build_ok_iff agrees.quiet.1, build_ok_iff agrees.quiet.2, agrees.definition, same]

/-- A builder goes on agreeing when it refuses a declaration that the other is not
asked. -/
theorem Agrees.refused {b c after : Builder} (agrees : Agrees b c) (refused : Refused b after) :
    Agrees after c where
  definition := refused.definition.trans agrees.definition
  context := refused.context.trans agrees.context
  quiet := ⟨refused.pending.trans agrees.quiet.1, agrees.quiet.2⟩
  warnings := by
    obtain ⟨e, severe, reported⟩ := refused.reported
    rw [← agrees.warnings]
    unfold DefinitionLog.warnings
    rw [reported, List.filter_append, List.filter_cons_of_neg (by rw [severe]; decide)]
    exact List.append_nil _

/-- What is accepted of a history is answered as it was there, by builders that agree at
its end if they agree at its start. -/
theorem Agrees.accepted {b c : Builder} (agrees : Agrees b c) (declarations : List Declaration) :
    Declaration.answers (Declaration.accepted declarations b) c =
        (Declaration.answers declarations b).filter (·.isOk) ∧
      Agrees (declarations.foldl (fun b declaration => declaration.run b) b)
        ((Declaration.accepted declarations b).foldl (fun b declaration => declaration.run b)
          c) := by
  induction declarations generalizing b c with
  | nil => exact ⟨rfl, agrees⟩
  | cons declaration rest ih =>
    rw [List.foldl_cons, Declaration.accepted, Declaration.answers, ← declaration.perform_run]
    rcases declaration.settles b.definition with fails | ⟨x, e, runs, -⟩
    · obtain ⟨e, failed, left⟩ := fails b rfl
      rw [show declaration.perform b = (.error e, (declaration.perform b).2) from
        Prod.ext failed rfl]
      exact ih (agrees.refused left)
    · have there := runs c agrees.definition.symm
      rw [runs b rfl]
      have later := ih (b := { b with definition := e }) (c := { c with definition := e })
        ⟨rfl, agrees.context, agrees.quiet, agrees.warnings⟩
      simp only [Declaration.answers, List.foldl_cons, ← declaration.perform_run, there]
      exact ⟨congrArg (List.cons _) later.1, later.2⟩

/-- **Refused declarations leave nothing behind.** A declaration that is refused leaves
the definition and the context as they were. Without the refused ones a history of
declarations is answered as before, with the same handles, and comes to the same
language, dispatch and warnings included, or to none where it came to none. -/
theorem refused_leave_nothing (declarations : List Declaration) :
    (∀ (b after : Builder) (declaration : Declaration) (e : DefinitionError),
      declaration.perform b = (.error e, after) →
        after.definition = b.definition ∧ after.log.context = b.log.context) ∧
    let kept := Declaration.accepted declarations .new
    Declaration.answers kept .new = (Declaration.answers declarations .new).filter (·.isOk) ∧
      ∀ l, (declare declarations).build = .ok l ↔ (declare kept).build = .ok l := by
  have start : Agrees .new .new := ⟨rfl, rfl, ⟨rfl, rfl⟩, rfl⟩
  obtain ⟨answered, agrees⟩ := start.accepted declarations
  refine ⟨fun b after declaration e failed => ?_, answered, agrees.build⟩
  rcases declaration.settles b.definition with fails | ⟨x, e, runs, -⟩
  · obtain ⟨-, -, left⟩ := fails b rfl
    rw [failed] at left
    exact ⟨left.definition, left.context⟩
  · rw [runs b rfl] at failed
    cases failed

/-- A kind and a property of it are declared twice over. -/
theorem refused_leave_nothing_of_repeated :
    let leaf : Declaration := .kind ⟨"Leaf", none, [], [], false, false, true, .caller⟩
    let size : Declaration :=
      .property ⟨⟨0⟩, "size", [], .int, [], false, true, .expr (.lit (.int 1)), .caller⟩
    let again := leaf.perform (declare [leaf])
    let kept := Declaration.accepted [leaf, leaf, size, size] .new
    (∃ e, again.1 = .error e) ∧
      again.2.definition = (declare [leaf]).definition ∧ again.2.log.context = .empty ∧
    kept.length = 2 ∧
    ∃ l, (declare [leaf, leaf, size, size]).build = .ok l ∧ (declare kept).build = .ok l := by
  intro leaf size again kept
  obtain ⟨refused, -, same⟩ := refused_leave_nothing [leaf, leaf, size, size]
  obtain ⟨l, built⟩ := exists_language
    (show (declare [leaf, leaf, size, size]).build.isOk = true by decide +kernel)
  have fails : again.1.isOk = false := by decide +kernel
  rcases outcome : again with ⟨e | x, after⟩
  · obtain ⟨left, context⟩ := refused _ _ _ _ outcome
    exact ⟨⟨e, rfl⟩, left, context, by decide +kernel, l, built, (same l).1 built⟩
  · rw [outcome] at fails
    cases fails

end Builder
end Trellis
