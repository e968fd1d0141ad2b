import Trellis.Proofs.Language.Naming
import Trellis.Proofs.Session.Reachable

/-! Calls by name. A host calls a property by its name; since a name means one property at
most on the kind of a node, what it gets is the call of that property or a failure before
any call. -/
namespace Trellis

namespace Host
open SessionM

variable {S : Setting} {n : NodeId} {name : String} {s : Session}

/-- To call a public property by its name is to call it. -/
theorem call_public_runs (m : Machine) (args : List Value) (dynVars : DynVars)
    (held : s.tree.node? n = some node) (found : S.language.propertyByName node.kind name = some p)
    (asked : S.language.property? p = some info) (shown : info.isPublic = true) :
    callPublic S m n name args dynVars s = (call m n p args dynVars).mapError .property s := by
  have there : s.tree.node n = .ok node := by
    unfold Tree.node
    rw [held]
  unfold callPublic
  simp only [run_bind, run_read, there, found, asked, Option.any_some, shown, if_true]

/-- Without a public property of that name a call by name fails before it calls anything. -/
theorem call_public_fails (args : List Value) (dynVars : DynVars)
    (hidden : ∀ node p info, s.tree.node? n = some node →
      S.language.propertyByName node.kind name = some p → S.language.property? p = some info →
      info.isPublic = false) :
    ∃ e, ∀ m, callPublic S m n name args dynVars s = (.error (.failure e), s) := by
  unfold callPublic
  simp only [run_bind, run_read]
  unfold Tree.node
  cases held : s.tree.node? n with
  | none => exact ⟨_, fun m => rfl⟩
  | some node =>
    cases found : S.language.propertyByName node.kind name with
    | none => exact ⟨_, fun m => by simp only [found]; rfl⟩
    | some p =>
      have private_ : (S.language.property? p).any (·.isPublic) = false := by
        cases asked : S.language.property? p with
        | none => rfl
        | some info => exact hidden node p info held found asked
      exact ⟨_, fun m => by simp only [found, private_, Bool.false_eq_true, if_false]; rfl⟩

end Host

open Host SessionM in
/-- **A name means one property.** After any declarations, refused or not, at most one
property of a name comes down to a kind. To look for a name on a kind finds it, and it is
among the properties of the kind, which have different names; and once the language is
built it is what dispatch answers to on the kind, if nodes can be of it, with a body of no
other property. A call by name on a node is then the call of that property if there is one
and it is public, and otherwise fails before anything is called. -/
theorem name_means_one_property (declarations : List Declaration) :
    let d := (Builder.declare declarations).definition
    (∀ k name p q info other, d.Visible k name p info → d.Visible k name q other → p = q) ∧
    (∀ k name p, d.propertyByName k name = some p ↔ ∃ info, d.Visible k name p info) ∧
    (∀ k info, info ∈ d.propertiesOf k ↔ d.Visible k info.name info.id info) ∧
    (∀ k, ((d.propertiesOf k).map (·.name)).Nodup) ∧
    ∀ S : Setting, (Builder.declare declarations).build = .ok S.language →
      let l := S.language
      l.toDefinition = d ∧
      (∀ k p, (l.dispatch k p).isSome ↔ ∃ kind info, l.kind? k = some kind ∧
        kind.isAbstract = false ∧ l.Visible k info.name p info) ∧
      (∀ k p index, l.dispatch k p = some (.runs index) →
        ∃ i, l.implementation? index = some i ∧ i.prop = p) ∧
      ∀ n name args dynVars s,
        (∀ node p info, s.tree.node? n = some node → l.Visible node.kind name p info →
          info.isPublic = true → ∀ m, callPublic S m n name args dynVars s =
            (call m n p args dynVars).mapError .property s) ∧
        ((∀ node p info, s.tree.node? n = some node → l.Visible node.kind name p info →
          info.isPublic = false) →
            ∃ e, ∀ m, callPublic S m n name args dynVars s = (.error (.failure e), s)) := by
  intro d
  have lineage : d.Lineage := Builder.declare_lineage declarations
  have named : d.Named := Builder.declare_named declarations
  have indexed : d.Indexed := Builder.declare_indexed declarations
  refine ⟨?_, ?_, ?_, ?_, ?_⟩
  · exact fun k name p q info other => Definition.visible_unique lineage named
  · exact fun k name p => Definition.property_by_name_iff lineage named indexed
  · exact fun k info => Definition.mem_properties_of lineage named indexed
  · exact fun k => Definition.properties_of_nodup lineage named indexed k
  · intro S built l
    obtain ⟨same, resolved, -⟩ := Builder.build_ok built
    have finds (k : KindId) (name : String) (p : PropId) :
        l.propertyByName k name = some p ↔ ∃ info, l.Visible k name p info := by
      rw [same]
      exact Definition.property_by_name_iff lineage named indexed
    refine ⟨same, fun k p => Builder.built_dispatch_iff built, fun k p index =>
      Language.dispatch_runs (same ▸ indexed) resolved, fun n name args dynVars s => ⟨?_, ?_⟩⟩
    · intro node p info held visible shown m
      have found := (finds node.kind name p).2 ⟨info, visible⟩
      exact call_public_runs m args dynVars held found visible.asked shown
    · intro hidden
      refine call_public_fails args dynVars fun node p info held found asked => ?_
      obtain ⟨other, visible⟩ := (finds node.kind name p).1 found
      cases asked.symm.trans visible.asked
      exact hidden node p info held visible

open Host SessionM in
/-- A name that is declared on a kind is refused on the kinds above it and stays free beside
it; a kind that joins later has the property too, and calls find it. -/
theorem name_means_one_property_of_refused :
    let size (owner : KindId) (shown : Bool) : Declaration :=
      .property ⟨owner, "size", [], .int, [], false, shown, .expr (.lit (.int 1)), .caller⟩
    let declarations : List Declaration := [
      .kind ⟨"Base", none, [], [], true, false, false, .caller⟩,
      .kind ⟨"Leaf", some ⟨0⟩, [], [], false, false, false, .caller⟩,
      .kind ⟨"Other", some ⟨0⟩, [], [], false, false, false, .caller⟩,
      size ⟨1⟩ true, size ⟨0⟩ true, size ⟨2⟩ false,
      .kind ⟨"Twig", some ⟨1⟩, [], [], false, false, false, .caller⟩]
    let b := Builder.declare declarations
    let S : Setting := ⟨b.language, .standard⟩
    let s := [Operation.newUnit "", .addNode ⟨0⟩ ⟨3⟩ [] .empty .dummy,
      .addNode ⟨0⟩ ⟨2⟩ [] .empty .dummy].foldl
      (Operation.run S (.upTo S 0)) (.new (.new none) .standard .ready)
    let l := S.language
    (b.build = .ok l ∧ l.properties.size = 2) ∧
      l.propertyByName ⟨3⟩ "size" = some ⟨0⟩ ∧ l.propertyByName ⟨2⟩ "size" = some ⟨1⟩ ∧
      (l.dispatch ⟨3⟩ ⟨0⟩).isSome ∧
      (∀ m args dynVars, callPublic S m ⟨0⟩ "size" args dynVars s =
        (call m ⟨0⟩ ⟨0⟩ args dynVars).mapError .property s) ∧
      ∀ args dynVars, ∃ e, ∀ m, callPublic S m ⟨1⟩ "size" args dynVars s =
        (.error (.failure e), s) := by
  intro size declarations b S s l
  have built : b.build = .ok l :=
    (Builder.build_ok_iff (by decide +kernel)).2 ⟨by decide +kernel, rfl⟩
  have leaf : l.kind? ⟨3⟩ = some ⟨⟨3⟩, "Twig", some ⟨1⟩, false, [], false, false, [],
    [⟨3⟩, ⟨1⟩, ⟨0⟩], .caller⟩ := by decide +kernel
  let info (p : PropId) (owner : KindId) (shown : Bool) : PropertyInfo :=
    ⟨p, "size", owner, [], .int, [], false, shown, [p.raw], .caller⟩
  have twig : l.Visible ⟨3⟩ "size" ⟨0⟩ (info ⟨0⟩ ⟨1⟩ true) :=
    ⟨by decide +kernel, rfl, .single ⟨_, leaf, rfl⟩⟩
  have other : l.Visible ⟨2⟩ "size" ⟨1⟩ (info ⟨1⟩ ⟨2⟩ false) := ⟨by decide +kernel, rfl, .refl⟩
  have first : (s.tree.node? ⟨0⟩).map (·.kind) = some ⟨3⟩ := by decide +kernel
  have second : (s.tree.node? ⟨1⟩).map (·.kind) = some ⟨2⟩ := by decide +kernel
  obtain ⟨node, held, kind⟩ := Option.map_eq_some_iff.1 first
  obtain ⟨node', held', kind'⟩ := Option.map_eq_some_iff.1 second
  obtain ⟨one, finds, -, -, language⟩ := name_means_one_property declarations
  obtain ⟨same, dispatch, -, calls⟩ := language S built
  rw [← same] at one finds
  refine ⟨⟨built, by decide +kernel⟩, (finds _ _ _).2 ⟨_, twig⟩, (finds _ _ _).2 ⟨_, other⟩,
    (dispatch _ _).2 ⟨_, info ⟨0⟩ ⟨1⟩ true, leaf, rfl, twig⟩, fun m args dynVars => ?_, fun args dynVars => ?_⟩
  · exact (calls ⟨0⟩ "size" args dynVars s).1 node ⟨0⟩ _ held (kind.symm ▸ twig) rfl m
  · refine (calls ⟨1⟩ "size" args dynVars s).2 fun found p info there visible => ?_
    cases held'.symm.trans there
    rw [kind'] at visible
    cases one _ _ _ _ _ _ visible other
    cases visible.asked.symm.trans other.asked
    rfl

end Trellis
