import Mathlib.Logic.Relation
import Trellis.Proofs.Language.Accepted

/-! Where a kind comes from, and which implementation of a property is meant for it.
The ancestors that are recorded with a kind are those its parents lead to, in that
order, and a property has no two implementations on one kind. So dispatch finds the
one implementation that is declared closest to the kind. -/
namespace Trellis

namespace Definition

/-- A kind is declared directly under another one. -/
def Under (d : Definition) (k parent : KindId) : Prop :=
  ∃ info, d.kind? k = some info ∧ info.parent = some parent

/-- A kind is another one or comes from it through its parents. -/
def Derives (d : Definition) : KindId → KindId → Prop := Relation.ReflTransGen d.Under

/-- The implementation of a property that is meant for the nodes of a kind: every other
one that the kind comes by is declared further up. -/
structure MeantFor (d : Definition) (k : KindId) (p : PropId) (index : Nat)
    (i : Implementation) : Prop where
  found : d.implementation? index = some i
  prop : i.prop = p
  above : d.Derives k i.owner
  closest : ∀ other j, d.implementation? other = some j → j.prop = p → d.Derives k j.owner →
    other = index ∨ j.owner ≠ i.owner ∧ d.Derives i.owner j.owner

/-- Parents are declared, and ancestors are what parents lead to. -/
structure Lineage (d : Definition) : Prop where
  known : ∀ {k info p}, d.kind? k = some info → info.parent = some p → (d.kind? p).isSome
  descended : ∀ {k info}, d.kind? k = some info →
    info.ancestors = k :: info.parent.elim [] d.ancestors

/-- A property has the implementations that are of it, at most one on a kind, and one on
its owner. -/
structure Implemented (d : Definition) : Prop extends Indexed d where
  listed : ∀ {index i}, d.implementation? index = some i →
    ∃ info, d.property? i.prop = some info ∧ index ∈ info.implementations
  single : ∀ {p info}, d.property? p = some info → ∀ i ∈ info.implementations,
    ∀ j ∈ info.implementations, d.implementer? i = d.implementer? j → i = j
  owned : ∀ {p info}, d.property? p = some info →
    ∃ i ∈ info.implementations, d.implementer? i = some info.owner

/-! ## Ancestors -/

theorem ancestors_of_kind {d : Definition} (found : d.kind? k = some info) :
    d.ancestors k = info.ancestors := by
  rw [ancestors, found]
  rfl

section Lineage
variable {d : Definition} (lineage : d.Lineage) {k a : KindId}
include lineage

theorem ancestors_cases (known : (d.kind? k).isSome) :
    d.ancestors k = [k] ∨ ∃ p, d.Under k p ∧ d.ancestors k = k :: d.ancestors p := by
  obtain ⟨info, found⟩ := Option.isSome_iff_exists.1 known
  rw [ancestors_of_kind found, lineage.descended found]
  cases parent : info.parent with
  | none => exact .inl rfl
  | some p => exact .inr ⟨p, ⟨info, found, parent⟩, rfl⟩

theorem ancestors_under (under : d.Under k p) : d.ancestors k = k :: d.ancestors p := by
  obtain ⟨info, found, parent⟩ := under
  rw [ancestors_of_kind found, lineage.descended found, parent]
  rfl

theorem known_under (under : d.Under k p) : (d.kind? p).isSome := by
  obtain ⟨info, found, parent⟩ := under
  exact lineage.known found parent

theorem mem_ancestors_of_derives (derives : d.Derives k a) (known : (d.kind? k).isSome) :
    a ∈ d.ancestors k := by
  induction derives using Relation.ReflTransGen.head_induction_on with
  | refl => rcases ancestors_cases lineage known with eq | ⟨p, -, eq⟩ <;> simp [eq]
  | head under _ ih =>
    rw [ancestors_under lineage under]
    exact List.mem_cons_of_mem _ (ih (known_under lineage under))

/-- From an ancestor on, the ancestors of a kind are those of the ancestor. -/
theorem ancestors_from {before after : List KindId} (known : (d.kind? k).isSome)
    (split : d.ancestors k = before ++ a :: after) :
    d.Derives k a ∧ (d.kind? a).isSome ∧ d.ancestors a = a :: after := by
  induction before generalizing k with
  | nil =>
    have here : k = a := by
      rcases ancestors_cases lineage known with eq | ⟨p, -, eq⟩ <;> rw [eq] at split <;>
        exact (List.cons.inj split).1
    exact here ▸ ⟨.refl, known, here ▸ split⟩
  | cons b before ih =>
    rcases ancestors_cases lineage known with eq | ⟨p, under, eq⟩ <;> rw [eq] at split
    · cases before <;> cases split
    · obtain ⟨derives, there, rest⟩ :=
        ih (known_under lineage under) (List.cons.inj split).2
      exact ⟨.head under derives, there, rest⟩

theorem mem_ancestors_iff (known : (d.kind? k).isSome) : a ∈ d.ancestors k ↔ d.Derives k a := by
  refine ⟨fun mem => ?_, fun derives => mem_ancestors_of_derives lineage derives known⟩
  obtain ⟨before, after, split⟩ := List.append_of_mem mem
  exact (ancestors_from lineage known split).1

end Lineage

/-! ## The closest implementation -/

theorem mem_of_implementer {d : Definition} (implementer : d.implementer? index = some a) :
    ∃ i, d.implementation? index = some i ∧ i.owner = a :=
  Option.map_eq_some_iff.1 implementer

section Derived
variable {d : Definition} (lineage : d.Lineage) (implemented : d.Implemented)
  {k : KindId} {kind : KindInfo} {p : PropId} {info : PropertyInfo}
include lineage

/-- A property is not asked of kinds that do not come from its owner. -/
theorem most_derived_none (known : d.kind? k = some kind) (apart : ¬ d.Derives k info.owner) :
    d.mostDerived kind info = none := by
  unfold mostDerived
  rw [← ancestors_of_kind known]
  refine if_neg fun owns => apart ?_
  exact (mem_ancestors_iff lineage (Option.isSome_of_mem known)).1 (List.contains_iff_mem.1 owns)

include implemented

/-- For a kind that comes from the owner of a property, dispatch finds the implementation
that is meant for it. -/
theorem most_derived_meant (known : d.kind? k = some kind) (asked : d.property? p = some info)
    (derives : d.Derives k info.owner) :
    ∃ index i, d.mostDerived kind info = some index ∧ d.MeantFor k p index i := by
  have there : (d.kind? k).isSome := Option.isSome_of_mem known
  have owns := (mem_ancestors_iff lineage there).2 derives
  unfold mostDerived
  rw [← ancestors_of_kind known, if_pos (List.contains_iff_mem.2 owns)]
  cases found : (d.ancestors k).findSome? fun a => info.implementations.find? fun i =>
      d.implementer? i == some a with
  | none =>
    -- The owner has an implementation of its own.
    obtain ⟨i, mem, implementer⟩ := implemented.owned asked
    have missed := List.find?_eq_none.1 (List.findSome?_eq_none_iff.1 found _ owns) i mem
    exact (missed (beq_iff_eq.2 implementer)).elim
  | some index =>
    obtain ⟨before, a, after, split, here, earlier⟩ := List.findSome?_eq_some_iff.1 found
    obtain ⟨above, level, further⟩ := ancestors_from lineage there split
    have listed := List.mem_of_find?_eq_some here
    have implementer : d.implementer? index = some a := by simpa using List.find?_some here
    obtain ⟨i, held, rfl⟩ := mem_of_implementer implementer
    obtain ⟨i', held', prop⟩ := implemented.implemented p info asked index listed
    cases held.symm.trans held'
    refine ⟨index, i, rfl, held, prop, above, fun other j its same derived => ?_⟩
    obtain ⟨info', asked', mem⟩ := implemented.listed its
    rw [same] at asked'
    cases asked.symm.trans asked'
    have declares : d.implementer? other = some j.owner := by rw [implementer?, its]; rfl
    have among := (mem_ancestors_iff lineage there).2 derived
    rw [split, List.mem_append, List.mem_cons] at among
    by_cases same : j.owner = i.owner
    · refine .inl (implemented.single asked other mem index listed ?_)
      rw [declares, implementer, same]
    rcases among with nearer | level | beyond
    · have missed := List.find?_eq_none.1 (earlier _ nearer) other mem
      exact (missed (beq_iff_eq.2 declares)).elim
    · exact (same level).elim
    · refine .inr ⟨same, (mem_ancestors_iff lineage level).1 ?_⟩
      rw [further]
      exact List.mem_cons_of_mem _ beyond

end Derived

/-! ## What declarations keep -/

theorem kind_push {d : Definition} {info found : KindInfo} {k : KindId}
    (placed : info.id = ⟨d.kinds.size⟩) (held : (d.kinds.push info)[k.raw]? = some found) :
    d.kind? k = some found ∨ k = info.id ∧ found = info :=
  (entry_push_cases held).imp_right fun ⟨last, same⟩ => ⟨by rw [placed, ← last], same⟩

/-- Ancestors stay the same when another kind joins. -/
theorem ancestors_push {d : Definition} (new : KindInfo) (there : (d.kind? k).isSome) :
    ({ d with kinds := d.kinds.push new } : Definition).ancestors k = d.ancestors k := by
  obtain ⟨info, found⟩ := Option.isSome_iff_exists.1 there
  rw [ancestors_of_kind found]
  exact ancestors_of_kind (entry_push new found)

theorem descended_push {d : Definition} {info : KindInfo} (new : KindInfo)
    (up : ∀ p, info.parent = some p → (d.kind? p).isSome)
    (descended : info.ancestors = k :: info.parent.elim [] d.ancestors) :
    info.ancestors = k :: info.parent.elim []
      ({ d with kinds := d.kinds.push new } : Definition).ancestors := by
  rw [descended]
  cases parent : info.parent with
  | none => rfl
  | some p => exact congrArg (k :: ·) (ancestors_push new (up p parent)).symm

theorem lineage_extends {d e : Definition} (extended : d.Extends e) (lineage : d.Lineage) :
    e.Lineage := by
  cases extended with
  | kind new placed _ known descended =>
    have stays (p : KindId) (there : (d.kind? p).isSome) : ((d.kinds.push new)[p.raw]?).isSome := by
      obtain ⟨info, found⟩ := Option.isSome_iff_exists.1 there
      exact Option.isSome_of_mem (entry_push new found)
    constructor
    · intro k info p found parent
      rcases kind_push placed found with old | ⟨-, rfl⟩
      · exact stays p (lineage.known old parent)
      · exact stays p (known p parent)
    · intro k info found
      rcases kind_push placed found with old | ⟨rfl, rfl⟩
      · exact descended_push new (fun p => lineage.known old) (lineage.descended old)
      · exact descended_push _ known descended
  | _ => exact ⟨lineage.known, lineage.descended⟩

/-- Whose implementation an index is stays the same when another one joins. -/
theorem implementer_push {d : Definition} (new : Implementation)
    (bound : i < d.implementations.size) :
    ((d.implementations.push new)[i]?).map (·.owner) = d.implementer? i := by
  rw [Array.getElem?_push, if_neg (Nat.ne_of_lt bound)]
  rfl

theorem implementer_last (d : Definition) (new : Implementation) :
    ((d.implementations.push new)[d.implementations.size]?).map (·.owner) = some new.owner := by
  rw [Array.getElem?_push_size]
  rfl

/-- What an override makes of a property lists all that the property listed. -/
theorem property_of_override {d : Definition} (base : PropId) (asked : d.property? p = some old) :
    ∃ found, (d.properties.modify base.raw fun p =>
        { p with implementations := p.implementations ++ [new] })[p.raw]? = some found ∧
      (∀ i ∈ old.implementations, i ∈ found.implementations) ∧
      (p = base → new ∈ found.implementations) := by
  rw [Array.getElem?_modify, show d.properties[p.raw]? = some old from asked]
  split
  · exact ⟨_, rfl, fun i mem => List.mem_append_left _ mem, fun _ => by simp⟩
  · next elsewhere => exact ⟨old, rfl, fun i mem => mem, fun here => (elsewhere (here ▸ rfl)).elim⟩

section Implemented
variable {d : Definition} (implemented : d.Implemented)
include implemented

theorem listed_bound (asked : d.property? p = some info) (listed : i ∈ info.implementations) :
    i < d.implementations.size := by
  obtain ⟨_, there, -⟩ := implemented.implemented p info asked i listed
  exact (Array.getElem?_eq_some_iff.1 there).1

/-- A property of its own has its first implementation, and the others keep theirs. -/
theorem implemented_property {info : PropertyInfo} {new : Implementation}
    (placed : info.id = ⟨d.properties.size⟩)
    (first : info.implementations = [d.implementations.size])
    (same : new.prop = info.id) (owned : new.owner = info.owner) (indexed : Indexed { d with
      properties := d.properties.push info, implementations := d.implementations.push new }) :
    Implemented { d with
      properties := d.properties.push info, implementations := d.implementations.push new } := by
  refine ⟨indexed, fun {index i} held => ?_, fun {p found} asked i memI j memJ level => ?_,
    fun {p found} asked => ?_⟩
  · rcases entry_push_cases held with old | ⟨rfl, rfl⟩
    · obtain ⟨info', asked, mem⟩ := implemented.listed old
      have bound : i.prop.raw < d.properties.size := (Array.getElem?_eq_some_iff.1 asked).1
      refine ⟨info', ?_, mem⟩
      show (d.properties.push info)[i.prop.raw]? = some info'
      rw [Array.getElem?_push, if_neg (Nat.ne_of_lt bound)]
      exact asked
    · refine ⟨info, ?_, by rw [first]; exact List.mem_singleton_self _⟩
      show (d.properties.push info)[i.prop.raw]? = some info
      rw [same, placed]
      exact Array.getElem?_push_size
  · rcases property_push placed asked with old | ⟨rfl, rfl⟩
    · refine implemented.single old i memI j memJ ?_
      rwa [← implementer_push new (listed_bound implemented old memI),
        ← implementer_push new (listed_bound implemented old memJ)]
    · rw [first, List.mem_singleton] at memI memJ
      exact memI.trans memJ.symm
  · rcases property_push placed asked with old | ⟨rfl, rfl⟩
    · obtain ⟨i, mem, owns⟩ := implemented.owned old
      exact ⟨i, mem, (implementer_push new (listed_bound implemented old mem)).trans owns⟩
    · refine ⟨_, by rw [first]; exact List.mem_singleton_self _, ?_⟩
      exact (implementer_last d new).trans (congrArg some owned)

/-- A property that is overridden has one implementation more, on a kind that had none. -/
theorem implemented_override {base : PropertyInfo} {new : Implementation}
    (listed : base ∈ d.properties.toList) (same : new.prop = base.id)
    (clears : d.Clears base.name new.owner) (indexed : Indexed { d with
      properties := d.properties.modify base.id.raw fun p =>
        { p with implementations := p.implementations ++ [d.implementations.size] },
      implementations := d.implementations.push new }) :
    Implemented { d with
      properties := d.properties.modify base.id.raw fun p =>
        { p with implementations := p.implementations ++ [d.implementations.size] },
      implementations := d.implementations.push new } := by
  have overridden : d.property? base.id = some base := by
    obtain ⟨place, held⟩ := Array.mem_iff_getElem?.1 (Array.mem_toList_iff.1 listed)
    rw [implemented.placed ⟨place⟩ base held]
    exact held
  have last := implementer_last d new
  have other {i : Nat} (mem : i ∈ base.implementations) :
      ((d.implementations.push new)[i]?).map (·.owner) ≠ some new.owner := by
    rw [implementer_push new (listed_bound implemented overridden mem)]
    exact (clears base listed rfl).1 i mem
  have apart {p : PropId} {old : PropertyInfo} (asked : d.property? p = some old) (i : Nat)
      (memI : i ∈ old.implementations) (j : Nat) (memJ : j ∈ old.implementations)
      (level : ((d.implementations.push new)[i]?).map (·.owner) =
        ((d.implementations.push new)[j]?).map (·.owner)) : i = j := by
    refine implemented.single asked i memI j memJ ?_
    rwa [← implementer_push new (listed_bound implemented asked memI),
      ← implementer_push new (listed_bound implemented asked memJ)]
  refine ⟨indexed, fun {index i} held => ?_, fun {p found} asked i memI j memJ level => ?_,
    fun {p found} asked => ?_⟩
  · rcases entry_push_cases held with old | ⟨rfl, rfl⟩
    · obtain ⟨info, asked, mem⟩ := implemented.listed old
      obtain ⟨found, there, keeps, -⟩ := property_of_override base.id asked
      exact ⟨found, there, keeps index mem⟩
    · obtain ⟨found, there, -, gains⟩ := property_of_override base.id overridden
      exact ⟨found, same ▸ there, gains rfl⟩
  · obtain ⟨old, there, rfl | ⟨rfl, rfl⟩⟩ := property_override asked
    · exact apart there i memI j memJ level
    · cases overridden.symm.trans there
      rw [List.mem_append, List.mem_singleton] at memI memJ
      rcases memI with memI | rfl <;> rcases memJ with memJ | rfl
      · exact apart there i memI j memJ level
      · exact (other memI (level.trans last)).elim
      · exact (other memJ (level.symm.trans last)).elim
      · rfl
  · obtain ⟨old, there, changed⟩ := property_override asked
    obtain ⟨i, mem, owns⟩ := implemented.owned there
    have still := (implementer_push new (listed_bound implemented there mem)).trans owns
    rcases changed with rfl | ⟨-, rfl⟩
    · exact ⟨i, mem, still⟩
    · exact ⟨i, List.mem_append_left _ mem, still⟩

end Implemented

theorem implemented_extends {d e : Definition} (extended : d.Extends e)
    (implemented : d.Implemented) : e.Implemented := by
  have indexed := indexed_extends extended implemented.toIndexed
  cases extended with
  | kind | dynVar | envSpec | metadata =>
    exact ⟨indexed, implemented.listed, implemented.single, implemented.owned⟩
  | property info new placed first same owned =>
    exact implemented_property implemented placed first same owned indexed
  | override base new listed same _ clears =>
    exact implemented_override implemented listed same clears indexed
  | body index body =>
    have stays (i : Nat) : ((d.implementations.modify index
        ({ · with body := .expr body }))[i]?).map (·.owner) = d.implementer? i := by
      rw [Array.getElem?_modify]
      split
      · rw [Option.map_map]; rfl
      · rfl
    refine ⟨indexed, fun {i found} held => ?_, fun {p info} asked i memI j memJ level => ?_,
      fun {p info} asked => ?_⟩
    · unfold implementation? at held
      rw [Array.getElem?_modify] at held
      split at held
      · obtain ⟨old, there, rfl⟩ := Option.map_eq_some_iff.1 held
        have listed := implemented.listed there
        exact listed
      · exact implemented.listed held
    · exact implemented.single asked i memI j memJ ((stays i).symm.trans (level.trans (stays j)))
    · obtain ⟨i, mem, owns⟩ := implemented.owned asked
      exact ⟨i, mem, (stays i).trans owns⟩

theorem lineage_empty : empty.Lineage where
  known found := by simp [kind?, empty] at found
  descended found := by simp [kind?, empty] at found

theorem implemented_empty : empty.Implemented where
  toIndexed := indexed_empty
  listed held := by simp [implementation?, empty] at held
  single asked := by simp [property?, empty] at asked
  owned asked := by simp [property?, empty] at asked

end Definition

/-- What is declared has its kinds in order. -/
theorem Builder.declare_lineage (declarations : List Declaration) :
    (declare declarations).definition.Lineage :=
  declare_keeps Definition.lineage_empty (fun _ _ => Definition.lineage_extends) declarations

/-- What is declared has its implementations in order. -/
theorem Builder.declare_implemented (declarations : List Declaration) :
    (declare declarations).definition.Implemented :=
  declare_keeps Definition.implemented_empty (fun _ _ => Definition.implemented_extends)
    declarations

/-! ## What a language answers -/

/-- A body that a call can run. -/
def Body.Runs : Body → Prop
  | .expr _ | .external _ => True
  | .abstract _ | .pending => False

/-- A call is answered as was resolved for its kind and its property. -/
theorem Language.dispatch_eq {l : Language} (resolved : l.table = l.dispatchTable)
    (known : l.kind? k = some kind) (asked : l.property? p = some info) :
    l.dispatch k p = l.dispatchOf kind info := by
  have row : l.kinds[k.raw]? = some kind := known
  have column : l.properties[p.raw]? = some info := asked
  rw [dispatch, resolved, Definition.dispatchTable, Array.getElem?_map, row]
  simp [column]

namespace Builder
variable {b : Builder} {l : Language} {kind : KindInfo}

/-- No body is left to be supplied in what is built. -/
theorem built_supplied (built : b.build = .ok l) (found : l.implementation? index = some i) :
    i.body.isPending = false := by
  refine Bool.eq_false_iff.2 fun pending => ?_
  have mem : Definition.finding .nonBlocking i.site (.noBody (l.propertyName i.prop)) ∈
      l.findings := by
    simp only [Definition.findings, Definition.pendingBodies, List.mem_append, List.mem_filterMap]
    refine .inl (.inl (.inl (.inl ⟨i, ?_, if_pos pending⟩)))
    exact Array.mem_toList_iff.2 (Array.mem_of_getElem? found)
  exact (build_ok built).2.2 _ mem rfl

/-- On a concrete kind of what is built no property is left to be overridden. -/
theorem built_overridden (built : b.build = .ok l) (known : l.kind? k = some kind)
    (concrete : kind.isAbstract = false) (asked : l.property? p = some info)
    (derived : l.mostDerived kind info = some index) (found : l.implementation? index = some i) :
    i.body.mustOverride = false := by
  refine Bool.eq_false_iff.2 fun open_ => ?_
  have mem : Definition.finding .nonBlocking kind.site (.notOverridden kind.name info.name) ∈
      l.findings := by
    simp only [Definition.findings, Definition.missingOverrides, List.mem_append,
      List.mem_flatMap]
    refine .inl (.inl (.inl (.inr ⟨kind, ?_, ?_⟩)))
    · exact Array.mem_toList_iff.2 (Array.mem_of_getElem? known)
    · rw [if_neg (by simp [concrete]), List.mem_filterMap]
      refine ⟨info, Array.mem_toList_iff.2 (Array.mem_of_getElem? asked), if_pos ?_⟩
      rw [derived, Option.bind_some, found]
      exact open_
  exact (build_ok built).2.2 _ mem rfl

/-- What a concrete kind answers to a property: nothing if it does not come from the
owner, and otherwise the implementation that is meant for it. -/
theorem built_dispatch {declarations : List Declaration}
    (built : (declare declarations).build = .ok l) (known : l.kind? k = some kind)
    (concrete : kind.isAbstract = false) (asked : l.property? p = some info) :
    (¬ l.Derives k info.owner → l.dispatch k p = none) ∧
    (l.Derives k info.owner → ∃ index i, l.MeantFor k p index i ∧
      (l.dispatch k p = some (.runs index) ∧ i.body.Runs ∨
        l.dispatch k p = some .missing ∧ i.body = .abstract true)) := by
  obtain ⟨same, resolved, -⟩ := build_ok built
  have lineage : l.Lineage := same ▸ declare_lineage declarations
  have implemented : l.Implemented := same ▸ declare_implemented declarations
  rw [Language.dispatch_eq resolved known asked, Definition.dispatchOf, concrete]
  refine ⟨fun apart => ?_, fun derives => ?_⟩
  · rw [Definition.most_derived_none lineage known apart]
    rfl
  · obtain ⟨index, i, derived, meant⟩ :=
      Definition.most_derived_meant lineage implemented known asked derives
    have supplied := built_supplied built meant.found
    have overridden := built_overridden built known concrete asked derived meant.found
    refine ⟨index, i, meant, ?_⟩
    simp only [derived, Bool.false_eq_true, if_false, Option.map_some, meant.found, Option.any_some]
    cases body : i.body with
    | expr e => exact .inl ⟨rfl, trivial⟩
    | external run => exact .inl ⟨rfl, trivial⟩
    | abstract runtimeCheck =>
      rw [body] at overridden
      cases runtimeCheck with
      | true => exact .inr ⟨rfl, rfl⟩
      | false => cases overridden
    | pending => rw [body] at supplied; cases supplied

end Builder
end Trellis
