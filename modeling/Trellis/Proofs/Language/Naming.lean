import Mathlib.Data.List.Nodup
import Trellis.Proofs.Language.Lineage

/-! Names of properties. A property joins only where its name is free on the kinds above its
owner and on those below, and an override adds no property. So of two properties of one
name neither owner comes from the other, and on every kind a name means one property at
most, which is what every way of finding it comes to. -/
namespace Trellis

namespace Definition

/-- A property of that name comes down to a kind. -/
structure Visible (d : Definition) (k : KindId) (name : String) (p : PropId)
    (info : PropertyInfo) : Prop where
  asked : d.property? p = some info
  named : info.name = name
  derives : d.Derives k info.owner

/-- Properties are owned by kinds that there are, and two of one name by kinds neither of
which comes from the other. -/
structure Named (d : Definition) : Prop where
  owned : ∀ {p info}, d.property? p = some info → (d.kind? info.owner).isSome
  apart : ∀ {p q info other}, d.property? p = some info → d.property? q = some other →
    info.name = other.name → info.owner ∈ d.ancestors other.owner → p = q

/-- Of two ancestors of a kind one comes from the other. -/
theorem ancestors_linear {d : Definition} (lineage : d.Lineage) (known : (d.kind? k).isSome)
    (first : a ∈ d.ancestors k) (second : b ∈ d.ancestors k) :
    a ∈ d.ancestors b ∨ b ∈ d.ancestors a := by
  obtain ⟨before, after, split⟩ := List.append_of_mem first
  rw [split] at second
  rcases List.mem_append.1 second with nearer | further
  · obtain ⟨front, back, parts⟩ := List.append_of_mem nearer
    have cut : d.ancestors k = front ++ b :: (back ++ a :: after) := by rw [split, parts]; simp
    obtain ⟨-, -, above⟩ := ancestors_from lineage known cut
    exact .inl (by simp [above])
  · obtain ⟨-, -, above⟩ := ancestors_from lineage known split
    exact .inr (above ▸ further)

/-! ## What declarations keep -/

theorem property_listed {d : Definition} (asked : d.property? p = some info) :
    info ∈ d.properties.toList :=
  Array.mem_toList_iff.2 (Array.mem_of_getElem? asked)

/-- A property joins whose name is free above its owner and below. -/
theorem named_property {d : Definition} {new : PropertyInfo} (named : d.Named)
    (placed : new.id = ⟨d.properties.size⟩) (known : (d.kind? new.owner).isSome)
    (below : ∀ p ∈ d.properties.toList, p.name = new.name → new.owner ∉ d.ancestors p.owner)
    (above : ∀ p ∈ d.properties.toList, p.name = new.name → p.owner ∉ d.ancestors new.owner) :
    ({ d with properties := d.properties.push new } : Definition).Named := by
  constructor
  · intro p info held
    rcases property_push placed held with old | ⟨-, rfl⟩
    · exact named.owned old
    · exact known
  · intro p q info other held held' same mem
    rcases property_push placed held with old | ⟨rfl, rfl⟩ <;>
      rcases property_push placed held' with old' | ⟨rfl, rfl⟩
    · exact named.apart old old' same mem
    · exact (above info (property_listed old) same mem).elim
    · exact (below other (property_listed old') same.symm mem).elim
    · rfl

/-- Only the names and the owners of properties matter. -/
theorem named_of_same {d e : Definition} (named : d.Named) (kinds : e.kinds = d.kinds)
    (same : ∀ {p info}, e.property? p = some info →
      ∃ old, d.property? p = some old ∧ info.name = old.name ∧ info.owner = old.owner) :
    e.Named := by
  have known (k : KindId) : e.kind? k = d.kind? k := by unfold kind?; rw [kinds]
  have ancestors (k : KindId) : e.ancestors k = d.ancestors k := by unfold ancestors; rw [known]
  constructor
  · intro p info held
    obtain ⟨old, there, -, owner⟩ := same held
    rw [known, owner]
    exact named.owned there
  · intro p q info other held held' name mem
    obtain ⟨old, there, name₁, owner₁⟩ := same held
    obtain ⟨old', there', name₂, owner₂⟩ := same held'
    rw [ancestors, owner₁, owner₂] at mem
    exact named.apart there there' (name₁.symm.trans (name.trans name₂)) mem

theorem named_extends {d e : Definition} (extended : d.Extends e) (named : d.Named) :
    e.Named := by
  cases extended with
  | kind new placed =>
    constructor
    · intro p info held
      obtain ⟨kind, found⟩ := Option.isSome_iff_exists.1 (named.owned held)
      exact Option.isSome_of_mem (entry_push new found)
    · intro p q info other held held' same mem
      rw [ancestors_push new (named.owned held')] at mem
      exact named.apart held held' same mem
  | dynVar | envSpec | metadata | body => exact ⟨named.owned, named.apart⟩
  | property new i placed _ _ _ known clears above =>
    have below (p : PropertyInfo) (listed : p ∈ d.properties.toList) (same : p.name = new.name) :=
      (clears p listed same).2
    have pushed := named_property named placed known below above
    exact ⟨pushed.owned, pushed.apart⟩
  | override base new =>
    refine named_of_same named rfl fun held => ?_
    obtain ⟨old, there, rfl | ⟨-, rfl⟩⟩ := property_override held
    · exact ⟨_, there, rfl, rfl⟩
    · exact ⟨old, there, rfl, rfl⟩

theorem named_empty : empty.Named where
  owned held := by simp [property?, empty] at held
  apart held := by simp [property?, empty] at held

end Definition

/-- What is declared has its names in order. -/
theorem Builder.declare_named (declarations : List Declaration) :
    (declare declarations).definition.Named :=
  declare_keeps Definition.named_empty (fun _ _ => Definition.named_extends) declarations

/-! ## Finding a property by its name -/

namespace Definition
section Naming
variable {d : Definition} (lineage : d.Lineage) (named : d.Named)
include lineage named

omit lineage in
/-- A kind that a property comes down to is one that there is. -/
theorem Visible.known (visible : d.Visible k name p info) : (d.kind? k).isSome := by
  rcases visible.derives.cases_head with here | ⟨_, ⟨kind, found, -⟩, -⟩
  · exact here ▸ named.owned visible.asked
  · exact Option.isSome_of_mem found

theorem Visible.mem_ancestors (visible : d.Visible k name p info) :
    info.owner ∈ d.ancestors k :=
  mem_ancestors_of_derives lineage visible.derives (visible.known named)

/-- A name means one property at most. -/
theorem visible_unique (first : d.Visible k name p info) (second : d.Visible k name q other) :
    p = q := by
  have known := first.known named
  have same : info.name = other.name := first.named.trans second.named.symm
  rcases ancestors_linear lineage known (first.mem_ancestors lineage named)
    (second.mem_ancestors lineage named) with mem | mem
  · exact named.apart first.asked second.asked same mem
  · exact (named.apart second.asked first.asked same.symm mem).symm

variable (indexed : d.Indexed)
include indexed

theorem mem_properties_of : info ∈ d.propertiesOf k ↔ d.Visible k info.name info.id info := by
  unfold propertiesOf
  rw [List.mem_filter, List.contains_iff_mem]
  constructor
  · rintro ⟨listed, mem⟩
    obtain ⟨place, held⟩ := Array.mem_iff_getElem?.1 (Array.mem_toList_iff.1 listed)
    have known : (d.kind? k).isSome := by
      cases found : d.kind? k with
      | some kind => rfl
      | none => rw [ancestors, found] at mem; exact (List.not_mem_nil mem).elim
    refine ⟨?_, rfl, (mem_ancestors_iff lineage known).1 mem⟩
    rw [indexed.placed ⟨place⟩ info held]
    exact held
  · exact fun visible => ⟨property_listed visible.asked, visible.mem_ancestors lineage named⟩

/-- To look for a name finds what the name means. -/
theorem property_by_name_iff : d.propertyByName k name = some p ↔ ∃ info, d.Visible k name p info := by
  unfold propertyByName
  rw [Option.map_eq_some_iff]
  constructor
  · rintro ⟨info, found, rfl⟩
    have visible := (mem_properties_of lineage named indexed).1 (List.mem_of_find?_eq_some found)
    have name : info.name = name := by simpa using List.find?_some found
    exact ⟨info, name ▸ visible⟩
  · rintro ⟨info, visible⟩
    have place := indexed.placed p info visible.asked
    have listed : info ∈ d.propertiesOf k := by
      rw [mem_properties_of lineage named indexed, visible.named, place]
      exact visible
    have some_named : ((d.propertiesOf k).find? (·.name == name)).isSome :=
      List.find?_isSome.2 ⟨info, listed, beq_iff_eq.2 visible.named⟩
    obtain ⟨first, found⟩ := Option.isSome_iff_exists.1 some_named
    have its := (mem_properties_of lineage named indexed).1 (List.mem_of_find?_eq_some found)
    have name : first.name = name := by simpa using List.find?_some found
    exact ⟨first, found, visible_unique lineage named (name ▸ its) visible⟩

/-- No two properties of a kind have one name. -/
theorem properties_of_nodup (k : KindId) : ((d.propertiesOf k).map (·.name)).Nodup := by
  have placed (i : Nat) (info : PropertyInfo) (held : d.properties[i]? = some info) :
      info.id = ⟨i⟩ := indexed.placed ⟨i⟩ info held
  have distinct : (d.propertiesOf k).Nodup := by
    refine List.Nodup.filter _ (List.pairwise_iff_getElem.2 fun i j low high before same => ?_)
    have first := placed i _ (Array.getElem?_eq_getElem low)
    have second := placed j _ (Array.getElem?_eq_getElem high)
    rw [Array.getElem_toList, Array.getElem_toList] at same
    rw [same, second] at first
    exact Nat.ne_of_gt before (Handle.mk.inj first)
  refine List.Nodup.map_on (fun p mem q mem' same => ?_) distinct
  have first := (mem_properties_of lineage named indexed).1 mem
  have second := (mem_properties_of lineage named indexed).1 mem'
  have place := visible_unique lineage named (same ▸ first) second
  have asked := second.asked
  rw [← place, first.asked] at asked
  exact Option.some.inj asked

end Naming
end Definition

/-- What dispatch has an answer to is what can be found by its name: the properties that
come down to a concrete kind. -/
theorem Builder.built_dispatch_iff {declarations : List Declaration} {l : Language}
    (built : (declare declarations).build = .ok l) : (l.dispatch k p).isSome ↔
      ∃ kind info, l.kind? k = some kind ∧ kind.isAbstract = false ∧
        l.Visible k info.name p info := by
  constructor
  · intro answers
    obtain ⟨answer, dispatched⟩ := Option.isSome_iff_exists.1 answers
    have resolved := (build_ok built).2.1
    obtain ⟨row, inTable, inRow⟩ := Option.bind_eq_some_iff.1 dispatched
    rw [Option.join_eq_some_iff] at inRow
    rw [resolved, Definition.dispatchTable, Array.getElem?_map] at inTable
    obtain ⟨kind, known, rfl⟩ := Option.map_eq_some_iff.1 inTable
    rw [Array.getElem?_map] at inRow
    obtain ⟨info, asked, found⟩ := Option.map_eq_some_iff.1 inRow
    have concrete : kind.isAbstract = false := by
      refine Bool.eq_false_iff.2 fun abstract => ?_
      rw [Definition.dispatchOf, if_pos abstract] at found
      cases found
    refine ⟨kind, info, known, concrete, asked, rfl, Classical.byContradiction fun apart => ?_⟩
    rw [(built_dispatch built known concrete asked).1 apart] at dispatched
    cases dispatched
  · rintro ⟨kind, info, known, concrete, visible⟩
    obtain ⟨_, _, -, ⟨runs, -⟩ | ⟨missing, -⟩⟩ :=
      (built_dispatch built known concrete visible.asked).2 visible.derives
    · exact Option.isSome_of_mem runs
    · exact Option.isSome_of_mem missing

end Trellis
