import Trellis.Proofs.Language.Lineage
import Trellis.Proofs.Session.Shapes

/-! Where the children and the variables of a node stand. A kind has the names of the
kinds it comes from, each in its place, so a node can be read by an index that was found
on any of them. Only a list may lack children: the fields it comes by from its parent are
named, but how many children it has is up to whoever makes it. -/
namespace Trellis

namespace Definition

/-- A place that is found among names is found there when more names follow. -/
theorem index_of_prefix {names more : List String} (before : names <+: more)
    (found : names.idxOf? name = some i) : more.idxOf? name = some i ∧ i < names.length := by
  obtain ⟨rest, rfl⟩ := before
  unfold List.idxOf? at found ⊢
  refine ⟨?_, (List.findIdx?_eq_some_iff_getElem.1 found).1⟩
  rw [List.findIdx?_append, found]
  rfl

/-- Every kind carries on its parent. -/
def Laid (d : Definition) : Prop := ∀ {k info}, d.kind? k = some info → d.Lays info

theorem laid_empty : empty.Laid := fun found => by simp [kind?, empty] at found

/-- What a kind carries on does not depend on the kinds declared later. -/
theorem lays_push {d : Definition} {info : KindInfo} (new : KindInfo)
    (up : ∀ p, info.parent = some p → (d.kind? p).isSome) (laid : d.Lays info) :
    ({ d with kinds := d.kinds.push new } : Definition).Lays info where
  inherits {p parent} derived found := by
    obtain ⟨known, there⟩ := Option.isSome_iff_exists.1 (up p derived)
    have stays : (d.kinds.push new)[p.raw]? = some known := entry_push new there
    cases stays.symm.trans found
    exact laid.inherits derived there
  bare := laid.bare

theorem laid_extends {d e : Definition} (extended : d.Extends e) (lineage : d.Lineage)
    (laid : d.Laid) : e.Laid := by
  cases extended with
  | kind new placed _ known _ lays =>
    intro k info found
    rcases kind_push placed found with old | ⟨-, rfl⟩
    · exact lays_push new (fun p => lineage.known old) (laid old)
    · exact lays_push _ known lays
  | _ => exact fun found => ⟨(laid found).inherits, (laid found).bare⟩

end Definition

/-- What is declared has its names in order. -/
theorem Builder.declare_laid (declarations : List Declaration) :
    (declare declarations).definition.Laid :=
  (declare_keeps (I := fun d => d.Lineage ∧ d.Laid) ⟨Definition.lineage_empty, Definition.laid_empty⟩
    (fun _ _ extended held => ⟨Definition.lineage_extends extended held.1,
      Definition.laid_extends extended held.1 held.2⟩) declarations).2

namespace Definition

section Descent
variable {d : Definition} (laid : d.Laid)
include laid

/-- A kind and one it comes from: the names of that one come first, and it is no list
unless it is the kind itself. -/
theorem names_of_derives (lineage : d.Lineage) (derives : d.Derives k a)
    (known : d.kind? k = some kind) :
    ∃ ancestor, d.kind? a = some ancestor ∧ ancestor.fields <+: kind.fields ∧
      ancestor.logicVars <+: kind.logicVars ∧ (ancestor.isList = true → a = k) := by
  induction derives using Relation.ReflTransGen.head_induction_on generalizing kind with
  | refl => exact ⟨kind, known, List.prefix_refl _, List.prefix_refl _, fun _ => rfl⟩
  | head under _ ih =>
    obtain ⟨info, found, parent⟩ := under
    cases known.symm.trans found
    obtain ⟨above, there⟩ := Option.isSome_iff_exists.1 (lineage.known found parent)
    have carries := (laid found).inherits parent there
    obtain ⟨ancestor, known, fields, logicVars, single⟩ := ih there
    refine ⟨ancestor, known, fields.trans carries.fields, logicVars.trans carries.logicVars, ?_⟩
    intro list
    cases single list
    cases there.symm.trans known
    rw [carries.single] at list
    cases list

/-- A list names what its parent names. -/
theorem fields_of_list (lineage : d.Lineage) (known : d.kind? k = some kind)
    (list : kind.isList = true) (name : String) :
    d.fieldIndex k name = kind.parent.bind (d.fieldIndex · name) := by
  have own : d.fieldIndex k name = kind.fields.idxOf? name := by rw [fieldIndex, known]; rfl
  rw [own]
  cases parent : kind.parent with
  | none => rw [(laid known).bare parent list]; rfl
  | some p =>
    obtain ⟨above, there⟩ := Option.isSome_iff_exists.1 (lineage.known known parent)
    rw [((laid known).inherits parent there).list list, Option.bind_some, fieldIndex, there]
    rfl

end Descent
end Definition

/-- **Names keep their places.** In a language that was built, a node has, at every point
of every run, each field and each logic variable of each kind that its own kind comes from
at the index at which that kind has it. There is a variable at each of these indices, and
a child at each of them unless the kind of the node is a list. A list has no fields but
those of its parent, and no other kind that a kind comes from is a list. -/
theorem node_names_keep_places {S : Setting} {declarations : List Declaration}
    (built : (Builder.declare declarations).build = .ok S.language)
    (point : Point S home running s) (held : s.tree.node? n = some node) :
    let l := S.language
    ∃ kind, l.kind? node.kind = some kind ∧
      (∀ a ∈ l.ancestors node.kind,
        (∀ f i, l.fieldIndex a f = some i → l.fieldIndex node.kind f = some i ∧
          (kind.isList = false → ∃ c, node.children[i]? = some c)) ∧
        (∀ v i, l.logicVarIndex a v = some i → l.logicVarIndex node.kind v = some i ∧
          ∃ x, node.vars[i]? = some x) ∧
        (a ≠ node.kind → ∀ info, l.kind? a = some info → info.isList = false)) ∧
      (kind.isList = true →
        ∀ f, l.fieldIndex node.kind f = kind.parent.bind (l.fieldIndex · f)) := by
  intro l
  obtain ⟨same, -, -⟩ := Builder.build_ok built
  have lineage : l.Lineage := same ▸ Builder.declare_lineage declarations
  have laid : l.Laid := same ▸ Builder.declare_laid declarations
  obtain ⟨kind, shaped⟩ := point_shaped point n node held
  refine ⟨kind, shaped.known, fun a mem => ?_,
    Definition.fields_of_list laid lineage shaped.known⟩
  obtain ⟨ancestor, known, fields, logicVars, single⟩ := Definition.names_of_derives laid lineage
    ((Definition.mem_ancestors_iff lineage (Option.isSome_of_mem shaped.known)).1 mem) shaped.known
  refine ⟨fun f i found => ?_, fun v i found => ?_, fun other info there => ?_⟩
  · rw [Definition.fieldIndex, known] at found
    rw [Definition.fieldIndex, shaped.known]
    obtain ⟨there, bound⟩ := Definition.index_of_prefix fields found
    refine ⟨there, fun single => ?_⟩
    have enough : i < node.children.length := by
      rw [shaped.filled single]
      exact Nat.lt_of_lt_of_le bound fields.length_le
    exact ⟨_, List.getElem?_eq_getElem enough⟩
  · rw [Definition.logicVarIndex, known] at found
    rw [Definition.logicVarIndex, shaped.known]
    obtain ⟨there, bound⟩ := Definition.index_of_prefix logicVars found
    have enough : i < node.vars.length := by
      rw [shaped.vars]
      exact Nat.lt_of_lt_of_le bound logicVars.length_le
    exact ⟨there, _, List.getElem?_eq_getElem enough⟩
  · cases known.symm.trans there
    exact Bool.eq_false_iff.2 fun list => other (single list)

/-- A node that has a child and a variable by its parent kind, and one of each by its own. -/
theorem node_names_keep_places_of_inherited :
    let l := (Builder.declare [
      .kind ⟨"Base", none, ["name"], ["type"], true, false, false, .caller⟩,
      .kind ⟨"Leaf", some ⟨0⟩, ["body"], ["size"], false, false, false, .caller⟩,
      .kind ⟨"List", none, [], [], false, true, false, .caller⟩]).language
    let S : Setting := ⟨l, .standard⟩
    let s := [Operation.newUnit "", .addNode ⟨0⟩ ⟨2⟩ [] .empty .dummy,
      .addNode ⟨0⟩ ⟨2⟩ [] .empty .dummy, .addNode ⟨0⟩ ⟨1⟩ [⟨0⟩, ⟨1⟩] .empty .dummy].foldl
      (Operation.run S (.upTo S 0)) (.new (.new none) .standard .ready)
    ∃ node, s.tree.node? ⟨2⟩ = some node ∧ ⟨0⟩ ∈ l.ancestors node.kind ∧
      l.fieldIndex ⟨0⟩ "name" = some 0 ∧ l.logicVarIndex ⟨0⟩ "type" = some 0 ∧
      l.fieldIndex node.kind "name" = some 0 ∧ (∃ c, node.children[0]? = some c) ∧
      l.logicVarIndex node.kind "type" = some 0 ∧ ∃ x, node.vars[0]? = some x := by
  intro l S s
  have built : (Builder.declare _).build = .ok S.language :=
    (Builder.build_ok_iff (by decide +kernel)).2 ⟨by decide +kernel, rfl⟩
  have point : Point S .ready [] s :=
    ((((Point.start _ _).carried (.newUnit "") 0).carried (.addNode ⟨0⟩ ⟨2⟩ [] .empty .dummy)
      0).carried (.addNode ⟨0⟩ ⟨2⟩ [] .empty .dummy) 0).carried
      (.addNode ⟨0⟩ ⟨1⟩ [⟨0⟩, ⟨1⟩] .empty .dummy) 0
  have made : (s.tree.node? ⟨2⟩).map (·.kind) = some ⟨1⟩ := by decide +kernel
  obtain ⟨node, held, same⟩ := Option.map_eq_some_iff.1 made
  obtain ⟨kind, known, places, -⟩ := node_names_keep_places built point held
  have single : kind.isList = false := by
    have leaf : (l.kind? node.kind).map (·.isList) = some false := by rw [same]; decide +kernel
    rw [known] at leaf
    exact Option.some.inj leaf
  have above : ⟨0⟩ ∈ l.ancestors node.kind := by rw [same]; decide +kernel
  have name : l.fieldIndex ⟨0⟩ "name" = some 0 := by decide +kernel
  have type : l.logicVarIndex ⟨0⟩ "type" = some 0 := by decide +kernel
  obtain ⟨fields, logicVars, -⟩ := places ⟨0⟩ above
  obtain ⟨there, child⟩ := fields _ _ name
  exact ⟨node, held, above, name, type, there, child single, logicVars _ _ type⟩

/-- A list is declared under a kind that has a field; so the list has that field as well,
and a node of it need not have a child there. -/
theorem list_inherits_field_without_child :
    let b := Builder.declare [.kind ⟨"Base", none, ["first"], [], true, false, false, .caller⟩,
      .kind ⟨"Items", some ⟨0⟩, [], [], false, true, false, .caller⟩]
    let S : Setting := ⟨b.language, .standard⟩
    let s := [Operation.newUnit "", .addNode ⟨0⟩ ⟨1⟩ [] .empty .dummy].foldl
      (Operation.run S (.upTo S 0)) (.new (.new none) .standard .ready)
    b.build = .ok b.language ∧
      (b.language.kind? ⟨1⟩).map (·.isList) = some true ∧
      b.language.fieldIndex ⟨1⟩ "first" = some 0 ∧
      (s.tree.node? ⟨0⟩).map (fun node => (node.kind, node.children[0]?)) = some (⟨1⟩, none) := by
  intro b S s
  have built : b.build = .ok b.language :=
    (Builder.build_ok_iff (by decide +kernel)).2 ⟨by decide +kernel, rfl⟩
  exact ⟨built, by decide +kernel, by decide +kernel, by decide +kernel⟩

end Trellis
