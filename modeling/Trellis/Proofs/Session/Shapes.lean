import Trellis.Proofs.Session.Marks
import Trellis.Proofs.Session.Onward

/-! The shape of nodes. A node is made of a concrete kind, over as many children as its
kind names and with as many variables, and nothing of that changes later. So at every
point of a run every node is as its kind wants it. -/
namespace Trellis

/-- A node is of a concrete kind, with the children and the variables of the kind. -/
structure Node.Shaped (l : Language) (node : Node) (kind : KindInfo) : Prop where
  known : l.kind? node.kind = some kind
  concrete : kind.isAbstract = false
  filled : kind.isList = false → node.children.length = kind.fields.length
  vars : node.vars.length = kind.logicVars.length

/-- Every node of a tree is as its kind wants it. -/
def Tree.Shaped (l : Language) (t : Tree) : Prop :=
  ∀ n node, t.node? n = some node → ∃ kind, node.Shaped l kind

namespace Tree

theorem shaped_of_nodes {s t : Tree} (same : t.nodes = s.nodes) (shaped : s.Shaped l) :
    t.Shaped l := by
  intro n node held
  unfold node? at held
  rw [same] at held
  exact shaped n node held

theorem shaped_set_envs {s t : Tree} (given : s.setEnvs n envs = .ok t) (shaped : s.Shaped l) :
    t.Shaped l := by
  obtain ⟨-, -, -, -, nodes⟩ := set_envs_ok given
  intro m node held
  unfold node? at held
  rw [nodes, Array.getElem?_modify] at held
  split at held
  · obtain ⟨old, there, rfl⟩ := Option.map_eq_some_iff.1 held
    obtain ⟨kind, fits⟩ := shaped m old there
    exact ⟨kind, fits.known, fits.concrete, fits.filled, fits.vars⟩
  · exact shaped m node held

theorem shaped_add_node {s t : Tree} {new : NewNode} {kind : KindInfo}
    (known : l.kind? new.kind = some kind) (concrete : kind.isAbstract = false)
    (filled : kind.isList = false → new.children.length = kind.fields.length)
    (vars : new.varCount = kind.logicVars.length) (made : s.addNode new = .ok (n, t))
    (shaped : s.Shaped l) : t.Shaped l := by
  intro m node held
  rw [node_of_add_node made] at held
  split at held
  · cases held
    refine ⟨kind, known, concrete, filled, ?_⟩
    rw [List.length_map, List.length_range, vars]
  · obtain ⟨old, there, rfl⟩ := Option.map_eq_some_iff.1 held
    obtain ⟨kind, fits⟩ := shaped m old there
    exact ⟨kind, by split <;> exact ⟨fits.known, fits.concrete, fits.filled, fits.vars⟩⟩

end Tree

/-- If every node was as its kind wants it, it still is. -/
def Session.KeepsShapes (l : Language) (s t : Session) : Prop :=
  s.tree.Shaped l → t.tree.Shaped l

section Instances
variable {S : Setting} {l : Language}

open Session

theorem along_of_nodes {s t : Session} (same : t.tree.nodes = s.tree.nodes)
    (populated : List (NodeId × EnvId)) :
    Along (KeepsShapes l) ⟨s, populated⟩ ⟨t, populated⟩ :=
  ⟨Tree.shaped_of_nodes same, List.suffix_refl _⟩

theorem along_of_aside_shapes {s t : Session} (populated : List (NodeId × EnvId))
    (step : Aside s t) : Along (KeepsShapes l) ⟨s, populated⟩ ⟨t, populated⟩ :=
  along_of_nodes (by rw [(aside_frame step).1]) populated

instance : Track (Along (KeepsShapes l)) where
  refl _ := along_of_nodes rfl _
  trans first rest := ⟨fun shaped => rest.1 (first.1 shaped), first.2.trans rest.2⟩

instance : Adds S (Along (KeepsShapes S.language)) where
  named _ _ _ := along_of_nodes rfl _
  added _ made := by
    obtain ⟨info, tree, known, concrete, filled, added, rfl⟩ := add_node_ok made
    exact ⟨Tree.shaped_add_node known concrete filled rfl added, List.suffix_refl _⟩

instance : Populates (Along (KeepsShapes l)) where
  recorded moved := moved.2
  equation _ _ _ := along_of_nodes rfl _
  solved S _ e dynVars machine := EvalM.solve_moves machine (fun _ _ _ _ => along_of_nodes rfl _)
    (fun _ _ _ _ _ => along_of_nodes rfl _) S e dynVars
  reported _ _ _ _ _ := along_of_nodes rfl _
  created _ _ _ _ := along_of_nodes rfl _
  bound _ _ _ _ _ _ := along_of_nodes rfl _
  referred _ _ _ _ _ := along_of_nodes rfl _
  opened s _ root node _ _ _ := by
    obtain ⟨unitEnvs, eq⟩ := open_top_eq s root node.unit
    rw [eq]
    exact along_of_nodes rfl _

instance : Remembers S (Along (KeepsShapes S.language)) where
  unit _ _ _ _ _ := along_of_nodes rfl _
  carried s _ u _ plan _ := carry_out_makes s u plan
  rooted _ _ _ _ _ given := by
    obtain ⟨tree, rooted, rfl⟩ := set_root_ok given
    obtain ⟨-, -, -, -, -, rfl⟩ := Tree.set_root_ok rooted
    exact along_of_nodes rfl _
  counted _ _ _ := along_of_nodes rfl _
  deeper limit inside := EvalM.deeper_moves (fun p step _ => along_of_aside_shapes p step) limit inside
  loading inside h _ := EvalM.loading_moves (fun p step _ => along_of_aside_shapes p step) inside h
  resolving inside h env index _ _ _ :=
    EvalM.resolving_moves env index (fun _ p _ => along_of_nodes rfl p) inside h
  memoized name key inside := EvalM.memoized_moves (fun p step _ => along_of_aside_shapes p step) name key inside

instance : Hosts S (Along (KeepsShapes S.language)) where
  begun _ _ _ := along_of_nodes rfl _
  registered _ _ _ _ := along_of_nodes rfl _

instance (m : Machine) : Fills S m (Along (KeepsShapes S.language)) where
  filled _ _ _ _ _ _ _ _ _ _ given := ⟨Tree.shaped_set_envs given, List.suffix_cons _ _⟩

end Instances

section Points
variable {S : Setting} {home : LoaderState} {running : List Activity} {s t : Session}

theorem inner_shaped (step : s.Inner t) (shaped : s.tree.Shaped l) : t.tree.Shaped l := by
  cases step with
  | assigned v x => exact Tree.shaped_of_nodes rfl shaped
  | reported code message location => exact shaped
  | opened root unit =>
    obtain ⟨unitEnvs, eq⟩ := open_top_eq s root unit
    rw [eq]
    exact shaped
  | filled given => exact Tree.shaped_set_envs given shaped

theorem operation_shaped (S : Setting) (depth : Nat) (o : Operation)
    (shaped : s.tree.Shaped S.language) : (o.run S (.upTo S depth) s).tree.Shaped S.language := by
  obtain ⟨_, moved, _⟩ := operation_moves (S := S)
    (R := Along (Session.KeepsShapes S.language)) (machine_moves (S := S) depth) o ⟨s, []⟩ fun _ =>
      along_of_nodes rfl _
  exact moved shaped

/-- At every point of a run every node is as its kind wants it. -/
theorem point_shaped (point : Point S home running s) : s.tree.Shaped S.language := by
  induction point with
  | start pool bag =>
    intro n node held
    exact absurd held (by simp [Session.new, Tree.node?, Tree.empty])
  | carried _ o depth ih => exact operation_shaped S depth o ih
  | changed _ step ih => exact inner_shaped step ih
  | body _ _ _ _ ih | memoized _ _ _ _ _ _ ih | thunk _ _ _ ih | load _ _ ih => exact ih

end Points
end Trellis
