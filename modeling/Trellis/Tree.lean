import Trellis.Entity
import Trellis.Span
import Trellis.Symbol

/-! The arena of syntax nodes. Nodes are made bottom-up, so a child is always
older than its parent; the tree carries that as a proof, and every walk down
the tree ends because of it. After a node is made only three things about it
can change: it can receive a parent, it can receive its environments once, and
its logic variables can receive values. -/
namespace Trellis

/-- The environments population gives a node: the one the node itself is
evaluated in and the one its children start from. -/
structure NodeEnvs where
  own : EnvId
  inner : EnvId
deriving DecidableEq, Repr, Inhabited

structure Node where
  kind : KindId
  children : List NodeId
  parent : Option NodeId
  unit : UnitId
  text : Symbol
  span : Span
  vars : List VarId
  envs : Option NodeEnvs
deriving DecidableEq, Repr, Inhabited

namespace Node

def isPopulated (n : Node) : Bool := n.envs.isSome

/-- A node that stands for a piece of text of the program. -/
def isToken (n : Node) : Bool := !n.text.isEmpty

end Node

/-- One separately analysed part of a program. -/
structure AnalysisUnit where
  name : Symbol
  root : Option NodeId
deriving DecidableEq, Repr, Inhabited

inductive TreeError where
  | unknownNode (node : NodeId)
  | unknownUnit (unit : UnitId)
  | alreadyParented (child : NodeId)
  | foreignChild (child : NodeId) (childUnit unit : UnitId)
  | alreadyPopulated (node : NodeId)
  | rootAlreadySet (unit : UnitId)
deriving DecidableEq, Repr

def TreeError.message : TreeError → String
  | unknownNode n => "unknown node " ++ n.text
  | unknownUnit u => "unknown analysis unit " ++ u.text
  | alreadyParented c => "node " ++ c.text ++ " already has a parent"
  | foreignChild c cu u =>
    "node " ++ c.text ++ " belongs to " ++ cu.text ++ ", not " ++ u.text
  | alreadyPopulated n => "environments of node " ++ n.text ++ " are already populated"
  | rootAlreadySet u => "analysis unit " ++ u.text ++ " already has a root"

/-- What a node is made from. -/
structure NewNode where
  kind : KindId
  unit : UnitId
  children : List NodeId
  text : Symbol
  span : Span
  varCount : Nat

/-- Every child is older than the node that holds it. -/
def Descending (nodes : Array Node) : Prop :=
  ∀ (i : Nat) (n : Node), nodes[i]? = some n → ∀ c ∈ n.children, c.raw < i

theorem Descending.modify (h : Descending nodes) (i : Nat) (f : Node → Node)
    (keeps : ∀ n, (f n).children = n.children) : Descending (nodes.modify i f) := by
  intro j n held c hc
  rw [Array.getElem?_modify] at held
  split at held
  · obtain ⟨m, hm, rfl⟩ := Option.map_eq_some_iff.1 held
    exact h j m hm c (keeps m ▸ hc)
  · exact h j n held c hc

theorem Descending.push (h : Descending nodes) (n : Node)
    (older : ∀ c ∈ n.children, c.raw < nodes.size) : Descending (nodes.push n) := by
  intro j m held c hc
  rw [Array.getElem?_push] at held
  split at held
  · next eq => cases held; exact eq ▸ older c hc
  · exact h j m held c hc

structure Tree where
  nodes : Array Node
  units : Array AnalysisUnit
  values : Array (Option Entity)
  descending : Descending nodes

namespace Tree

def empty : Tree := ⟨#[], #[], #[], fun _ _ held => by simp at held⟩

instance : Inhabited Tree := ⟨empty⟩

def node? (t : Tree) (n : NodeId) : Option Node := t.nodes[n.raw]?

def node (t : Tree) (n : NodeId) : Except TreeError Node :=
  match t.node? n with
  | some node => .ok node
  | none => .error (.unknownNode n)

def unit (t : Tree) (u : UnitId) : Except TreeError AnalysisUnit :=
  match t.units[u.raw]? with
  | some info => .ok info
  | none => .error (.unknownUnit u)

def size (t : Tree) : Nat := t.nodes.size

def isEmpty (t : Tree) : Bool := t.nodes.isEmpty

def varCount (t : Tree) : Nat := t.values.size

/-- The units with their handles, oldest first. -/
def unitList (t : Tree) : List (UnitId × AnalysisUnit) :=
  t.units.toList.zipIdx.map fun (info, i) => (⟨i⟩, info)

def addUnit (t : Tree) (name : Symbol) : UnitId × Tree :=
  (⟨t.units.size⟩, { t with units := t.units.push ⟨name, none⟩ })

/-- Give a unit its root. A root is never replaced. -/
def setRoot (t : Tree) (u : UnitId) (root : NodeId) : Except TreeError Tree := do
  let _ ← t.node root
  let info ← t.unit u
  if info.root.isSome then throw (.rootAlreadySet u)
  return { t with units := t.units.modify u.raw ({ · with root := some root }) }

/-- A child must exist, be free, and belong to the unit of its parent-to-be.
The first child that does not decides the error. -/
def checkChildren (t : Tree) (u : UnitId) : List NodeId → Except TreeError Unit
  | [] => .ok ()
  | c :: rest =>
    match t.node? c with
    | none => .error (.unknownNode c)
    | some n =>
      if n.parent.isSome then .error (.alreadyParented c)
      else if n.unit ≠ u then .error (.foreignChild c n.unit u)
      else t.checkChildren u rest

theorem checkChildren_eq_ok {t : Tree} (h : t.checkChildren u cs = .ok ()) :
    ∀ c ∈ cs, ∃ n, t.node? c = some n ∧ n.parent = none ∧ n.unit = u := by
  induction cs with
  | nil => simp
  | cons c rest ih =>
    unfold checkChildren at h
    split at h
    · cases h
    · next n held =>
      split at h
      · cases h
      · next free =>
        split at h
        · cases h
        · next same =>
          simp only [List.mem_cons, forall_eq_or_imp]
          exact ⟨⟨n, held, by simpa using free, by simpa using same⟩, ih h⟩

/-- Tell the nodes of `children` that `parent` holds them. -/
def adopt (nodes : Array Node) (parent : NodeId) (children : List NodeId) : Array Node :=
  children.foldl (fun nodes c => nodes.modify c.raw ({ · with parent := some parent })) nodes

theorem size_adopt {nodes : Array Node} : (adopt nodes parent children).size = nodes.size := by
  induction children generalizing nodes with
  | nil => rfl
  | cons c rest ih => simpa [adopt] using @ih (nodes.modify c.raw _)

theorem descending_adopt {nodes : Array Node} (h : Descending nodes) :
    Descending (adopt nodes parent children) := by
  induction children generalizing nodes with
  | nil => exact h
  | cons c rest ih => exact ih (h.modify c.raw _ fun _ => rfl)

/-- Add a node above existing ones, with fresh logic variables. Nothing changes
when a child is refused. -/
def addNode (t : Tree) (new : NewNode) : Except TreeError (NodeId × Tree) :=
  match t.unit new.unit with
  | .error e => .error e
  | .ok _ =>
    match accepted : t.checkChildren new.unit new.children with
    | .error e => .error e
    | .ok () =>
      let id : NodeId := ⟨t.nodes.size⟩
      let node : Node := {
        kind := new.kind, children := new.children, parent := none, unit := new.unit,
        text := new.text, span := new.span,
        vars := (List.range new.varCount).map fun i => ⟨t.values.size + i⟩, envs := none }
      .ok (id, { t with
        nodes := (adopt t.nodes id new.children).push node
        values := t.values ++ Array.replicate new.varCount none
        descending := (descending_adopt t.descending).push node fun c hc => by
          obtain ⟨n, held, -⟩ := checkChildren_eq_ok accepted c hc
          rw [size_adopt]
          exact (Array.getElem?_eq_some_iff.1 held).1 })

/-- Record the environments of a node. They are recorded once. -/
def setEnvs (t : Tree) (n : NodeId) (envs : NodeEnvs) : Except TreeError Tree := do
  let node ← t.node n
  if node.envs.isSome then throw (.alreadyPopulated n)
  return { t with
    nodes := t.nodes.modify n.raw ({ · with envs := some envs })
    descending := t.descending.modify n.raw _ fun _ => rfl }

/-- The value of a logic variable, if it has one. -/
def value (t : Tree) (v : VarId) : Option Entity := (t.values[v.raw]?).join

def setValue (t : Tree) (v : VarId) (e : Entity) : Tree :=
  { t with values := t.values.modify v.raw fun _ => some e }

/-- The children of a node, each known to be older than it. -/
def childrenOf (t : Tree) (n : NodeId) : List { c : NodeId // c.raw < n.raw } :=
  match held : t.nodes[n.raw]? with
  | some node => node.children.attach.map fun c => ⟨c.1, t.descending n.raw node held c.1 c.2⟩
  | none => []

/-- A node and everything below it, parents before children and children in
order. A handle that names no node is listed by itself. -/
def preorder (t : Tree) (n : NodeId) : List NodeId :=
  n :: (t.childrenOf n).flatMap fun ⟨c, _⟩ => t.preorder c
termination_by n.raw

/-- The first node at or below `n`, in the order of `preorder`, that passes a
test. Nothing after it is looked at. -/
def firstBelow (t : Tree) (test : Node → Bool) (n : NodeId) : Option NodeId :=
  if (t.node? n).any test then some n
  else (t.childrenOf n).findSome? fun ⟨c, _⟩ => t.firstBelow test c
termination_by n.raw

theorem firstBelow_eq (t : Tree) (test : Node → Bool) (n : NodeId) :
    t.firstBelow test n = (t.preorder n).find? fun m => (t.node? m).any test := by
  rw [firstBelow, preorder, List.find?_cons, List.find?_flatMap]
  split
  · next passes => rw [passes]
  · next fails =>
    rw [Bool.not_eq_true] at fails
    rw [fails]
    congr 1
    funext ⟨c, older⟩
    exact t.firstBelow_eq test c
termination_by n.raw

theorem childrenOf_eq (t : Tree) (n : NodeId) :
    (t.childrenOf n).map (·.1) = ((t.node? n).map (·.children)).getD [] := by
  unfold childrenOf node?
  split <;> simp_all

end Tree
end Trellis
