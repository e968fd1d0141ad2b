import Trellis.Proofs.Session.Nesting
import Trellis.Proofs.Session.Onward
import Trellis.Proofs.Symbols

/-! Opening and rooting units on demand. A unit is found by its name, and the name that a new
unit is given is the one that was asked for if interning the text of a symbol gives that
symbol again. A plan that makes its own root leaves the unit with that root as soon as it is
carried out. What was found once is found ever after. -/
namespace Trellis

/-! ## Plans -/

/-- A plan whose root is one of the nodes that it makes. -/
def UnitPlan.Rooted (plan : UnitPlan) : Prop := ∃ i < plan.nodes.length, plan.root = .planned i

namespace Session

/-- Providers do what they should: they are registered under the symbols of texts, and each
makes the root that it returns. The symbols are those of a table with idempotent canonical
forms. -/
structure Fair (s : Session) : Prop where
  canonical : s.pool.symbols.Idempotent
  named : ∀ name plan, s.plan name = some plan → s.pool.symbols.Names name
  rooted : ∀ name plan, s.plan name = some plan → plan.Rooted

/-- The names of the units, the oldest first. -/
def unitNames (s : Session) : List Symbol := (s.tree.units.map (·.name)).toList

variable {s t : Session} {name : Symbol} {plan : UnitPlan} {u : UnitId}

theorem fair_of_same (fair : s.Fair) (plans : t.plans = s.plans)
    (canonical : t.pool.symbols.canonical = s.pool.symbols.canonical)
    (names : ∀ name, s.pool.symbols.Names name → t.pool.symbols.Names name) : t.Fair where
  canonical text := by
    unfold SymbolTable.canonicalize
    rw [canonical]
    exact fair.canonical text
  named name plan known := by
    unfold Session.plan at known
    rw [plans] at known
    exact names name (fair.named name plan known)
  rooted name plan known := by
    unfold Session.plan at known
    rw [plans] at known
    exact fair.rooted name plan known

/-- The text of a provided unit stands for the name of the unit. -/
theorem intern_text (fair : s.Fair) (known : s.plan name = some plan) :
    s.pool.intern (s.pool.text name) = (name, s.pool) := by
  unfold Pool.intern Pool.text
  rw [SymbolTable.intern_lookup_of_names fair.canonical (fair.named name plan known)]

theorem unit_by_name_none : s.unitByName name = none ↔ name ∉ s.unitNames := by
  simp [unitByName, unitNames, Array.findIdx?_eq_none_iff]

theorem unit_of_name (found : s.unitByName name = some u) :
    ∃ info, s.tree.units[u.raw]? = some info := by
  obtain ⟨i, first, rfl⟩ := Option.map_eq_some_iff.1 found
  obtain ⟨known, -⟩ := Array.findIdx?_eq_some_iff_getElem.1 first
  exact ⟨_, Array.getElem?_eq_getElem known⟩

/-- The unit of a name stays the unit of that name. -/
theorem unit_by_name_later (later : s.tree.Later t.tree) (found : s.unitByName name = some u) :
    t.unitByName name = some u := by
  obtain ⟨i, first, rfl⟩ := Option.map_eq_some_iff.1 found
  refine Option.map_eq_some_iff.2 ⟨i, ?_, rfl⟩
  have same (j : Nat) (known : j < s.tree.units.size) :
      ∃ still : j < t.tree.units.size, t.tree.units[j].name = s.tree.units[j].name := by
    obtain ⟨b, held, kept⟩ := later.units j _ (Array.getElem?_eq_getElem known)
    obtain ⟨still, rfl⟩ := Array.getElem?_eq_some_iff.1 held
    exact ⟨still, kept.name⟩
  rw [Array.findIdx?_eq_some_iff_getElem] at first ⊢
  obtain ⟨known, named, older⟩ := first
  obtain ⟨still, own⟩ := same i known
  refine ⟨still, by rwa [own], fun j before => ?_⟩
  obtain ⟨_, other⟩ := same j (Nat.lt_trans before known)
  rw [other]
  exact older j before

/-! ## Opening a unit -/

theorem open_unit_of_found (found : s.unitByName name = some u) : s.openUnit name = (u, s) := by
  unfold openUnit
  rw [found]

theorem unit_names_new_unit (s : Session) (text : String) :
    (s.newUnit text).2.unitNames = s.unitNames ++ [(s.pool.intern text).1] := by
  simp [unitNames, newUnit, Tree.addUnit]

/-- The unit that is opened for a provided name is the unit of that name. -/
theorem unit_by_name_open (fair : s.Fair) (known : s.plan name = some plan) :
    (s.openUnit name).2.unitByName name = some (s.openUnit name).1 := by
  unfold openUnit
  split
  · next found => exact found
  · next unnamed =>
    have none_ : s.tree.units.findIdx? (·.name = name) = none := Option.map_eq_none_iff.1 unnamed
    unfold newUnit
    rw [intern_text fair known]
    simp [unitByName, Tree.addUnit, Array.findIdx?_push, none_]

end Session

/-! ## Carrying out a plan -/

theorem Tree.units_add_node {s t : Tree} (made : s.addNode new = .ok (n, t)) :
    t.units = s.units := by
  unfold addNode at made
  split at made
  · cases made
  · split at made <;> cases made
    rfl

/-- Histories with the same units. -/
def SameUnits (h k : History) : Prop := k.now.tree.units = h.now.tree.units

instance : Makes SameUnits where
  refl _ := rfl
  trans first rest := rest.trans first
  interned _ _ _ := rfl
  node _ _ _ _ _ made := Tree.units_add_node made

namespace Session
variable {S : Setting} {s t : Session} {name : Symbol} {plan : UnitPlan} {u : UnitId}

/-- Each node of a plan is there when it has been made. -/
theorem make_nodes_ok {made all : List NodeId} (nodes : List PlannedNode)
    (ran : s.makeNodes S u made nodes = (.ok all, t))
    (there : ∀ n ∈ made, n.raw < s.tree.size) :
    all.length = made.length + nodes.length ∧ ∀ n ∈ all, n.raw < t.tree.size := by
  induction nodes generalizing s made with
  | nil =>
    cases ran
    exact ⟨rfl, there⟩
  | cons node rest ih =>
    have step {n : NodeId} {new : NewNode} {s' : Session}
        (added : s.tree.addNode new = .ok (n, s'.tree))
        (ran : s'.makeNodes S u (made ++ [n]) rest = (.ok all, t)) :
        all.length = made.length + (rest.length + 1) ∧ ∀ n ∈ all, n.raw < t.tree.size := by
      obtain ⟨next, grown⟩ := Tree.size_add_node added
      obtain ⟨length, all⟩ := ih ran fun m mem => by
        rcases List.mem_append.1 mem with old | last
        · have := there m old
          omega
        · rw [List.mem_singleton.1 last]
          omega
      refine ⟨?_, all⟩
      rw [length, List.length_append, List.length_singleton]
      omega
    cases node with
    | inner kind children =>
      rw [makeNodes] at ran
      split at ran
      · next made =>
        obtain ⟨info, tree, -, -, -, added, rfl⟩ := add_node_ok made
        exact step added ran
      · cases ran
    | token kind text =>
      rw [makeNodes] at ran
      split at ran
      · next made =>
        obtain ⟨new, -, added⟩ := new_token_ok made
        exact step added ran
      · cases ran

/-- A provider that makes its own root returns a node that is there. -/
theorem carry_out_ok {root : NodeId} (rooted : plan.Rooted)
    (ran : s.carryOut S u plan = (.ok root, t)) :
    root.raw < t.tree.size ∧ t.tree.units = s.tree.units := by
  have units : SameUnits ⟨s, []⟩ ⟨(s.carryOut S u plan).2, []⟩ := carry_out_makes s u plan
  rw [ran] at units
  refine ⟨?_, units⟩
  obtain ⟨i, within, own⟩ := rooted
  unfold carryOut at ran
  rcases made : s.makeNodes S u [] plan.nodes with ⟨e | all, t'⟩ <;> rw [made] at ran <;> cases ran
  obtain ⟨length, there⟩ := make_nodes_ok plan.nodes made fun n mem => (List.not_mem_nil mem).elim
  have last : i < all.length := by simpa [length] using within
  have held : all[i]? = some all[i] := List.getElem?_eq_getElem last
  show (plan.root.node all).raw < t.tree.size
  rw [own, PlanRef.node, List.getD, held]
  exact there _ (List.getElem_mem last)

theorem set_root_of_there {root : NodeId} (there : root.raw < s.tree.size)
    (found : s.tree.units[u.raw]? = some info) (free : info.root = none) :
    ∃ t, s.setRoot u root = .ok t := by
  have held : s.tree.node root = .ok s.tree.nodes[root.raw] := by
    rw [Tree.node, Tree.node?, Array.getElem?_eq_getElem there]
  unfold setRoot Tree.setRoot Tree.unit
  rw [held, found]
  simp only [bind, Except.bind, free]
  exact ⟨_, rfl⟩

end Session

namespace EvalM
variable {S : Setting} {s t : Session} {name : Symbol} {plan : UnitPlan} {u : UnitId}

/-- Where a unit has its root nothing is carried out. -/
theorem root_of_known (S : Setting) (rooted : s.root u = some root) (text : String)
    (plan : UnitPlan) : rootOf S u text plan s = (.ok root, s) := by
  unfold rootOf
  rw [rooted]

/-- A provider that has returned leaves the unit with its root. -/
theorem root_of_rooted (rooted : plan.Rooted) (found : s.tree.units[u.raw]? = some info)
    (free : s.root u = none) (built : (s.carryOut S u plan).1 = .ok root) (text : String) :
    ∃ t, rootOf S u text plan s = (.ok root, t) := by
  rcases ran : s.carryOut S u plan with ⟨e | made, t⟩ <;> rw [ran] at built <;> cases built
  obtain ⟨there, units⟩ := Session.carry_out_ok rooted ran
  obtain ⟨t', given⟩ := Session.set_root_of_there there (by rw [units, found])
    (by simpa [Session.root, found] using free)
  unfold rootOf
  rw [free, ran]
  dsimp only
  rw [given]
  exact ⟨t', rfl⟩

/-! ## Loading -/

/-- Preparing a unit leaves it as the unit of its name. -/
theorem prepare_found (fair : s.Fair) (ran : prepare S name s = (.ok (u, root), t)) :
    t.unitByName name = some u := by
  rw [prepare_eq] at ran
  split at ran
  · cases ran
  · next plan known =>
    have rooted : Path S ⟨(s.openUnit name).2, []⟩ ⟨(rootOf S (s.openUnit name).1
        (s.pool.text name) plan (s.openUnit name).2).2, []⟩ :=
      root_of_builds ((plan_open_unit s name name).trans known) _ _
    split at ran
    · next made =>
      rw [made] at rooted
      cases ran
      exact Session.unit_by_name_later (path_later rooted).tree
        (Session.unit_by_name_open fair known)
    · cases ran

/-- Where a provider makes the root of its unit, the unit is prepared. -/
theorem prepare_of_built {v : Session} (fair : s.Fair) (known : s.plan name = some plan)
    (opened : s.openUnit name = (u, v)) (free : v.root u = none)
    (built : (v.carryOut S u plan).1 = .ok root) :
    ∃ t, prepare S name s = (.ok (u, root), t) := by
  have named := Session.unit_by_name_open fair known
  rw [opened] at named
  obtain ⟨info, found⟩ := Session.unit_of_name named
  obtain ⟨t, rooted⟩ := root_of_rooted (fair.rooted name plan known) found free built
    (s.pool.text name)
  refine ⟨t, ?_⟩
  rw [prepare_eq, known]
  dsimp only
  rw [opened, rooted]

/-- To populate a unit, or to fail at that, comes after preparing it. -/
theorem make_unit_path (ran : prepare S name s = (.ok (u, root), t)) (depth : Nat)
    (populated : List (NodeId × EnvId)) :
    ∃ later, Path S ⟨t, populated⟩ ⟨(makeUnit S (.upTo S depth) name s).2, later⟩ := by
  rw [make_unit_of_prepared _ ran]
  split
  · exact ⟨populated, .refl⟩
  · split
    · exact ⟨populated, .refl⟩
    · exact SessionM.moves_map_error PopulateError.toPropertyError
        (populate_with_moves (S := S) (machine_steady S depth) root) ⟨t, populated⟩

/-- So does the rest of the load. -/
theorem load_unit_path (unopened : s.opened? name = none) (ready : s.loader = .ready)
    (ran : prepare S name { s with loader := .loading } = (.ok (u, root), t)) (depth : Nat)
    (populated : List (NodeId × EnvId)) :
    ∃ later, Path S ⟨t, populated⟩ ⟨(loadUnit S (.upTo S depth) name s).2, later⟩ := by
  obtain ⟨later, path⟩ := make_unit_path ran depth populated
  refine ⟨later, ?_⟩
  rw [load_unit_eq, unopened]
  dsimp only
  rw [if_pos ready, loading_eq]
  exact path.tail (.aside (.loading .ready))

theorem open_unit_loading (s : Session) (name : Symbol) :
    (Session.openUnit { s with loader := .loading } name).1 = (s.openUnit name).1 := by
  unfold Session.openUnit
  rw [show Session.unitByName { s with loader := .loading } name = s.unitByName name from rfl]
  cases s.unitByName name <;> rfl

/-- A load that answers gives out the unit of the name, or the one that is opened for it. -/
theorem load_unit_answers {m : Machine} (ran : loadUnit S m name s = (.ok u, t)) :
    u = (s.openUnit name).1 := by
  rcases load_unit_ok ran with ⟨found, -, -⟩ | ⟨-, t', made, -⟩
  · rw [Session.open_unit_of_found found]
  · obtain ⟨root, node, t'', prepared, -⟩ := make_unit_ok made
    rw [prepare_eq] at prepared
    split at prepared
    · cases prepared
    · split at prepared <;> cases prepared
      exact open_unit_loading s name

end EvalM

end Trellis
