import Mathlib
import Trellis.Proofs.Language.Declarations
import Trellis.Proofs.Session.Probing

/-! Loads within other operations. A load can be asked for at every point of a run: by
the host, in the body of a property, where a reference is resolved, and while another
unit is populated. Everywhere but there it goes ahead; while a unit is being loaded only
units are given out that have their environment already. -/
namespace Trellis

variable {S : Setting} {home : LoaderState} {running : List Activity}

/-! ## Making a unit at a point -/

/-- Moves between points at which the same is running. -/
def Stays (S : Setting) (home : LoaderState) (running : List Activity) (h k : History) : Prop :=
  Point S home running h.now → Point S home running k.now

instance : Track (Stays S home running) where
  refl _ := id
  trans first rest := rest ∘ first

theorem point_of_nodes (u : UnitId) (nodes : List PlannedNode) (made : List NodeId)
    (point : Point S home running s) : Point S home running (s.makeNodes S u made nodes).2 := by
  induction nodes generalizing s made with
  | nil => exact point
  | cons node rest ih =>
    cases node with
    | inner kind children =>
      have added := point.carried (.addNode u kind (children.map (·.node made)) .empty .dummy) 0
      rw [Session.makeNodes]
      split
      · next n t ran =>
        rw [Session.newNode] at ran
        simp only [Operation.run, ran] at added
        exact ih _ added
      · exact point
    | token kind text =>
      have added := point.carried (.newToken u kind text) 0
      rw [Session.makeNodes]
      split
      · next n t ran =>
        simp only [Operation.run, ran] at added
        exact ih _ added
      · next e t ran =>
        simp only [Operation.run, ran] at added
        exact added

instance : Builds S (Stays S home running) where
  unit _ _ _ _ _ point := point.carried (.newUnit _) 0
  carried _ _ u _ plan _ point := point_of_nodes u plan.nodes [] point
  rooted _ _ u root _ given point := by
    have rooted := point.carried (.setRoot u root) 0
    simp only [Operation.run, given] at rooted
    exact rooted

namespace Session

/-- The unit of a name, if it has its environment. -/
def opened? (s : Session) (name : Symbol) : Option UnitId := do
  let u ← s.unitByName name
  let _ ← s.unitEnv u
  return u

/-- The tree of the unit of that name is there, or what was registered builds it. -/
def Buildable (S : Setting) (s : Session) (name : Symbol) : Prop :=
  ∃ plan, s.plan name = some plan ∧
    let (u, t) := s.openUnit name
    t.root u = none → ∃ root, (t.carryOut S u plan).1 = .ok root

end Session

namespace EvalM
open SessionM

theorem load_unit_eq (S : Setting) (m : Machine) (name : Symbol) (s : Session) :
    loadUnit S m name s = match s.opened? name with
      | some u => (.ok u, s)
      | none =>
        if s.loader = .ready then loading (makeUnit S m name) s
        else (.error (.failure (.of (.unitLoad (s.pool.text name) none))), s) := by
  unfold loadUnit
  rw [run_bind, run_read]
  show (match s.opened? name with
    | some u => _
    | none => _ : EvalM UnitId) s = _
  cases s.opened? name with
  | some u => rfl
  | none =>
    dsimp only
    rw [run_bind, run_read]
    cases s.loader <;> rfl

/-- What was registered builds its tree, so only the root itself can be refused. -/
theorem prepare_cases (builds : s.Buildable S name) :
    (∃ u root t, prepare S name s = (.ok (u, root), t)) ∨
    ∃ e t, prepare S name s = (.error (.failure (.of (.tree e))), t) := by
  obtain ⟨plan, known, made⟩ := builds
  rw [prepare_eq, known]
  dsimp only at made ⊢
  unfold rootOf
  cases rooted : (s.openUnit name).2.root (s.openUnit name).1 with
  | some root => exact .inl ⟨_, root, _, rfl⟩
  | none =>
    obtain ⟨root, built⟩ := made rooted
    rcases ran : (s.openUnit name).2.carryOut S (s.openUnit name).1 plan with ⟨e | root, t⟩ <;>
      rw [ran] at built
    · cases built
    · dsimp only
      cases t.setRoot (s.openUnit name).1 root with
      | error e => exact .inr ⟨e, t, rfl⟩
      | ok t' => exact .inl ⟨_, root, t', rfl⟩

theorem loading_eq (act : EvalM UnitId) (s : Session) :
    loading act s = ((act { s with loader := .loading }).1,
      { (act { s with loader := .loading }).2 with loader := .ready }) := rfl

theorem make_unit_of_prepared (m : Machine) (prepared : prepare S name s = (.ok (u, root), t)) :
    makeUnit S m name s = match t.tree.node? root with
      | none => (.error (.failure (.of (.tree (.unknownNode root)))), t)
      | some made =>
        if made.isPopulated then (.ok u, t)
        else let (filled, t') := (populateWith S m root).mapError PopulateError.toPropertyError t
          (filled.map fun _ => u, t') := by
  rw [make_unit_eq, run_bind, prepared]
  dsimp only
  rw [run_bind, node_eq]
  cases t.tree.node? root with
  | none => rfl
  | some made =>
    by_cases populated : made.isPopulated
    · simp only [populated, Bool.not_true, Bool.false_eq_true, if_false, if_true]
      rfl
    · simp only [populated, Bool.not_false, if_true, Bool.false_eq_true, if_false]
      rw [run_bind]
      rcases (populateWith S m root).mapError PopulateError.toPropertyError t with
        ⟨halt | _, t'⟩ <;> rfl

theorem make_unit_refused (m : Machine) (refused : prepare S name s = (.error halt, t)) :
    makeUnit S m name s = (.error halt, t) := by
  rw [make_unit_eq, run_bind, refused]

end EvalM

/-! ## Loads at every point -/

section Loads
open EvalM
variable {s : Session} {name : Symbol}

/-- A load goes ahead: the unit is prepared, and then the load ends as populating its root
does, unless the tree refuses the root. -/
def LoadGoesAhead (S : Setting) (running : List Activity) (m : Machine) (name : Symbol)
    (s : Session) : Prop :=
  ∃ t, Point S .ready (.load :: running) t ∧
    ((∃ e, loadUnit S m name s =
        (.error (.failure (.of (.tree e))), { t with loader := .ready })) ∨
      ∃ u root node, t.root u = some root ∧ t.tree.node? root = some node ∧
        loadUnit S m name s =
          if node.isPopulated then (.ok u, { t with loader := .ready })
          else let (filled, t') := (populateWith S m root).mapError PopulateError.toPropertyError t
            (filled.map fun _ => u, { t' with loader := .ready }))

theorem load_goes_ahead (builds : Session.Buildable S { s with loader := .loading } name)
    (point : Point S .ready running s) (ready : s.loader = .ready) (unopened : s.opened? name = none)
    (m : Machine) : LoadGoesAhead S running m name s := by
  let begun : Session := { s with loader := .loading }
  have moved : Stays S .ready (.load :: running) ⟨begun, []⟩ ⟨(prepare S name begun).2, []⟩ :=
    prepare_builds name begun
  have prepared := moved (.load point ready)
  have loaded : loadUnit S m name s = loading (makeUnit S m name) s := by
    rw [load_unit_eq, unopened]
    exact if_pos ready
  refine ⟨_, prepared, ?_⟩
  rw [loaded, loading_eq]
  rcases prepare_cases builds with ⟨u, root, t, ran⟩ | ⟨e, t, ran⟩
  · rw [make_unit_of_prepared m ran, ran]
    cases held : t.tree.node? root with
    | none => exact .inl ⟨_, rfl⟩
    | some made =>
      refine .inr ⟨u, root, made, (prepare_ok ran).1, held, ?_⟩
      dsimp only
      split <;> rfl
  · rw [make_unit_refused m ran, ran]
    exact .inl ⟨e, rfl⟩

/-- A load can be asked for at every point of a run. A unit that has its environment is
given out as it is. Any other one is refused while a unit is being loaded, and nothing
has changed then; where none is being loaded, the load goes ahead. -/
theorem load_unit_refused_within_load (point : Point S .ready running s)
    (builds : Session.Buildable S { s with loader := .loading } name) (m : Machine) :
    match s.opened? name with
    | some u => loadUnit S m name s = (.ok u, s)
    | none =>
      (.load ∈ running → loadUnit S m name s =
        (.error (.failure (.of (.unitLoad (s.pool.text name) none))), s)) ∧
      (.load ∉ running → LoadGoesAhead S running m name s) := by
  have loader := (point_mirrors point).loader
  cases found : s.opened? name with
  | some u => rw [load_unit_eq, found]
  | none =>
    refine ⟨fun within => ?_, fun outside => ?_⟩
    · rw [if_pos within] at loader
      rw [load_unit_eq, found]
      exact if_neg (by simp [loader])
    · rw [if_neg outside] at loader
      exact load_goes_ahead builds point loader found m

end Loads

/-! ## A unit that imports another one -/

open SessionM EvalM

/-- A pool with the names of two units. -/
def Pool.importing : Pool := (((Pool.new none).intern "main").2.intern "lib").2

def Symbol.main : Symbol := ⟨1⟩

def Symbol.lib : Symbol := ⟨2⟩

theorem texts_importing :
    Pool.importing.symbols.texts = #["", "main", "lib"] ∧
      Pool.importing.symbols.canonical = none := by
  obtain ⟨-, texts, plain⟩ := SymbolTable.intern_fresh (t := .new none) (x := "main") rfl
    (by simp [SymbolTable.new])
  obtain ⟨-, texts', plain'⟩ := SymbolTable.intern_fresh
    (t := ((SymbolTable.new none).intern "main").2) (x := "lib") plain
    (by rw [texts]; simp [SymbolTable.new])
  exact ⟨by rw [show Pool.importing.symbols.texts = _ from texts', texts]; rfl, plain'⟩

/-- Lists refer to another unit, and leaves look a symbol up in the list that they are in. -/
def Builder.importing : Builder := .declare [
  .kind ⟨"Leaf", none, [], [], false, false, false, .caller⟩,
  .kind ⟨"List", none, [], [], false, true, false, .caller⟩,
  .kind ⟨"Plain", none, [], [], false, false, false, .caller⟩,
  .envSpec ⟨1⟩ ⟨[.referenceUnit .lib], .caller⟩,
  .envSpec ⟨0⟩ ⟨[.addToEnv (.lit (.symbol .lib))
    (.envGet (.nodeEnv (.parent .self)) (.lit (.symbol .lib)) true .empty) .empty none], .caller⟩]

def Setting.importing : Setting where
  language :=
    { kinds := #[⟨⟨0⟩, "Leaf", none, false, [], false, false, [], [⟨0⟩], .caller⟩,
        ⟨⟨1⟩, "List", none, false, [], true, false, [], [⟨1⟩], .caller⟩,
        ⟨⟨2⟩, "Plain", none, false, [], false, false, [], [⟨2⟩], .caller⟩]
      properties := #[]
      implementations := #[]
      dynVars := #[]
      envSpecs := #[⟨⟨1⟩, ⟨[.referenceUnit .lib], .caller⟩⟩,
        ⟨⟨0⟩, ⟨[.addToEnv (.lit (.symbol .lib))
          (.envGet (.nodeEnv (.parent .self)) (.lit (.symbol .lib)) true .empty) .empty none],
          .caller⟩⟩]
      metadata := none
      table := #[#[], #[], #[]]
      warnings := [] }
  config := .standard

/-- Two units are registered: one is a list of a leaf, the other one stands for itself. -/
def Session.importing : Session :=
  ((Session.new .importing .standard .ready).registerPlan .main
    ⟨[.inner ⟨0⟩ [], .inner ⟨1⟩ [.planned 0]], .planned 1⟩).registerPlan .lib
    ⟨[.inner ⟨2⟩ []], .planned 0⟩

/-- The tree of the first unit. -/
def Tree.importing (envs : Option NodeEnvs) : Tree where
  nodes := #[⟨⟨0⟩, [], some ⟨1⟩, ⟨0⟩, .empty, .dummy, [], none⟩,
    ⟨⟨1⟩, [⟨0⟩], none, ⟨0⟩, .empty, .dummy, [], envs⟩]
  units := #[⟨.main, some ⟨1⟩⟩]
  values := #[]
  descending := by
    intro i n held c mem
    rcases i with _ | _ | i <;> simp at held <;> subst held <;> simp at mem
    subst mem
    exact Nat.zero_lt_one

/-- The session in which that unit has its tree. -/
def Session.importingPrepared : Session :=
  { Session.importing with loader := .loading, tree := .importing none }

/-- The session in which its list is populated, and the leaf is not. -/
def Session.importingLeaf : Session :=
  { Session.importing with
    loader := .loading, tree := .importing (some ⟨⟨1⟩, ⟨1⟩⟩), unitEnvs := [(⟨0⟩, ⟨1⟩)],
    envs := ((EnvStore.new.create none (some ⟨1⟩)).2.addReference ⟨1⟩ (.source (.unit .lib))
      .none).2 }

theorem open_unit_importing {name : Symbol} (known : name.raw < 3) :
    Session.openUnit { Session.importing with loader := .loading } name =
      (⟨0⟩, { Session.importing with loader := .loading, tree := (Tree.empty.addUnit name).2 }) := by
  have none_ : Session.unitByName { Session.importing with loader := .loading } name = none := by
    simp [Session.unitByName, Session.importing, Session.registerPlan, Session.new, Tree.empty]
  obtain ⟨texts, plain⟩ := texts_importing
  have same : Pool.importing.intern (Pool.importing.text name) = (name, .importing) := by
    unfold Pool.intern Pool.text
    rw [SymbolTable.intern_lookup plain (by rw [texts]; exact known)]
  unfold Session.openUnit Session.newUnit
  rw [none_]
  dsimp only
  rw [show Session.pool { Session.importing with loader := .loading } = .importing from rfl, same]
  rfl

theorem prepare_importing :
    prepare .importing .main { Session.importing with loader := .loading } =
      (.ok (⟨0⟩, ⟨1⟩), .importingPrepared) := by
  rw [prepare_eq, open_unit_importing (by decide)]
  rfl

theorem children_importing (envs : Option NodeEnvs) :
    (Tree.importing envs).childrenOf ⟨1⟩ = [⟨⟨0⟩, Nat.zero_lt_one⟩] := rfl

theorem populate_importing {m : Machine}
    (failed : populateNode .importing m ⟨0⟩ ⟨1⟩ .importingLeaf = (.error halt, t)) :
    populateWith .importing m ⟨1⟩ .importingPrepared = (.error halt, t) := by
  have leaf : (Tree.importing none).firstBelow Node.isPopulated ⟨0⟩ = none := by
    rw [Tree.firstBelow]
    rfl
  have below : (Tree.importing none).firstBelow Node.isPopulated ⟨1⟩ = none := by
    rw [Tree.firstBelow, children_importing, List.findSome?_cons]
    dsimp only
    rw [leaf]
    rfl
  have fresh : Session.importingPrepared.tree.firstPopulated ⟨1⟩ = .ok none := by
    show (Tree.importing none).firstPopulated ⟨1⟩ = .ok none
    unfold Tree.firstPopulated
    rw [below]
    rfl
  have opened : populateWith .importing m ⟨1⟩ .importingPrepared =
      populateNode .importing m ⟨1⟩ ⟨1⟩ (Session.importingPrepared.openTop ⟨1⟩ ⟨0⟩).2 := by
    rw [populate_with_eq, fresh]
    rfl
  have listed : envsFrom .importing m ⟨1⟩ ⟨1⟩ ⟨1⟩ (Session.importingPrepared.openTop ⟨1⟩ ⟨0⟩).2 =
      (.ok ⟨⟨1⟩, ⟨1⟩⟩, { Session.importingLeaf with tree := .importing none }) := rfl
  rw [opened]
  exact populate_node_of_failed rfl listed rfl rfl failed

theorem load_lib_importing (m : Machine) :
    loadUnit .importing m .lib (Session.importingLeaf.mark ⟨1⟩ 0) =
      (.error (.failure (.of (.unitLoad "lib" none))), Session.importingLeaf.mark ⟨1⟩ 0) := by
  have unopened : (Session.importingLeaf.mark ⟨1⟩ 0).opened? .lib = none := by
    simp [Session.opened?, Session.unitByName, Session.mark, Session.importingLeaf, Tree.importing,
      Symbol.main, Symbol.lib]
  have text : Pool.importing.text .lib = "lib" := by
    simp [Pool.text, SymbolTable.lookup, texts_importing.1, Symbol.lib]
  rw [← text, load_unit_eq, unopened]
  rfl

/-- The leaf looks the symbol up in the environment of its list. -/
theorem eval_leaf_importing {m : Machine}
    (searched : m.lookupFirst (.plain ⟨1⟩) .lib .empty .importingLeaf = (.error halt, t)) :
    eval .importing m (.envGet (.nodeEnv (.parent .self)) (.lit (.symbol .lib)) true .empty)
      (.new (.bare ⟨0⟩) [] .none 0) .importingLeaf =
      ((.error halt, .new (.bare ⟨0⟩) [] .none 0), t) := by
  let f : Frame := .new (.bare ⟨0⟩) [] .none 0
  have scope : eval .importing m (.nodeEnv (.parent .self)) f .importingLeaf =
      ((.ok (.env (.plain ⟨1⟩)), f), .importingLeaf) := rfl
  rw [eval, FrameM.run_bind, scope]
  show (FrameM.session (m.lookupFirst (.plain ⟨1⟩) .lib .empty) >>= _) f .importingLeaf = _
  rw [FrameM.run_bind, FrameM.run_session, searched]

theorem populate_leaf_importing {m : Machine}
    (searched : m.lookupFirst (.plain ⟨1⟩) .lib .empty .importingLeaf = (.error (.failure e), t)) :
    populateNode .importing m ⟨0⟩ ⟨1⟩ .importingLeaf = (.error (.failure (.property e)), t) := by
  let f : Frame := .new (.bare ⟨0⟩) [] .none 0
  let value : Expr := .envGet (.nodeEnv (.parent .self)) (.lit (.symbol .lib)) true .empty
  have added : addToEnv .importing m ⟨0⟩ ⟨1⟩ (.lit (.symbol .lib)) value .empty none f
      .importingLeaf = ((.error (.failure e), f), t) := by
    show (eval .importing m value >>= _) f .importingLeaf = _
    rw [FrameM.run_bind, eval_leaf_importing searched]
  let act : FrameM NodeEnvs :=
    ((addToEnv .importing m ⟨0⟩ ⟨1⟩ (.lit (.symbol .lib)) value .empty none >>= fun _ =>
      pure ⟨1⟩) >>= fun env => pure env) >>= fun inner => pure ⟨⟨1⟩, inner⟩
  have acted : act f .importingLeaf = ((.error (.failure e), f), t) := by
    dsimp only [act]
    rw [FrameM.run_bind, FrameM.run_bind, FrameM.run_bind, added]
  have ran : runSpec .importing m ⟨0⟩ ⟨1⟩ ⟨[.addToEnv (.lit (.symbol .lib)) value .empty none],
      .caller⟩ .importingLeaf = (.error (.failure e), t) := by
    show FrameM.runIn f act .importingLeaf = _
    unfold FrameM.runIn
    rw [acted]
  have failed : envsFrom .importing m ⟨0⟩ ⟨0⟩ ⟨1⟩ .importingLeaf =
      (.error (.failure (.property e)), t) :=
    SessionM.map_error_of_failure (f := PopulateError.property) ran
  exact populate_node_of_refused rfl failed

theorem point_importing : Point .importing .ready [] .importing :=
  ((((Point.start (.new none) .standard).carried (.intern "main") 0).carried (.intern "lib")
    0).carried (.registerPlan .main ⟨[.inner ⟨0⟩ [], .inner ⟨1⟩ [.planned 0]], .planned 1⟩)
    0).carried (.registerPlan .lib ⟨[.inner ⟨2⟩ []], .planned 0⟩) 0

theorem buildable_importing {name : Symbol} (registered : name = .main ∨ name = .lib) :
    Session.Buildable .importing { Session.importing with loader := .loading } name := by
  rcases registered with rfl | rfl
  · refine ⟨_, rfl, ?_⟩
    rw [open_unit_importing (by decide)]
    exact fun _ => ⟨⟨1⟩, rfl⟩
  · refine ⟨_, rfl, ?_⟩
    rw [open_unit_importing (by decide)]
    exact fun _ => ⟨⟨0⟩, rfl⟩

theorem unopened_importing (name : Symbol) (loader : LoaderState) :
    Session.opened? { Session.importing with loader } name = none := by
  simp [Session.opened?, Session.unitByName, Session.importing, Session.registerPlan, Session.new,
    Tree.empty]

/-- The second unit goes ahead where no unit is being loaded, and is refused where one is. -/
theorem load_unit_refused_within_load_of_import :
    let m := Machine.upTo .importing 2
    LoadGoesAhead .importing [] m .lib .importing ∧
    loadUnit .importing m .lib { Session.importing with loader := .loading } =
      (.error (.failure (.of (.unitLoad (Session.importing.pool.text .lib) none))),
        { Session.importing with loader := .loading }) := by
  intro m
  have outside := load_unit_refused_within_load point_importing
    (buildable_importing (.inr rfl)) m
  have within := load_unit_refused_within_load (.load point_importing rfl)
    (buildable_importing (.inr rfl)) m
  rw [unopened_importing .lib .loading] at within
  rw [show Session.importing.opened? .lib = none from unopened_importing .lib .ready] at outside
  exact ⟨outside.2 List.not_mem_nil, within.1 List.mem_cons_self⟩

/-- Two units are registered and build their trees. The first one to be used imports the
other; while it is being loaded the other is asked for, and the load fails because that
one cannot be loaded. -/
theorem load_unit_refuses_import :
    Builder.importing.build = .ok Setting.importing.language ∧
    Point .importing .ready [] .importing ∧
    Session.Buildable .importing { Session.importing with loader := .loading } .main ∧
    Session.Buildable .importing { Session.importing with loader := .loading } .lib ∧
    ∀ depth, (loadUnit .importing (.upTo .importing (depth + 2)) .main .importing).1 =
      .error (.failure (.of (.unitLoad "lib" none))) := by
  refine ⟨?_, point_importing, buildable_importing (.inl rfl), buildable_importing (.inr rfl),
    fun depth => ?_⟩
  · unfold Builder.importing Setting.importing
    cbv
  · let m := Machine.upTo .importing (depth + 2)
    let refusal : Interrupt PropertyError := .failure (.of (.unitLoad "lib" none))
    obtain ⟨t, resolved⟩ : ∃ t, (Machine.upTo .importing (depth + 1)).resolve ⟨1⟩ 0 .importingLeaf =
        (.error refusal, t) := ⟨_, resolve_with_refused rfl rfl rfl (load_lib_importing _)⟩
    have bare : Session.importingLeaf.envs.newestFirst ⟨1⟩ .lib = [] := by
      show ((∅ : Std.HashMap Symbol (List Binding))[Symbol.lib]?).getD [] = []
      simp
    have searched : searchWith (.upTo .importing (depth + 1)) ⟨.lib, .empty, true⟩ (.plain ⟨1⟩) []
        #[] .importingLeaf = (.error refusal, t) :=
      search_with_refused (by decide) bare rfl resolved
    have first : m.search ⟨.lib, .empty, true⟩ (.plain ⟨1⟩) [] #[] .importingLeaf =
        (.error refusal, t) := searched
    have looked : m.lookupFirst (.plain ⟨1⟩) .lib .empty .importingLeaf = (.error refusal, t) := by
      unfold Machine.lookupFirst
      rw [run_bind, first]
    have failed := populate_importing (populate_leaf_importing looked)
    have unopened : Session.importing.opened? .main = none := unopened_importing .main .ready
    have made := make_unit_of_prepared m prepare_importing
    rw [load_unit_eq, unopened]
    show (loading (makeUnit .importing m .main) .importing).1 = _
    rw [loading_eq, made]
    show (((populateWith .importing m ⟨1⟩).mapError PopulateError.toPropertyError
      .importingPrepared).1.map fun _ => (⟨0⟩ : UnitId)) = _
    rw [map_error_of_failure failed]
    rfl

end Trellis
