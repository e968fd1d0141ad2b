import Trellis.Proofs.Session.Opening

/-! Units that are made once. Whether a load opens a unit, carries out its plan or populates
its root is decided from what there is at that time, be it because of an earlier load that
succeeded, of one that failed halfway, or of what the host did. Where providers do what they
should, no two units are opened for one name, and no plan is carried out after one that made
the root of its unit. -/
namespace Trellis

/-! ## Made once -/

/-- What holds of the unit of a name from a point of a run on. -/
structure History.MadeOnce (S : Setting) (h : History) (name : Symbol) : Prop where
  /-- A load that answers leaves its answer as the unit of the name. -/
  answered : ∀ depth u t, EvalM.loadUnit S (.upTo S depth) name h.now = (.ok u, t) →
    t.unitByName name = some u
  /-- Where there is a unit of the name, no other one is opened for it ever after, and no other
  one is what a load answers. -/
  kept : ∀ u, h.now.unitByName name = some u → ∀ k, Path S h k →
    k.now.openUnit name = (u, k.now) ∧
    ∀ m v t, EvalM.loadUnit S m name k.now = (.ok v, t) → v = u
  /-- A load whose provider has made a root gives the unit that root. From then on, however the
  load ends, no provider is asked for the unit, be it this one or another. -/
  provided : ∀ plan, h.now.opened? name = none → h.now.loader = .ready →
    h.now.plan name = some plan → ∀ u s, Session.openUnit { h.now with loader := .loading } name =
      (u, s) → s.root u = none → ∀ root, (s.carryOut S u plan).1 = .ok root →
    ∃ t, EvalM.prepare S name { h.now with loader := .loading } = (.ok (u, root), t) ∧
      (∀ depth, ∃ populated, Path S ⟨t, h.populated⟩
        ⟨(EvalM.loadUnit S (.upTo S depth) name h.now).2, populated⟩) ∧
      ∀ k, Path S ⟨t, h.populated⟩ k → k.now.openUnit name = (u, k.now) ∧
        ∀ text plan', EvalM.rootOf S u text plan' k.now = (.ok root, k.now)

theorem fair_loading {s : Session} (fair : s.Fair) (state : LoaderState) :
    Session.Fair { s with loader := state } :=
  Session.fair_of_same fair rfl rfl fun _ named => named

theorem made_once_of_fair {h : History} (fair : h.now.Fair) (S : Setting) (name : Symbol) :
    h.MadeOnce S name where
  answered depth u t ran := by
    rcases EvalM.load_unit_ok ran with ⟨found, -, rfl⟩ | ⟨-, t', made, rfl⟩
    · exact found
    · obtain ⟨root, node, t'', prepared, -⟩ := EvalM.make_unit_ok made
      obtain ⟨_, path⟩ := EvalM.make_unit_path prepared depth h.populated
      rw [made] at path
      exact Session.unit_by_name_later (path_later path).tree
        (EvalM.prepare_found (fair_loading fair .loading) prepared)
  kept u found k path := by
    have still := Session.open_unit_of_found
      (Session.unit_by_name_later (path_later path).tree found)
    refine ⟨still, fun m v t ran => ?_⟩
    rw [EvalM.load_unit_answers ran, still]
  provided plan unopened ready known u s opened free root built := by
    have fair := fair_loading fair .loading
    obtain ⟨t, prepared⟩ := EvalM.prepare_of_built fair known opened free built
    refine ⟨t, prepared, fun depth => EvalM.load_unit_path unopened ready prepared depth _,
      fun k path => ?_⟩
    have later := path_later path
    have there := Session.unit_by_name_later later.tree (EvalM.prepare_found fair prepared)
    have rooted := Session.root_later later (EvalM.prepare_ok prepared).1
    exact ⟨Session.open_unit_of_found there, EvalM.root_of_known S rooted⟩

/-! ## Runs -/

namespace Session

/-- A later session whose additional units were opened under different names, none of which
a unit had before. -/
structure Provides (s t : Session) : Prop where
  plans : t.plans = s.plans
  canonical : t.pool.symbols.canonical = s.pool.symbols.canonical
  named : ∀ name, s.pool.symbols.Names name → t.pool.symbols.Names name
  made : s.Fair → ∃ made : List Symbol, t.unitNames = s.unitNames ++ made ∧ made.Nodup ∧
    made.Disjoint s.unitNames

variable {S : Setting} {r s t : Session} {name : Symbol} {plan : UnitPlan} {u : UnitId}

theorem fair_of_provides (provides : s.Provides t) (fair : s.Fair) : t.Fair :=
  fair_of_same fair provides.plans provides.canonical provides.named

theorem provides_trans (first : r.Provides s) (rest : s.Provides t) : r.Provides t where
  plans := rest.plans.trans first.plans
  canonical := rest.canonical.trans first.canonical
  named name known := rest.named name (first.named name known)
  made fair := by
    obtain ⟨made, names, distinct, new⟩ := first.made fair
    obtain ⟨later, names', distinct', new'⟩ := rest.made (fair_of_provides first fair)
    rw [names] at names' new'
    obtain ⟨apart, apart'⟩ := List.disjoint_append_right.1 new'
    exact ⟨made ++ later, by rw [names', List.append_assoc],
      List.nodup_append'.2 ⟨distinct, distinct', apart'.symm⟩,
      List.disjoint_append_left.2 ⟨new, apart⟩⟩

/-- What opens no unit. -/
theorem provides_of_names (plans : t.plans = s.plans)
    (canonical : t.pool.symbols.canonical = s.pool.symbols.canonical)
    (named : ∀ name, s.pool.symbols.Names name → t.pool.symbols.Names name)
    (names : t.unitNames = s.unitNames) : s.Provides t :=
  ⟨plans, canonical, named, fun _ => ⟨[], by rw [names, List.append_nil], List.nodup_nil,
    List.disjoint_nil_left _⟩⟩

theorem provides_of_frame (plans : t.plans = s.plans) (symbols : t.pool.symbols = s.pool.symbols)
    (units : t.tree.units = s.tree.units) : s.Provides t :=
  provides_of_names plans (by rw [symbols]) (fun _ known => symbols ▸ known)
    (by unfold unitNames; rw [units])

theorem provides_refl (s : Session) : s.Provides s := provides_of_frame rfl rfl rfl

theorem provides_intern (s : Session) (text : String) :
    s.Provides { s with pool := (s.pool.intern text).2 } :=
  provides_of_names rfl (SymbolTable.canonical_intern _ _)
    (fun _ known => SymbolTable.names_intern known text) rfl

theorem provides_aside (step : Aside s t) (same : t.plans = s.plans) : s.Provides t := by
  cases step with
  | interned text => exact provides_intern s text
  | _ => exact provides_of_frame same rfl rfl

theorem provides_open_top (s : Session) (root : NodeId) (unit : UnitId) :
    s.Provides (s.openTop root unit).2 := by
  obtain ⟨unitEnvs, eq⟩ := open_top_eq s root unit
  rw [eq]
  exact provides_of_frame rfl rfl rfl

theorem provides_set_root {root : NodeId} (given : s.setRoot u root = .ok t) : s.Provides t := by
  obtain ⟨tree, set_, rfl⟩ := set_root_ok given
  obtain ⟨-, -, -, -, -, rfl⟩ := Tree.set_root_ok set_
  have names : (s.tree.units.modify u.raw ({ · with root := some root })).map (·.name) =
      s.tree.units.map (·.name) := map_modify_of_blind (fun _ => by rfl) _ _
  exact provides_of_names rfl rfl (fun _ known => known) (congrArg Array.toList names)

theorem provides_set_envs {envs : NodeEnvs} {tree : Tree}
    (given : s.tree.setEnvs n envs = .ok tree) :
    s.Provides { s with tree } := by
  obtain ⟨-, -, -, units, -⟩ := Tree.set_envs_ok given
  exact provides_of_frame rfl rfl units

/-- A unit is opened on demand under the name that was asked for. -/
theorem provides_new_unit (known : (s.plan name).isSome) (unnamed : s.unitByName name = none) :
    s.Provides (s.newUnit (s.pool.text name)).2 where
  plans := rfl
  canonical := SymbolTable.canonical_intern _ _
  named _ known := SymbolTable.names_intern known _
  made fair := by
    obtain ⟨plan, known⟩ := Option.isSome_iff_exists.1 known
    refine ⟨[name], ?_, List.nodup_singleton _, ?_⟩
    · rw [unit_names_new_unit, intern_text fair known]
    · exact List.singleton_disjoint.2 (unit_by_name_none.1 unnamed)

end Session

section Runs
open Session
variable {S : Setting} {s : Session} {name : Symbol} {plan : UnitPlan} {depth : Nat}

instance : Makes (Along Provides) where
  refl h := ⟨provides_refl h.now, List.suffix_refl _⟩
  trans first rest := ⟨provides_trans first.1 rest.1, first.2.trans rest.2⟩
  interned s _ text := ⟨provides_intern s text, List.suffix_refl _⟩
  node _ _ _ _ _ made :=
    ⟨provides_of_frame rfl rfl (Tree.units_add_node made), List.suffix_refl _⟩

instance : Populates (Along Provides) where
  recorded moved := moved.2
  equation _ _ _ := ⟨provides_of_frame rfl rfl rfl, List.suffix_refl _⟩
  solved S _ e dynVars machine := EvalM.solve_moves machine
    (fun _ _ _ _ => ⟨provides_of_frame rfl rfl rfl, List.suffix_refl _⟩)
    (fun _ _ _ _ _ => ⟨provides_of_frame rfl rfl rfl, List.suffix_refl _⟩) S e dynVars
  reported _ _ _ _ _ := ⟨provides_of_frame rfl rfl rfl, List.suffix_refl _⟩
  created _ _ _ _ := ⟨provides_of_frame rfl rfl rfl, List.suffix_refl _⟩
  bound _ _ _ _ _ _ := ⟨provides_of_frame rfl rfl rfl, List.suffix_refl _⟩
  referred _ _ _ _ _ := ⟨provides_of_frame rfl rfl rfl, List.suffix_refl _⟩
  opened s _ root node _ _ _ := ⟨provides_open_top s root node.unit, List.suffix_refl _⟩

instance : Remembers S (Along Provides) where
  unit _ _ _ known unnamed := ⟨provides_new_unit known unnamed, List.suffix_refl _⟩
  carried s _ u _ plan _ := carry_out_makes s u plan
  rooted _ _ _ _ _ given := ⟨provides_set_root given, List.suffix_refl _⟩
  counted _ _ _ := ⟨provides_of_frame rfl rfl rfl, List.suffix_refl _⟩
  deeper limit inside := EvalM.deeper_moves
    (fun _ step same => ⟨provides_aside step same, List.suffix_refl _⟩) limit inside
  loading inside h _ := EvalM.loading_moves
    (fun _ step same => ⟨provides_aside step same, List.suffix_refl _⟩) inside h
  resolving inside h env index _ _ _ := EvalM.resolving_moves env index
    (fun _ _ _ => ⟨provides_of_frame rfl rfl rfl, List.suffix_refl _⟩) inside h
  memoized name key inside := EvalM.memoized_moves
    (fun _ step same => ⟨provides_aside step same, List.suffix_refl _⟩) name key inside

instance (S : Setting) (m : Machine) : Fills S m (Along Provides) where
  filled _ _ _ _ _ _ _ _ _ _ given := ⟨provides_set_envs given, List.suffix_cons _ _⟩

/-- The name under which the host itself opens a unit. -/
def Operation.opens (s : Session) : Operation → List Symbol
  | newUnit name => [(s.pool.intern name).1]
  | _ => []

/-- Whether a provider that is registered does what it should. -/
def Operation.FairIn (s : Session) : Operation → Prop
  | registerPlan name plan => s.pool.symbols.Names name ∧ plan.Rooted
  | _ => True

/-- The names under which the host itself opens units, one operation after the other. -/
def openedByHost (S : Setting) (m : Machine) (s : Session) : List Operation → List Symbol
  | [] => []
  | o :: rest => o.opens s ++ openedByHost S m (o.run S m s) rest

/-- Every provider that is registered does what it should. -/
def FairRun (S : Setting) (m : Machine) (s : Session) : List Operation → Prop
  | [] => True
  | o :: rest => o.FairIn s ∧ FairRun S m (o.run S m s) rest

/-- To register a plan replaces no plan of another name. -/
theorem lookup_others (differs : other ≠ name) (plans : List (Symbol × UnitPlan)) :
    (plans.filter (·.1 ≠ name)).lookup other = plans.lookup other := by
  induction plans with
  | nil => rfl
  | cons entry rest ih =>
    by_cases replaced : entry.1 = name
    · have skipped : (other == entry.1) = false := beq_false_of_ne (replaced ▸ differs)
      rw [List.filter_cons_of_neg (by simpa using replaced), ih, List.lookup_cons, skipped]
    · rw [List.filter_cons_of_pos (by simpa using replaced), List.lookup_cons,
        List.lookup_cons, ih]

/-- The plan that was registered last counts. -/
theorem plan_register (s : Session) (name other : Symbol) (plan : UnitPlan) :
    (s.registerPlan name plan).plan other = if other = name then some plan else s.plan other := by
  unfold Session.registerPlan Session.plan
  rw [List.lookup_cons]
  by_cases same : other = name
  · rw [if_pos same, beq_iff_eq.2 same]
  · rw [if_neg same, beq_false_of_ne same]
    exact lookup_others same s.plans

theorem fair_register (fair : s.Fair) (named : s.pool.symbols.Names name) (rooted : plan.Rooted) :
    (s.registerPlan name plan).Fair := by
  refine ⟨fair.canonical, fun other found known => ?_, fun other found known => ?_⟩ <;>
    rw [plan_register] at known <;> split at known
  · next same => exact same ▸ named
  · exact fair.named other found known
  · exact Option.some.inj known ▸ rooted
  · exact fair.rooted other found known

/-- The units that an operation adds are the one that the host opens by it, if any, and units
that are made under different names which no unit had before. -/
theorem operation_provides (S : Setting) (depth : Nat) (fair : s.Fair) (o : Operation)
    (allowed : o.FairIn s) :
    (o.run S (.upTo S depth) s).Fair ∧ ∃ made : List Symbol,
      (o.run S (.upTo S depth) s).unitNames = s.unitNames ++ (o.opens s ++ made) ∧
      made.Nodup ∧ made.Disjoint s.unitNames := by
  have alone {t : Session} (fair : t.Fair) (names : t.unitNames = s.unitNames ++ o.opens s) :
      t.Fair ∧ ∃ made : List Symbol, t.unitNames = s.unitNames ++ (o.opens s ++ made) ∧
        made.Nodup ∧ made.Disjoint s.unitNames :=
    ⟨fair, [], by rw [names, List.append_nil], List.nodup_nil, List.disjoint_nil_left _⟩
  cases hosted : o.isHosted with
  | true =>
    cases o with
    | newUnit text =>
      exact alone (fair_of_same fair rfl (SymbolTable.canonical_intern _ _) fun _ known =>
        SymbolTable.names_intern known text) (unit_names_new_unit s text)
    | registerPlan name plan =>
      exact alone (fair_register fair allowed.1 allowed.2) (List.append_nil _).symm
    | takeDiagnostics =>
      exact alone (fair_of_same fair rfl rfl fun _ known => known) (List.append_nil _).symm
    | _ => cases hosted
  | false =>
    obtain ⟨_, provides, -⟩ := operation_moves_by (S := S) (R := Along Provides)
      (machine_moves depth) o ⟨s, []⟩ fun own => by rw [hosted] at own; cases own
    have none_ : o.opens s = [] := by cases o <;> first | rfl | cases hosted
    rw [none_]
    exact ⟨fair_of_provides provides fair, provides.made fair⟩

theorem run_provides (os : List Operation) (fair : s.Fair)
    (allowed : FairRun S (.upTo S depth) s os) :
    (os.foldl (Operation.run S (.upTo S depth)) s).Fair ∧ ∃ made : List Symbol,
      (os.foldl (Operation.run S (.upTo S depth)) s).unitNames.Perm
        (s.unitNames ++ (openedByHost S (.upTo S depth) s os ++ made)) ∧
      made.Nodup ∧ made.Disjoint s.unitNames := by
  induction os generalizing s with
  | nil =>
    exact ⟨fair, [], by simp [openedByHost], List.nodup_nil, List.disjoint_nil_left _⟩
  | cons o rest ih =>
    obtain ⟨fair', made, names, distinct, new⟩ := operation_provides S depth fair o allowed.1
    obtain ⟨end_, later, names', distinct', new'⟩ := ih fair' allowed.2
    rw [names] at names' new'
    obtain ⟨apart, others⟩ := List.disjoint_append_right.1 new'
    refine ⟨end_, made ++ later, ?_, List.nodup_append'.2 ⟨distinct, distinct', ?_⟩,
      List.disjoint_append_left.2 ⟨new, apart⟩⟩
    · refine names'.trans (List.perm_iff_count.2 fun name => ?_)
      simp only [openedByHost, List.count_append]
      omega
    · exact (List.disjoint_append_right.1 others).2.symm

/-- A change of the symbol table enters a text. -/
theorem change_symbols (step : Change S h k) :
    k.now.pool.symbols = h.now.pool.symbols ∨
      ∃ text, k.now.pool.symbols = (h.now.pool.symbols.intern text).2 := by
  cases step with
  | aside step =>
    cases step with
    | interned text => exact .inr ⟨text, rfl⟩
    | _ => exact .inl rfl
  | unit text => exact .inr ⟨text, rfl⟩
  | rooted given =>
    obtain ⟨tree, -, rfl⟩ := set_root_ok given
    exact .inl rfl
  | opened held fresh outermost =>
    obtain ⟨unitEnvs, eq⟩ := open_top_eq _ _ _
    exact .inl (by rw [eq])
  | _ => exact .inl rfl

/-- As long as no provider is registered, the providers do what they should. -/
theorem fair_of_path (path : Path S h k) (same : k.now.plans = h.now.plans) (fair : h.now.Fair) :
    k.now.Fair := by
  obtain ⟨canonical, named⟩ := path_keeps (P := fun l =>
    l.now.pool.symbols.canonical = h.now.pool.symbols.canonical ∧
      ∀ name, h.now.pool.symbols.Names name → l.now.pool.symbols.Names name)
    (fun l m step ⟨canonical, named⟩ => by
      rcases change_symbols step with same | ⟨text, same⟩ <;> rw [same]
      · exact ⟨canonical, named⟩
      · exact ⟨(SymbolTable.canonical_intern _ _).trans canonical,
          fun name known => SymbolTable.names_intern (named name known) text⟩)
    path ⟨rfl, fun _ known => known⟩
  exact fair_of_same fair same canonical named

end Runs

end Trellis
