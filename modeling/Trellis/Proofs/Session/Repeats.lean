import Mathlib.Algebra.Order.BigOperators.Group.List
import Mathlib.Algebra.Order.Group.Nat
import Trellis.Proofs.Session.Attempts
import Trellis.Proofs.Session.Visits

/-! How often the actions of a node take effect. What a visit has added stays when the visit is
broken off, and the node can be visited again; each visit adds what the actions add once. So
an action can have taken effect once more than visits of its node were broken off, and only
operations that fail break off visits. -/
namespace Trellis

open SessionM

/-! ## What a host does -/

/-- Whether an operation succeeds. -/
def Operation.succeeds (S : Setting) (m : Machine) (s : Session) : Operation → Bool
  | addNode u kind children text span => (s.addNode S u kind children text span).isOk
  | newToken u kind text => (s.newToken S u kind text).1.isOk
  | setRoot u root => (s.setRoot u root).isOk
  | request r => (EvalM.perform S m r s).1.isOk
  | refer env thunk crossing => (EvalM.changeEnvs (·.addReference env thunk crossing) s).1.isOk
  | solve e dynVars => (EvalM.solve S m e dynVars s).1.isOk
  | satisfiable e dynVars => (EvalM.satisfiable S m e dynVars s).1.isOk
  | populateUnit u root => (Host.populateUnit S m u root s).1.isOk
  | callPublic n name args dynVars => (Host.callPublic S m n name args dynVars s).1.isOk
  | loadUnit name => (Host.loadUnit S m name s).1.isOk
  | intern _ | enterEquation _ | newUnit _ | registerPlan .. | takeDiagnostics => true

/-- What an operation adds to an environment by itself. -/
def Operation.addition? : Operation → Option Addition
  | request (.addBinding env symbol entity metadata) =>
    some ⟨env, .binding symbol ⟨entity, metadata⟩⟩
  | request (.addReference env source crossing) | refer env (.source source) crossing =>
    some ⟨env, .reference source crossing⟩
  | _ => none

/-- Whether the operation says where an environment comes from that it refers to. -/
def Operation.IsSourced : Operation → Prop
  | refer _ thunk _ => ∃ source, thunk = .source source
  | _ => True

/-- A session with what its host has added to environments by itself, and with the number of
operations of the host that have failed. -/
structure Course where
  session : Session
  own : List Addition
  failures : Nat

namespace Course

def start (pool : Pool) (bag : BagConfig) (loader : LoaderState) : Course :=
  ⟨.new pool bag loader, [], 0⟩

def step (S : Setting) (m : Machine) (c : Course) (o : Operation) : Course :=
  let session := o.run S m c.session
  if o.succeeds S m c.session then ⟨session, c.own ++ o.addition?.toList, c.failures⟩
  else ⟨session, c.own, c.failures + 1⟩

end Course

variable {S : Setting} {depth : Nat}

/-! ## What the operations of a host add -/

section Operations
variable (machine : (Machine.upTo S depth).Ends (Visits S 0))
include machine

theorem perform_ends (r : Request) (quiet : Operation.addition? (.request r) = none) :
    Ends (Visits S 1) (EvalM.perform S (.upTo S depth) r) := by
  cases r with
  | call entity prop args dynVars => exact ends_more (machine.call _ _ _ _)
  | lookup env symbol require =>
    exact ends_more (ends_bind (machine.lookup _ _ _) fun _ => ends_pure _)
  | lookupFirst env symbol require =>
    refine ends_more (ends_bind (machine.lookup_first _ _ _) fun found => ?_)
    cases found <;> exact ends_pure _
  | resolve env index => exact ends_more (ends_bind (machine.resolve _ _) fun _ => ends_pure _)
  | nodeEnv n => exact ends_bind (ends_read_e _) fun _ => ends_pure _
  | logicValue v => exact ends_bind (ends_read_e _) fun _ => ends_pure _
  | solve id dynVars =>
    exact ends_more (ends_bind (ends_read _) fun e =>
      ends_bind (Concludes.solved S e dynVars machine) fun _ => ends_pure _)
  | populate n =>
    exact ends_bind (ends_map_error _ (populate_with_ends machine n)) fun _ => ends_pure _
  | loadUnit name =>
    exact ends_more (ends_bind (EvalM.load_unit_ends machine name) fun _ => ends_read _)
  | createEnv parent owner => exact ends_of_eventless fun s => s.ledger_create parent owner
  | addBinding env symbol entity metadata => cases quiet
  | addReference env source crossing => cases quiet
  | count by_ => exact ends_of_eventless fun s => Session.ledger_of_same rfl rfl rfl

theorem populate_unit_ends (u : UnitId) (root : NodeId) :
    Ends (Visits S 1) (Host.populateUnit S (.upTo S depth) u root) := by
  intro h
  unfold Host.populateUnit
  rw [run_bind, run_read]
  cases given : h.now.setRoot u root with
  | error e => exact ⟨h.populated, Trail.refl _ h⟩
  | ok t =>
    have rooted : Eventless S h ⟨t, h.populated⟩ := Session.ledger_set_root given
    obtain ⟨populated, there⟩ :=
      ends_map_error AnalysisError.populate (populate_with_ends machine root) ⟨t, h.populated⟩
    exact ⟨populated, Trail.trans (visits_of_eventless rooted) there⟩

theorem host_load_unit_ends (name : String) :
    Ends (Visits S 0) (Host.loadUnit S (.upTo S depth) name) :=
  ends_bind (ends_of_eventless fun _ => Session.ledger_of_same rfl rfl rfl) fun name =>
    EvalM.load_unit_ends machine name

/-- Where the host adds nothing to an environment by itself, only visits do. -/
theorem operation_visits (o : Operation) (quiet : o.addition? = none) (named : o.IsSourced)
    (s : Session) :
    Visits S 1 (o.succeeds S (.upTo S depth) s) ⟨s, []⟩ ⟨o.run S (.upTo S depth) s, []⟩ := by
  have ended {ε α : Type} {act : SessionM ε α} (ends : Ends (Visits S 1) act) :
      Visits S 1 (act s).1.isOk ⟨s, []⟩ ⟨(act s).2, []⟩ := by
    obtain ⟨_, there⟩ := ends ⟨s, []⟩
    exact there
  cases o with
  | intern text | enterEquation e | registerPlan name plan | takeDiagnostics =>
    exact visits_of_eventless (Session.ledger_of_same rfl rfl rfl)
  | newUnit name => exact visits_of_eventless (ledger_new_unit s name)
  | addNode u kind children text span =>
    refine visits_of_eventless ?_
    unfold Operation.run
    dsimp only
    split
    · next made => exact Adds.added _ made
    · exact Track.refl _
  | newToken u kind text => exact visits_of_eventless (new_token_makes s u kind text)
  | setRoot u root =>
    refine visits_of_eventless ?_
    unfold Operation.run
    dsimp only
    split
    · next given => exact Session.ledger_set_root given
    · exact Track.refl _
  | request r => exact ended (perform_ends machine r quiet)
  | refer env thunk crossing =>
    obtain ⟨source, rfl⟩ := named
    cases quiet
  | solve e dynVars => exact ended (ends_more (Concludes.solved S e dynVars machine))
  | satisfiable e dynVars => exact ended (ends_more (EvalM.satisfiable_ends machine S e dynVars))
  | populateUnit u root => exact ended (populate_unit_ends machine u root)
  | callPublic n name args dynVars =>
    exact ended (ends_more (Host.call_public_ends machine n name args dynVars))
  | loadUnit name => exact ended (ends_more (host_load_unit_ends machine name))

omit machine in
/-- What a host adds by itself is added unless that is refused. -/
theorem operation_adds {m : Machine} (o : Operation) (known : o.addition? = some a) (s : Session) :
    s.Ledger S (o.run S m s) (if o.succeeds S m s then [a] else []) [] := by
  have request {α : Type} {g : EnvStore → Except EnvError α × EnvStore} {f : α → Value}
      {r : Request} (same : EvalM.perform S m r = EvalM.changeEnvs g >>= fun x => pure (f x))
      (adds : s.envs.Adds a (g s.envs)) : s.Ledger S (Operation.run S m s (.request r))
        (if (Operation.request r).succeeds S m s then [a] else []) [] := by
    have there := Session.ledger_change (S := S) s adds
    show s.Ledger S (EvalM.perform S m r s).2
      (if (EvalM.perform S m r s).1.isOk then [a] else []) []
    rw [same, run_bind]
    rcases ran : EvalM.changeEnvs g s with ⟨halt | x, t⟩ <;> rw [ran] at there <;> exact there
  cases o with
  | request r =>
    cases r with
    | addBinding env symbol entity metadata =>
      cases known
      exact request (g := (·.addBinding env symbol entity metadata)) (f := fun _ => .unit) rfl
        (s.envs.adds_binding env symbol entity metadata)
    | addReference env source crossing =>
      cases known
      exact request (g := (·.addReference env (.source source) crossing))
        (f := fun index => .int index) rfl (s.envs.adds_reference env source crossing)
    | _ => cases known
  | refer env thunk crossing =>
    cases thunk with
    | source source =>
      cases known
      exact Session.ledger_change s (s.envs.adds_reference env source crossing)
    | custom script => cases known
  | _ => cases known

/-- What an operation adds is accounted for by the host and the visits that it makes, of which
it breaks off none if it succeeds and two at most if it fails. -/
theorem operation_ledger (o : Operation) (named : o.IsSourced) {s : Session}
    (sourced : s.envs.Sourced) : ∃ log,
      s.Ledger S (o.run S (.upTo S depth) s)
        (if o.succeeds S (.upTo S depth) s then o.addition?.toList else []) log ∧
      brokenOff log ≤ s.loader.allowance 1 (o.succeeds S (.upTo S depth) s) := by
  cases known : o.addition? with
  | none =>
    obtain ⟨log, ledger, few⟩ := operation_visits machine o known named s sourced
    exact ⟨log, by simpa using ledger, few⟩
  | some a => exact ⟨[], operation_adds o known s, Nat.zero_le _⟩

end Operations

/-! ## Whole courses -/

/-- Between the start of the session and now, the visits of the log and the host have added all
that was added, and every operation that failed has broken off two visits at most. -/
def Course.Accounted (S : Setting) (s : Session) (c : Course) : Prop :=
  ∃ log, s.Ledger S c.session c.own log ∧ brokenOff log ≤ 2 * c.failures

theorem accounted_step (machine : (Machine.upTo S depth).Ends (Visits S 0)) {s : Session}
    (sourced : s.envs.Sourced) {c : Course} (accounted : c.Accounted S s) (o : Operation)
    (named : o.IsSourced) : (c.step S (.upTo S depth) o).Accounted S s := by
  obtain ⟨log, ledger, few⟩ := accounted
  obtain ⟨later, rest, few'⟩ := operation_ledger machine o named (ledger.sourced sourced)
  have both := Session.ledger_trans ledger rest
  unfold Course.step
  cases ok : o.succeeds S (.upTo S depth) c.session with
  | true =>
    rw [ok] at both few'
    have none_ : brokenOff later = 0 := Nat.le_zero.1 few'
    refine ⟨log ++ later, both, ?_⟩
    rw [broken_off_append, none_]
    exact few
  | false =>
    rw [ok] at both few'
    have two : brokenOff later ≤ 2 := Nat.le_trans few' (LoaderState.allowance_le _ _)
    refine ⟨log ++ later, by simpa using both, ?_⟩
    rw [broken_off_append]
    exact Nat.add_le_add few two

theorem accounted_run (machine : (Machine.upTo S depth).Ends (Visits S 0)) {s : Session}
    (sourced : s.envs.Sourced) (os : List Operation) (named : ∀ o ∈ os, o.IsSourced) {c : Course}
    (accounted : c.Accounted S s) :
    (os.foldl (Course.step S (.upTo S depth)) c).Accounted S s := by
  induction os generalizing c with
  | nil => exact accounted
  | cons o rest ih =>
    obtain ⟨first, others⟩ := List.forall_mem_cons.1 named
    exact ih others (accounted_step machine sourced accounted o first)

/-! ## What an action has added in all -/

/-- What the visits of a node have added by one of its actions. -/
def addedBy (log : List Visit) (n : NodeId) (action : Nat) : List Addition :=
  (log.filter (·.node = n)).flatMap (·.added.getD action [])

/-- The same for one of the targets that the action has. -/
def addedFor (log : List Visit) (n : NodeId) (action target : Nat) : List Addition :=
  (log.filter (·.node = n)).filterMap fun v => (v.added.getD action [])[target]?

/-- The visits of a node are those that came to their end and those that were broken off. -/
theorem visits_of_node (log : List Visit) (n : NodeId) :
    (log.filter (·.node = n)).length = log.countP (·.completes n) + log.countP (·.breaks n) := by
  induction log with
  | nil => rfl
  | cons v rest ih =>
    rw [List.countP_cons, List.countP_cons, List.filter_cons]
    by_cases here : v.node = n <;> cases done : v.complete <;>
      simp [Visit.completes, Visit.breaks, here, done, ih] <;> omega

theorem breaks_le (log : List Visit) (n : NodeId) : log.countP (·.breaks n) ≤ brokenOff log :=
  List.countP_mono_left fun _ _ broken => (Bool.and_eq_true_iff.1 broken).1

/-- To bind adds one binding a visit. -/
theorem added_le_of_binding {v : Visit} {t : Tree} (fits : v.Fits S t)
    (held : t.node? v.node = some node)
    (binds : (S.actions node.kind)[i]? = some (.addToEnv key value metadata dest)) :
    (v.added.getD i []).length ≤ 1 := by
  obtain ⟨node', ran, held', part, each, -⟩ := fits
  rw [held] at held'
  cases held'
  obtain ⟨same, adds⟩ := List.forall₂_iff_get.1 each
  cases found : v.added[i]? with
  | none => simp [List.getD, found]
  | some own =>
    obtain ⟨there, is⟩ := List.getElem?_eq_some_iff.1 found
    obtain ⟨listed, action⟩ := List.getElem?_eq_some_iff.1 binds
    have bound := adds i (same ▸ there) there
    simp only [List.get_eq_getElem, is, List.IsPrefix.getElem part, action] at bound
    rw [List.getD, found, Option.getD_some]
    cases bound with
    | nothing => exact Nat.zero_le 1
    | binding env symbol entity => exact Nat.le_refl 1

theorem length_added_by_le {log : List Visit} (each : ∀ v ∈ log, v.node = n →
    (v.added.getD i []).length ≤ 1) :
    (addedBy log n i).length ≤ log.countP (·.completes n) + log.countP (·.breaks n) := by
  rw [← visits_of_node, addedBy, List.length_flatMap]
  refine Nat.le_trans (List.sum_le_card_nsmul _ 1 fun k mem => ?_) ?_
  · obtain ⟨v, listed, rfl⟩ := List.mem_map.1 mem
    obtain ⟨listed, here⟩ := List.mem_filter.1 listed
    exact each v listed (of_decide_eq_true here)
  · simp

theorem length_added_for_le (log : List Visit) (n : NodeId) (i j : Nat) :
    (addedFor log n i j).length ≤ log.countP (·.completes n) + log.countP (·.breaks n) := by
  rw [← visits_of_node, addedFor]
  exact List.length_filterMap_le _ _

/-! ## What courses come to -/

/-- A node that has its environments is not populated again. -/
theorem populate_with_populated {m : Machine} {s : Session} {node : Node}
    (held : s.tree.node? root = some node) (populated : node.isPopulated) :
    ∃ t, populateWith S m root s = (.error (.failure (.alreadyPopulated root)), t) ∧
      t.envs = s.envs := by
  have first : s.tree.firstPopulated root = .ok (some root) := by
    unfold Tree.firstPopulated Tree.node
    rw [held, Tree.firstBelow, held]
    simp [populated]
  rw [populate_with_eq, first]
  exact ⟨_, rfl, rfl⟩

/-- How a log of visits explains what the environments hold. -/
structure Course.Explained (S : Setting) (m : Machine) (c : Course) (log : List Visit) : Prop where
  /-- Whatever was added was added by the host itself or in a visit, and it is all there. -/
  tally : ∀ a, c.session.envs.tally a = (c.own ++ log.flatMap Visit.additions).count a
  fits : ∀ v ∈ log, v.Fits S c.session.tree
  completed : ∀ n, log.countP (·.completes n) = c.session.tree.populations n
  /-- An action that binds has added one binding for each visit at most. -/
  bound : ∀ n node i key value metadata dest, c.session.tree.node? n = some node →
    (S.actions node.kind)[i]? = some (.addToEnv key value metadata dest) →
    (addedBy log n i).length ≤ c.session.tree.populations n + log.countP (·.breaks n)
  /-- An action that refers has added one reference to each of its targets for each visit at
  most. -/
  referred : ∀ n i target, (addedFor log n i target).length ≤
    c.session.tree.populations n + log.countP (·.breaks n)
  /-- Only operations that failed have broken off visits. -/
  broken : brokenOff log ≤ 2 * c.failures
  /-- Without failures there is one visit of a node at most. -/
  once : c.failures = 0 → ∀ n, (log.filter (·.node = n)).length ≤ 1
  /-- To populate a node again adds nothing. -/
  refused : ∀ root node, c.session.tree.node? root = some node → node.isPopulated →
    ∃ t, populateWith S m root c.session = (.error (.failure (.alreadyPopulated root)), t) ∧
      t.envs = c.session.envs

/-- Whatever a host does in a language without external code, and however much of it fails, the
environments hold what was added in the visits of nodes. A node that has its environments
received them in one visit; in each of its visits, those included that were broken off, an
action that binds adds one binding at most, and an action that refers adds one reference for
each target at most. Operations that succeed break off no visit, and others break off two at
most, so without failures every action takes effect at most once. -/
theorem actions_add_once_a_visit (internal : S.language.IsInternal) (depth : Nat) (pool : Pool)
    (bag : BagConfig) (loader : LoaderState) (os : List Operation)
    (named : ∀ o ∈ os, o.IsSourced) :
    ∃ log, (os.foldl (Course.step S (.upTo S depth)) (.start pool bag loader)).Explained S
      (.upTo S depth) log := by
  have start : (Course.start pool bag loader).Accounted S (.new pool bag loader) :=
    ⟨[], Session.ledger_refl _, Nat.le_refl 0⟩
  obtain ⟨log, ledger, few⟩ := accounted_run (machine_ends internal depth)
    (s := .new pool bag loader) EnvStore.sourced_new os named start
  have completed (n : NodeId) : log.countP (·.completes n) = Tree.populations _ n :=
    ((ledger.populations n).trans (Nat.zero_add _)).symm
  refine ⟨log, fun a => ?_, ledger.fits, completed, ?_, fun n i target => ?_, few,
    fun fine n => ?_, fun root node held populated => populate_with_populated held populated⟩
  · rw [ledger.tally, show (Session.new pool bag loader).envs = .new from rfl, EnvStore.tally_new,
      Nat.zero_add]
  · intro n node i key value metadata dest held binds
    rw [← completed]
    exact length_added_by_le fun v mem here =>
      added_le_of_binding (ledger.fits v mem) (here ▸ held) binds
  · rw [← completed]
    exact length_added_for_le log n i target
  · have none_ : log.countP (·.breaks n) = 0 :=
      Nat.le_zero.1 (Nat.le_trans (breaks_le log n) (by simpa [fine] using few))
    rw [visits_of_node, completed, none_]
    exact Tree.populations_le _ n

/-! ## A leaf below a list -/

/-- Leaves bind themselves where they are, and after that in the environment of the node that
is plain. -/
def Setting.bindingTwice : Setting where
  language :=
    { kinds := #[⟨⟨0⟩, "Leaf", none, false, [], false, false, [], [⟨0⟩], .caller⟩,
        ⟨⟨1⟩, "Plain", none, false, [], false, false, [], [⟨1⟩], .caller⟩,
        ⟨⟨2⟩, "List", none, false, [], true, false, [], [⟨2⟩], .caller⟩]
      properties := #[]
      implementations := #[]
      dynVars := #[]
      envSpecs := #[⟨⟨0⟩, ⟨[.bindSelf (.lit (.symbol ⟨1⟩)),
        .addToEnv (.lit (.symbol ⟨1⟩)) .self .empty (some (.nodeEnv (.lit (.entity (.bare ⟨1⟩)))))],
        .caller⟩⟩]
      metadata := none
      table := #[#[], #[], #[]]
      warnings := [] }
  config := .standard

/-- A list of a leaf, and a plain node beside it. -/
def Tree.hung (leaf plain list : Option NodeEnvs) : Tree where
  nodes := #[⟨⟨0⟩, [], some ⟨2⟩, ⟨0⟩, .empty, .dummy, [], leaf⟩,
    ⟨⟨1⟩, [], none, ⟨0⟩, .empty, .dummy, [], plain⟩,
    ⟨⟨2⟩, [⟨0⟩], none, ⟨0⟩, .empty, .dummy, [], list⟩]
  units := #[⟨.empty, none⟩]
  values := #[]
  descending := by
    intro i n held c mem
    rcases i with _ | _ | _ | i <;> simp at held <;> subst held <;> simp at mem
    subst mem
    exact Nat.zero_lt_two

/-- They are in a session that knows one name. -/
def Session.hung (leaf plain list : Option NodeEnvs) (scopes : List Scope) : Session :=
  { Session.rowed none with
    pool := ((Session.rowed none).pool.intern "x").2
    tree := .hung leaf plain list
    envs := ⟨(.opened none none :: scopes).toArray⟩ }

theorem reachable_hung (S : Setting) : Reachable S ⟨.hung none none none [], []⟩ := by
  have listed : (Tree.row none [none, none]).addNode ⟨⟨2⟩, ⟨0⟩, [⟨0⟩], .empty, .dummy, 0⟩ =
      .ok (⟨2⟩, .hung none none none) := rfl
  exact reachable_of_path (reachable_rowed S)
    ((Relation.ReflTransGen.single (.aside (.interned "x"))).tail (.node listed))

theorem first_populated_leaf (plain list : Option NodeEnvs) :
    (Tree.hung none plain list).firstPopulated ⟨0⟩ = .ok none := by
  unfold Tree.firstPopulated
  rw [Tree.firstBelow]
  rfl

theorem first_populated_list : (Tree.hung none none none).firstPopulated ⟨2⟩ = .ok none := by
  have leaf : (Tree.hung none none none).firstBelow Node.isPopulated ⟨0⟩ = none := by
    rw [Tree.firstBelow]
    rfl
  have children : (Tree.hung none none none).childrenOf ⟨2⟩ = [⟨⟨0⟩, Nat.zero_lt_two⟩] := rfl
  unfold Tree.firstPopulated
  rw [Tree.firstBelow, children, List.findSome?_cons]
  dsimp only
  rw [leaf]
  rfl

theorem internal_binding_twice : Setting.bindingTwice.language.IsInternal := by
  intro index i run found
  simp [Setting.bindingTwice, Definition.implementation?] at found

/-- The three nodes are made and populated one after the other, the leaf twice. -/
theorem actions_add_once_a_visit_of_leaf :
    let os : List Operation := [.newUnit "", .addNode ⟨0⟩ ⟨0⟩ [] .empty .dummy,
      .addNode ⟨0⟩ ⟨1⟩ [] .empty .dummy, .addNode ⟨0⟩ ⟨2⟩ [⟨0⟩] .empty .dummy,
      .request (.populate ⟨2⟩), .request (.populate ⟨1⟩), .request (.populate ⟨0⟩)]
    let m := Machine.upTo .bindingTwice 1
    Setting.bindingTwice.language.IsInternal ∧ (∀ o ∈ os, o.IsSourced) ∧
    ∃ log, (os.foldl (Course.step .bindingTwice m) (.start (.new none) .standard .ready)).Explained
      .bindingTwice m log := by
  intro os m
  have named : ∀ o ∈ os, o.IsSourced := by
    intro o mem
    simp only [os, List.mem_cons, List.not_mem_nil, or_false] at mem
    rcases mem with rfl | rfl | rfl | rfl | rfl | rfl | rfl <;> trivial
  exact ⟨internal_binding_twice, named,
    actions_add_once_a_visit internal_binding_twice 1 (.new none) .standard .ready os named⟩

/-- Two actions of one node are all that adds to environments here. The first attempt to
populate the list fails in the leaf, and after the second attempt, at the leaf itself, the
environments hold three bindings. -/
theorem retried_leaf_is_bound_again :
    ∃ (S : Setting) (h : History) (failure : Interrupt PopulateError) (t₁ t₂ t₃ : Session),
      S.language.IsInternal ∧ Reachable S h ∧ h.now.envs = .new ∧
      (∀ n node, h.now.tree.node? n = some node →
        (S.actions node.kind).length = if n = ⟨0⟩ then 2 else 0) ∧
      populateWith S S.machine ⟨2⟩ h.now = (.error failure, t₁) ∧
      populateWith S S.machine ⟨1⟩ t₁ = (.ok (), t₂) ∧
      populateWith S S.machine ⟨0⟩ t₂ = (.ok (), t₃) ∧
      t₃.envs.newestFirst ⟨1⟩ ⟨1⟩ = [⟨.bare ⟨0⟩, .empty⟩, ⟨.bare ⟨0⟩, .empty⟩] ∧
      t₃.envs.newestFirst ⟨2⟩ ⟨1⟩ = [⟨.bare ⟨0⟩, .empty⟩] := by
  let b : Binding := ⟨.bare ⟨0⟩, .empty⟩
  let outer : NodeEnvs := ⟨⟨1⟩, ⟨1⟩⟩
  let beside : NodeEnvs := ⟨⟨2⟩, ⟨2⟩⟩
  let around : Scope := .opened none (some ⟨2⟩)
  let plain : Scope := .opened none (some ⟨1⟩)
  let m := Setting.bindingTwice.machine
  have acting (n : NodeId) (node : Node)
      (held : (Tree.hung none none none).node? n = some node) :
      (Setting.bindingTwice.actions node.kind).length = if n = ⟨0⟩ then 2 else 0 := by
    obtain ⟨_ | _ | _ | raw⟩ := n <;> cases held <;> rfl
  -- the first action of the leaf is done when the second one fails
  have failed : ∃ failure, populateWith .bindingTwice m ⟨2⟩ (.hung none none none []) =
      (.error failure, .hung none none (some outer) [around.bind ⟨1⟩ b]) := by
    have fresh : (Session.hung none none none []).tree.firstPopulated ⟨2⟩ = .ok none :=
      first_populated_list
    have opened : (Session.hung none none none []).openTop ⟨2⟩ ⟨0⟩ =
        (⟨1⟩, .hung none none none [around]) := rfl
    have leaf : ∃ failure, populateNode .bindingTwice m ⟨0⟩ ⟨1⟩
        (.hung none none (some outer) [around]) =
        (.error failure, .hung none none (some outer) [around.bind ⟨1⟩ b]) := by
      rw [populate_node_eq]
      exact ⟨_, rfl⟩
    obtain ⟨failure, leaf⟩ := leaf
    rw [populate_with_eq, fresh]
    show ∃ failure, populateNode _ _ ⟨2⟩ ((Session.hung none none none []).openTop ⟨2⟩ ⟨0⟩).1
      ((Session.hung none none none []).openTop ⟨2⟩ ⟨0⟩).2 = _
    rw [opened]
    exact ⟨failure, populate_node_of_failed rfl rfl rfl rfl leaf⟩
  have other : populateWith .bindingTwice m ⟨1⟩
      (.hung none none (some outer) [around.bind ⟨1⟩ b]) =
      (.ok (), .hung none (some beside) (some outer) [around.bind ⟨1⟩ b, plain]) := by
    rw [populate_single _ _ rfl rfl rfl rfl, populate_node_eq]
    rfl
  have done : populateWith .bindingTwice m ⟨0⟩
      (.hung none (some beside) (some outer) [around.bind ⟨1⟩ b, plain]) =
      (.ok (), .hung (some outer) (some beside) (some outer)
        [(around.bind ⟨1⟩ b).bind ⟨1⟩ b, plain.bind ⟨1⟩ b]) := by
    have fresh : (Session.hung none (some beside) (some outer)
        [around.bind ⟨1⟩ b, plain]).tree.firstPopulated ⟨0⟩ = .ok none := first_populated_leaf _ _
    rw [populate_with_eq, fresh]
    show populateNode _ _ ⟨0⟩ ⟨1⟩ _ = _
    rw [populate_node_eq]
    rfl
  obtain ⟨failure, failed⟩ := failed
  refine ⟨.bindingTwice, _, failure, _, _, _, internal_binding_twice, reachable_hung _, rfl, acting,
    failed, other, done, ?_, ?_⟩
  · show ((around.bind ⟨1⟩ b).bind ⟨1⟩ b).newestFirst ⟨1⟩ = _
    rw [Scope.newestFirst_bind, if_pos rfl, Scope.newestFirst_bind, if_pos rfl,
      Scope.newestFirst_opened]
  · show (plain.bind ⟨1⟩ b).newestFirst ⟨1⟩ = _
    rw [Scope.newestFirst_bind, if_pos rfl, Scope.newestFirst_opened]

end Trellis
