import Trellis.Proofs.Session.Calls
import Trellis.Proofs.Session.Changes

/-! How the operations of a session move it along, whatever machine carries them out.
What is to be shown of a relation is how it takes the single changes, and how it takes
what is done between two of them: one call deeper, while a unit is loaded, while a
reference is resolved. -/
namespace Trellis

variable {S : Setting} {populated : List (NodeId × EnvId)}

/-! ## Making units -/

/-- Moves that include making a node. -/
class Makes (R : History → History → Prop) : Prop extends Track R where
  interned : ∀ s populated text,
    R ⟨s, populated⟩ ⟨{ s with pool := (s.pool.intern text).2 }, populated⟩
  node : ∀ s populated new n tree, s.tree.addNode new = .ok (n, tree) →
    R ⟨s, populated⟩ ⟨{ s with tree }, populated⟩

/-- Moves that include everything that making a unit does. -/
class Builds (S : Setting) (R : History → History → Prop) : Prop extends Track R where
  /-- A unit is opened for a name that has a plan and no unit. -/
  unit : ∀ s populated name, (s.plan name).isSome → s.unitByName name = none →
    R ⟨s, populated⟩ ⟨(s.newUnit (s.pool.text name)).2, populated⟩
  carried : ∀ s populated u name plan, s.plan name = some plan →
    R ⟨s, populated⟩ ⟨(s.carryOut S u plan).2, populated⟩
  rooted : ∀ s populated u root t, s.setRoot u root = .ok t → R ⟨s, populated⟩ ⟨t, populated⟩

/-- Moves that include making a node as the language wants it to be. -/
class Adds (S : Setting) (R : History → History → Prop) : Prop extends Track R where
  named : ∀ s populated text,
    R ⟨s, populated⟩ ⟨{ s with pool := (s.pool.intern text).2 }, populated⟩
  added : ∀ {s u kind children text span n t} populated,
    s.addNode S u kind children text span = .ok (n, t) → R ⟨s, populated⟩ ⟨t, populated⟩

/-- A node that is made is of a concrete kind and has the children that the kind names. -/
theorem Session.add_node_ok {s t : Session} {text : Symbol}
    (made : s.addNode S u kind children text span = .ok (n, t)) :
    ∃ info tree, S.language.kind? kind = some info ∧ info.isAbstract = false ∧
      (info.isList = false → children.length = info.fields.length) ∧
      s.tree.addNode ⟨kind, u, children, text, span, info.logicVars.length⟩ = .ok (n, tree) ∧
      t = { s with tree } := by
  simp only [Session.addNode, bind, Except.bind, throw, throwThe, MonadExceptOf.throw, pure,
    Except.pure] at made
  split at made
  · next info known =>
    split at made
    · cases made
    · next concrete =>
      split at made
      · cases made
      · next filled =>
        split at made
        · next tree added =>
          cases made
          refine ⟨info, _, known, by simpa using concrete, fun named => ?_, added, rfl⟩
          simpa [named] using filled
        · cases made
  · cases made

variable {R : History → History → Prop}

instance [Makes R] : Adds S R where
  named := Makes.interned
  added _ made := by
    obtain ⟨info, tree, -, -, -, added, rfl⟩ := Session.add_node_ok made
    exact Makes.node _ _ _ _ _ added

section Making
variable [Adds S R]

theorem new_token_makes (s : Session) (u : UnitId) (kind : KindId) (text : String) :
    R ⟨s, populated⟩ ⟨(s.newToken S u kind text).2, populated⟩ := by
  have interned := Adds.named (R := R) S s populated text
  unfold Session.newToken
  dsimp only
  split
  · next made => exact Track.trans interned (Adds.added populated made)
  · exact interned

theorem make_nodes_makes (u : UnitId) (nodes : List PlannedNode) (s : Session)
    (made : List NodeId) : R ⟨s, populated⟩ ⟨(s.makeNodes S u made nodes).2, populated⟩ := by
  induction nodes generalizing s made with
  | nil => exact Track.refl _
  | cons node rest ih =>
    cases node with
    | inner kind children =>
      rw [Session.makeNodes]
      split
      · next n t added => exact Track.trans (Adds.added populated added) (ih t _)
      · exact Track.refl _
    | token kind text =>
      have token : R ⟨s, populated⟩ ⟨(s.newToken S u kind text).2, populated⟩ :=
        new_token_makes s u kind text
      rw [Session.makeNodes]
      split
      · next n t added =>
        rw [added] at token
        exact Track.trans token (ih t _)
      · next e t refused =>
        rw [refused] at token
        exact token

/-- A plan is carried out node by node. -/
theorem carry_out_makes (s : Session) (u : UnitId) (plan : UnitPlan) :
    R ⟨s, populated⟩ ⟨(s.carryOut S u plan).2, populated⟩ :=
  make_nodes_makes u plan.nodes s []

end Making

instance : Makes (Path S) where
  interned _ _ text := .single (.aside (.interned text))
  node _ _ _ _ _ made := .single (.node made)

instance : Builds S (Path S) where
  unit _ _ _ _ _ := .single (.unit _)
  carried s _ u _ plan _ := carry_out_makes s u plan
  rooted _ _ _ _ _ given := .single (.rooted given)

/-- The unit of a name, opened if there is none. -/
def Session.openUnit (s : Session) (name : Symbol) : UnitId × Session :=
  match s.unitByName name with
  | some u => (u, s)
  | none => s.newUnit (s.pool.text name)

namespace EvalM
open SessionM

theorem root_of_builds [Builds S R] {s : Session} (known : s.plan name = some plan) (u : UnitId)
    (text : String) : R ⟨s, populated⟩ ⟨(rootOf S u text plan s).2, populated⟩ := by
  have made : R ⟨s, populated⟩ ⟨(s.carryOut S u plan).2, populated⟩ :=
    Builds.carried _ _ _ _ _ known
  unfold rootOf
  split
  · exact Track.refl _
  · split
    · next failed => rwa [failed] at made
    · next root t ran =>
      rw [ran] at made
      split
      · next given => exact Track.trans made (Builds.rooted S _ _ _ _ _ given)
      · exact made

/-- The unit of a name with its root, made as far as they do not exist yet. -/
def prepare (S : Setting) (name : Symbol) : EvalM (UnitId × NodeId) := do
  let text ← SessionM.read fun s => s.pool.text name
  match ← SessionM.read fun s => s.plan name with
  | none => EvalM.fail (.unitLoad text none)
  | some plan => do
    let u ← match ← SessionM.read fun s => s.unitByName name with
      | some u => pure u
      | none => fun s => let (u, s) := s.newUnit text; (.ok u, s)
    return (u, ← rootOf S u text plan)

theorem prepare_eq (S : Setting) (name : Symbol) (s : Session) :
    prepare S name s = match s.plan name with
      | none => (.error (.failure (.of (.unitLoad (s.pool.text name) none))), s)
      | some plan =>
        match rootOf S (s.openUnit name).1 (s.pool.text name) plan (s.openUnit name).2 with
        | (.ok root, t) => (.ok ((s.openUnit name).1, root), t)
        | (.error e, t) => (.error e, t) := by
  unfold prepare Session.openUnit
  simp only [run_bind, run_read]
  cases s.plan name with
  | none => rfl
  | some plan =>
    dsimp only
    simp only [run_bind, run_read]
    cases s.unitByName name with
    | some u =>
      dsimp only
      simp only [run_bind, run_pure]
      rcases rootOf S u (s.pool.text name) plan s with ⟨e | root, t⟩ <;> rfl
    | none =>
      dsimp only
      simp only [run_bind]
      rcases rootOf S (s.newUnit (s.pool.text name)).1 (s.pool.text name) plan
        (s.newUnit (s.pool.text name)).2 with ⟨e | root, t⟩ <;> rfl

theorem plan_open_unit (s : Session) (name other : Symbol) :
    (s.openUnit name).2.plan other = s.plan other := by
  unfold Session.openUnit
  split <;> rfl

theorem prepare_builds [Builds S R] (name : Symbol) (s : Session) :
    R ⟨s, populated⟩ ⟨(prepare S name s).2, populated⟩ := by
  rw [prepare_eq]
  split
  · exact Track.refl _
  · next plan known =>
    have opened : R ⟨s, populated⟩ ⟨(s.openUnit name).2, populated⟩ := by
      unfold Session.openUnit
      split
      · exact Track.refl _
      · next unnamed => exact Builds.unit S _ _ _ (Option.isSome_of_eq_some known) unnamed
    have rooted : R ⟨(s.openUnit name).2, populated⟩ ⟨(rootOf S (s.openUnit name).1
        (s.pool.text name) plan (s.openUnit name).2).2, populated⟩ :=
      root_of_builds ((plan_open_unit s name name).trans known) _ _
    split <;> next ran => rw [ran] at rooted; exact Track.trans opened rooted

/-- A unit is made in two parts: it is prepared, and then it is populated. -/
theorem make_unit_eq (S : Setting) (m : Machine) (name : Symbol) :
    makeUnit S m name = do
      let (u, root) ← prepare S name
      if !(← EvalM.node root).isPopulated then
        (populateWith S m root).mapError PopulateError.toPropertyError
      return u := by
  unfold makeUnit prepare
  simp only [bind_assoc]
  congr 1
  funext text
  congr 1
  funext plan
  cases plan with
  | none => rfl
  | some plan =>
    simp only [bind_assoc]
    congr 1
    funext found
    cases found with
    | none => simp only [bind_assoc, pure_bind]
    | some u => simp only [bind_assoc, pure_bind]

/-- Load a unit while no other one can be. -/
def loading (act : EvalM UnitId) : EvalM UnitId :=
  bracket ({ · with loader := .loading }) act fun _ s => { s with loader := .ready }

/-- Produce the environment behind a reference while the reference is marked. -/
def resolving (env : EnvId) (index : Nat) (act : EvalM EnvValue) : EvalM EnvValue :=
  bracket (fun s => { s with envs := s.envs.setState env index .resolving }) act fun
    | .ok value => fun s => { s with envs := s.envs.setState env index (.resolved value) }
    | .error _ => fun s => { s with envs := s.envs.setState env index .unresolved }

theorem resolve_with_eq (S : Setting) (m : Machine) (env : EnvId) (index : Nat) (s : Session) :
    resolveWith S m env index s = match s.envs.reference? env index with
      | none => (.ok .empty, s)
      | some reference => match reference.state with
        | .resolved value => (.ok value, s)
        | .resolving => (.ok .empty, s.reportCycle env index)
        | .unresolved => resolving env index (force S m reference.thunk) s := by
  unfold resolveWith
  rw [run_bind, run_read]
  cases s.envs.reference? env index with
  | none => rfl
  | some reference =>
    dsimp only
    cases reference.state <;> rfl

end EvalM

theorem resolve_with_resolved {m : Machine} {s : Session}
    (held : s.envs.reference? env index = some reference)
    (known : reference.state = .resolved value) :
    EvalM.resolveWith S m env index s = (.ok value, s) := by
  rw [EvalM.resolve_with_eq, held]
  simp only [known]

/-- Moves that include everything that external code can ask for, but for what the
machine does. -/
class Acts (S : Setting) (R : History → History → Prop) : Prop
    extends Populates R, Builds S R where
  counted : ∀ s populated n, R ⟨s, populated⟩ ⟨{ s with counter := s.counter + n }, populated⟩
  deeper : ∀ {act : EvalM Value} (limit : Nat),
    SessionM.Moves R act → SessionM.Moves R (EvalM.deeper limit act)
  loading : ∀ {act : EvalM UnitId}, SessionM.Moves R act → ∀ h : History, h.now.loader = .ready →
    ∃ populated, R h ⟨(EvalM.loading act h.now).2, populated⟩

/-- Moves that include producing the environment behind a reference as well. -/
class Operates (S : Setting) (R : History → History → Prop) : Prop extends Acts S R where
  resolving : ∀ {act : EvalM EnvValue}, SessionM.Moves R act → ∀ (h : History) env index reference,
    h.now.envs.reference? env index = some reference → reference.state = .unresolved →
    ∃ populated, R h ⟨(EvalM.resolving env index act h.now).2, populated⟩

/-- Moves that include what remembering a result does as well. -/
class Remembers (S : Setting) (R : History → History → Prop) : Prop extends Operates S R where
  memoized : ∀ {act : EvalM Value} (name : String) (key : MemoKey),
    SessionM.Moves R act → SessionM.Moves R (EvalM.memoized name key act)

namespace EvalM
open SessionM

section Lookups
variable {m : Machine}

section Ends
variable {R : Bool → History → History → Prop} [Trail R] (machine : m.Ends R)
include machine

theorem search_with_ends (q : LookupQuery) (view : EnvValue) (visiting : List EnvId)
    (found : Array Entity) : Ends R (searchWith m q view visiting found) := by
  have reads : Reads fun _ act _ => Ends R act := ⟨⟨ends_pure, ends_bind⟩, ends_read⟩
  exact search_with_related reads m m machine.resolve (machine.search q) view visiting found

end Ends

theorem search_with_moves {R : History → History → Prop} [Track R] (machine : m.Moves R)
    (q : LookupQuery) (view : EnvValue) (visiting : List EnvId) (found : Array Entity) :
    Moves R (searchWith m q view visiting found) :=
  search_with_ends (Machine.ends_of_moves machine) q view visiting found

end Lookups

section Acts
variable {m : Machine} {R : History → History → Prop} [Acts S R] [Fills S m R]
  (machine : m.Moves R)
include machine

theorem make_unit_moves (name : Symbol) : Moves R (makeUnit S m name) := by
  rw [make_unit_eq]
  refine moves_bind (fun h => ⟨h.populated, prepare_builds name h.now⟩) fun (u, root) => ?_
  refine moves_bind (moves_node root) fun node => ?_
  split
  · exact moves_bind (moves_map_error _ (populate_with_moves machine root)) fun _ => moves_pure _
  · exact moves_pure _

theorem load_unit_moves (name : Symbol) : Moves R (loadUnit S m name) := by
  unfold loadUnit
  refine moves_bind (moves_read _) fun found => ?_
  split
  · exact moves_pure _
  · intro h
    rw [run_bind, run_read]
    dsimp only
    cases state : h.now.loader with
    | ready => exact Acts.loading S (make_unit_moves machine name) h state
    | _ => exact moves_bind (moves_read _) (fun _ => moves_fail _) h

/-! ## Scripts -/

theorem perform_moves (request : Request) : Moves R (perform S m request) := by
  cases request with
  | call entity prop args dynVars => exact machine.call _ _ _ _
  | lookup env symbol require => exact moves_bind (machine.lookup _ _ _) fun _ => moves_pure _
  | lookupFirst env symbol require =>
    refine moves_bind (machine.lookup_first _ _ _) fun found => ?_
    cases found <;> exact moves_pure _
  | resolve env index => exact moves_bind (machine.resolve _ _) fun _ => moves_pure _
  | nodeEnv n => exact moves_bind (moves_read_e _) fun _ => moves_pure _
  | logicValue v => exact moves_bind (moves_read_e _) fun _ => moves_pure _
  | solve id dynVars =>
    exact moves_bind (moves_read _) fun e =>
      moves_bind (Evaluates.solved S e dynVars machine) fun _ => moves_pure _
  | populate n =>
    exact moves_bind (moves_map_error _ (populate_with_moves machine n)) fun _ => moves_pure _
  | loadUnit name => exact moves_bind (load_unit_moves machine name) fun _ => moves_read _
  | createEnv parent owner => exact moves_of_primitive fun _ _ => Populates.created _ _ _ _
  | addBinding env symbol entity metadata =>
    exact moves_bind (moves_of_primitive fun _ _ => Populates.bound _ _ _ _ _ _) fun _ =>
      moves_pure _
  | addReference env source crossing =>
    exact moves_bind (moves_of_primitive fun _ _ => Populates.referred _ _ _ _ _) fun _ =>
      moves_pure _
  | count by_ => exact moves_of_primitive fun _ _ => Acts.counted S _ _ _

theorem run_script_moves (script : Script) : Moves R (runScript S m script) := by
  induction script with
  | done result => exact moves_of_except result
  | ask request next ih =>
    exact moves_bind (moves_attempt (perform_moves machine request)) fun outcome => ih outcome

/-! ## Calls -/

theorem run_body_moves (i : Implementation) (kind : KindId) (entity : Entity)
    (args : List Value) (dynVars : DynVars) :
    Moves R (runBody S m i kind entity args dynVars) := by
  unfold runBody
  split
  · exact FrameM.moves_run_in _ (FrameM.eval_moves S machine _)
  · exact moves_bind (moves_read _) fun _ => run_script_moves machine _
  · exact moves_fail _
  · exact moves_fail _

theorem body_of_moves (kind : KindId) (index : Nat) (key : MemoKey) :
    Moves R (bodyOf S m kind index key) := by
  unfold bodyOf
  split
  · exact run_body_moves machine _ _ _ _ _
  · exact moves_fail _

theorem compute_moves (kind : KindId) (info : PropertyInfo) (index : Nat) (key : MemoKey) :
    Moves R (compute S m kind info index key) := by
  refine moves_bind (Acts.deeper S _ (body_of_moves machine kind index key)) fun value => ?_
  refine moves_bind (moves_still fun s => ?_) fun _ => moves_pure _
  rw [expect_type_eq]
  split <;> rfl

/-- A call moves along if remembering its result does. -/
theorem call_with_moves
    (remembered : ∀ {s key dynVars node info index}, Called S s key dynVars node info index →
      (S.config.memoize && info.memoized) = true → ∀ populated, ∃ later, R ⟨s, populated⟩
        ⟨(memoized info.name key (compute S m node.kind info index key) s).2, later⟩)
    (entity : Entity) (prop : PropId) (args : List Value) (dynVars : DynVars) :
    Moves R (callWith S m entity prop args dynVars) := by
  intro h
  rcases call_with_cases S m entity prop args dynVars h.now with ⟨e, ran⟩ | found
  · exact ⟨h.populated, by rw [ran]; exact Track.refl h⟩
  · obtain ⟨declared, node, info, index, called, ran⟩ := found
    rw [ran, map_error_state]
    unfold answer
    split
    · next kept => exact remembered called kept h.populated
    · exact compute_moves machine _ _ _ _ h

theorem force_moves (thunk : EnvThunk) : Moves R (force S m thunk) := by
  have environment (v : Value) : Moves R (expectEnv v) := by
    cases v <;> first | exact moves_pure _ | exact moves_fail _
  unfold force
  split
  · exact moves_pure _
  · exact moves_bind (machine.call _ _ _ _) fun v => moves_map_error _ (environment v)
  · exact moves_bind (load_unit_moves machine _) fun _ =>
      moves_bind (moves_read _) fun v => environment v
  · exact moves_bind (run_script_moves machine _) fun v => environment v

end Acts

/-- To ask for the environment behind a reference moves along if producing it does. -/
theorem resolve_with_moves_of {m : Machine} {R : History → History → Prop} [Track R]
    (reported : ∀ s env index populated,
      R ⟨s, populated⟩ ⟨s.reportCycle env index, populated⟩)
    (resolved : ∀ {s env index reference}, s.envs.reference? env index = some reference →
      reference.state = .unresolved → ∀ populated, ∃ later, R ⟨s, populated⟩
        ⟨(resolving env index (force S m reference.thunk) s).2, later⟩)
    (env : EnvId) (index : Nat) : Moves R (resolveWith S m env index) := by
  intro h
  rw [resolve_with_eq]
  cases held : h.now.envs.reference? env index with
  | none => exact ⟨h.populated, Track.refl h⟩
  | some reference =>
    dsimp only
    cases state : reference.state with
    | unresolved => exact resolved held state h.populated
    | resolving => exact ⟨h.populated, reported _ _ _ _⟩
    | resolved value => exact ⟨h.populated, Track.refl h⟩

theorem resolve_with_moves {m : Machine} {R : History → History → Prop} [Operates S R]
    [Fills S m R] (machine : m.Moves R) (env : EnvId) (index : Nat) :
    Moves R (resolveWith S m env index) :=
  resolve_with_moves_of (fun _ _ _ _ => Evaluates.reported _ _ _ _ _)
    (fun held fresh populated => Operates.resolving S (force_moves machine _) ⟨_, populated⟩ _ _ _
      held fresh) env index

end EvalM

/-! ## The machine -/

/-- The machine moves along, whatever depth of nesting it follows, if remembering the
result of a call does and producing the environment behind a reference. -/
theorem machine_moves_by {R : History → History → Prop} [Acts S R]
    [∀ depth, Fills S (.upTo S depth) R]
    (remembered : ∀ depth, (Machine.upTo S depth).Moves R →
      ∀ {s key dynVars node info index}, Called S s key dynVars node info index →
      (S.config.memoize && info.memoized) = true → ∀ populated, ∃ later, R ⟨s, populated⟩
        ⟨(EvalM.memoized info.name key
          (EvalM.compute S (.upTo S depth) node.kind info index key) s).2, later⟩)
    (resolved : ∀ depth, (Machine.upTo S depth).Moves R →
      ∀ {s env index reference}, s.envs.reference? env index = some reference →
      reference.state = .unresolved → ∀ populated, ∃ later, R ⟨s, populated⟩
        ⟨(EvalM.resolving env index
          (EvalM.force S (.upTo S depth) reference.thunk) s).2, later⟩)
    (depth : Nat) : (Machine.upTo S depth).Moves R := by
  induction depth with
  | zero =>
    exact ⟨fun _ _ _ _ => SessionM.moves_exhausted, fun _ _ _ _ => SessionM.moves_exhausted,
      fun _ _ => SessionM.moves_exhausted⟩
  | succ depth ih =>
    exact ⟨EvalM.call_with_moves (m := .upTo S depth) ih (remembered depth ih),
      EvalM.search_with_moves ih,
      EvalM.resolve_with_moves_of (m := .upTo S depth)
        (fun _ _ _ _ => Evaluates.reported _ _ _ _ _) (resolved depth ih)⟩

theorem machine_moves_of {R : History → History → Prop} [Operates S R]
    [∀ depth, Fills S (.upTo S depth) R]
    (remembered : ∀ depth, (Machine.upTo S depth).Moves R →
      ∀ {s key dynVars node info index}, Called S s key dynVars node info index →
      (S.config.memoize && info.memoized) = true → ∀ populated, ∃ later, R ⟨s, populated⟩
        ⟨(EvalM.memoized info.name key
          (EvalM.compute S (.upTo S depth) node.kind info index key) s).2, later⟩)
    (depth : Nat) : (Machine.upTo S depth).Moves R :=
  machine_moves_by remembered (fun _ machine _ _ _ _ held fresh populated =>
    Operates.resolving S (EvalM.force_moves machine _) ⟨_, populated⟩ _ _ _ held fresh) depth

theorem machine_moves {R : History → History → Prop} [Remembers S R]
    [∀ depth, Fills S (.upTo S depth) R] (depth : Nat) : (Machine.upTo S depth).Moves R :=
  machine_moves_of (fun _ machine _ _ _ _ _ _ _ _ populated =>
    Remembers.memoized S _ _ (EvalM.compute_moves machine _ _ _ _) ⟨_, populated⟩) depth

/-! ## What is done between two changes -/

namespace EvalM
open SessionM

section Brackets
variable {R : History → History → Prop} [Track R]

section Asides
variable (aside : ∀ {s t : Session} populated, Aside s t → t.plans = s.plans →
  R ⟨s, populated⟩ ⟨t, populated⟩)
include aside

theorem deeper_moves {act : EvalM Value} (limit : Nat) (inside : Moves R act) :
    Moves R (deeper limit act) := by
  intro h
  unfold deeper
  split
  · exact ⟨h.populated, Track.refl h⟩
  · exact moves_bracket (fun _ p => aside p .deeper rfl) inside
      (fun _ _ p => aside p .shallower rfl) h

theorem loading_moves {act : EvalM UnitId} (inside : Moves R act) : Moves R (loading act) :=
  moves_bracket (fun _ p => aside p (.loading _) rfl) inside
    fun _ _ p => aside p (.loading _) rfl

theorem memoized_moves {act : EvalM Value} (name : String) (key : MemoKey)
    (inside : Moves R act) : Moves R (memoized name key act) := by
  intro h
  unfold memoized
  split
  · exact ⟨h.populated, aside _ .hit rfl⟩
  · split
    · exact ⟨h.populated, Track.refl h⟩
    · refine moves_bracket (fun _ p => aside p (.started key) rfl) inside (fun r _ p => ?_) h
      cases r with
      | ok value => exact aside p (.finished key value) rfl
      | error e => exact aside p (.abandoned key) rfl

end Asides

theorem resolving_moves {act : EvalM EnvValue} (env : EnvId) (index : Nat)
    (marked : ∀ s populated state, R ⟨s, populated⟩
      ⟨{ s with envs := s.envs.setState env index state }, populated⟩) (inside : Moves R act) :
    Moves R (resolving env index act) := by
  refine moves_bracket (fun s p => marked s p _) inside fun r s p => ?_
  cases r <;> exact marked s p _

end Brackets

end EvalM

instance : Remembers S (Path S) where
  counted _ _ n := .single (.aside (.counted n))
  deeper limit inside := EvalM.deeper_moves (fun _ step _ => .single (.aside step)) limit inside
  loading inside h _ := EvalM.loading_moves (fun _ step _ => .single (.aside step)) inside h
  resolving inside h env index _ _ _ := EvalM.resolving_moves env index
    (fun _ _ state => .single (.envs (.marked env index state))) inside h
  memoized name key inside :=
    EvalM.memoized_moves (fun _ step _ => .single (.aside step)) name key inside

theorem machine_steady (S : Setting) (depth : Nat) : S.Steady depth := machine_moves depth

end Trellis
