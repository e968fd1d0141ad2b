import Trellis.Proofs.Scope
import Trellis.Proofs.Session.Reachable

/-! The marks that a session carries about what is going on in it: the keys of calls
that are running, the references that are being resolved, how deep calls are
nested, and whether a unit is being loaded. They are set and cleared in pairs, and
every operation, however it ends, leaves them as it found them. So at each point of
a run they say exactly what the run is in the middle of. -/
namespace Trellis

/-- Moves of the session that take no part in what is recorded. -/
def Along (r : Session → Session → Prop) (h k : History) : Prop :=
  r h.now k.now ∧ h.populated <:+ k.populated

theorem along_moves_iff {r : Session → Session → Prop} {act : SessionM ε α} :
    act.Moves (Along r) ↔ ∀ s, r s (act s).2 := by
  constructor
  · intro moves s
    obtain ⟨_, there, _⟩ := moves ⟨s, []⟩
    exact there
  · exact fun keeps h => ⟨h.populated, keeps h.now, List.suffix_refl _⟩

theorem open_top_eq (s : Session) (root : NodeId) (unit : UnitId) :
    ∃ unitEnvs, (s.openTop root unit).2 =
      { s with envs := (s.envs.create none (some root)).2, unitEnvs } := by
  unfold Session.openTop Session.addUnitEnv
  dsimp only
  split
  · split <;> exact ⟨_, rfl⟩
  · exact ⟨_, rfl⟩

namespace Session

/-- Sessions with the same marks. -/
structure SameMarks (s t : Session) : Prop where
  keys : ∀ key, key ∈ t.memo.running ↔ key ∈ s.memo.running
  references : ∀ env index, t.envs.Resolving env index ↔ s.envs.Resolving env index
  depth : t.depth = s.depth
  loader : t.loader = s.loader

theorem same_marks_refl (s : Session) : s.SameMarks s :=
  ⟨fun _ => Iff.rfl, fun _ _ => Iff.rfl, rfl, rfl⟩

theorem same_marks_trans {r s t : Session} (first : r.SameMarks s) (rest : s.SameMarks t) :
    r.SameMarks t where
  keys key := (rest.keys key).trans (first.keys key)
  references env index := (rest.references env index).trans (first.references env index)
  depth := rest.depth.trans first.depth
  loader := rest.loader.trans first.loader

theorem same_marks_envs {s : Session} {envs : EnvStore}
    (same : ∀ env index, envs.Resolving env index ↔ s.envs.Resolving env index) :
    s.SameMarks { s with envs } :=
  ⟨fun _ => Iff.rfl, same, rfl, rfl⟩

theorem same_marks_open_top (s : Session) (root : NodeId) (unit : UnitId) :
    s.SameMarks (s.openTop root unit).2 := by
  obtain ⟨unitEnvs, eq⟩ := open_top_eq s root unit
  rw [eq]
  exact ⟨fun _ => Iff.rfl, EnvStore.resolving_create _ _ _, rfl, rfl⟩

end Session

namespace EvalM
open Session

/-- One call deeper and back. -/
theorem deeper_marks {act : EvalM Value} (limit : Nat) (inside : ∀ s, SameMarks s (act s).2)
    (s : Session) : s.SameMarks (deeper limit act s).2 := by
  unfold deeper
  split
  · exact same_marks_refl s
  · have there := inside { s with depth := s.depth + 1 }
    exact ⟨there.keys, there.references, congrArg (· - 1) there.depth, there.loader⟩

/-- A key that was not running is not running after its call has ended. -/
theorem memoized_marks {act : EvalM Value} (name : String) (key : MemoKey)
    (inside : ∀ s, SameMarks s (act s).2) (s : Session) :
    s.SameMarks (memoized name key act s).2 := by
  unfold memoized
  split
  · exact ⟨fun _ => Iff.rfl, fun _ _ => Iff.rfl, rfl, rfl⟩
  · split
    · exact same_marks_refl s
    · next idle =>
      have there := inside { s with memo := s.memo.start key }
      have keys (other : MemoKey) :
          other ∈ (act { s with memo := s.memo.start key }).2.memo.running.erase key ↔
            other ∈ s.memo.running := by
        rw [Std.HashSet.mem_erase, there.keys, Memo.start, Std.HashSet.mem_insert]
        by_cases same : key = other
        · subst same; simp [idle]
        · simp [same]
      unfold SessionM.bracket
      rcases ran : act { s with memo := s.memo.start key } with ⟨halt | value, t⟩ <;>
        rw [ran] at there keys <;> exact ⟨keys, there.references, there.depth, there.loader⟩

theorem loading_marks {act : EvalM UnitId} (inside : ∀ s, SameMarks s (act s).2) {s : Session}
    (ready : s.loader = .ready) : s.SameMarks (loading act s).2 := by
  have there := inside { s with loader := .loading }
  exact ⟨there.keys, there.references, there.depth, ready.symm⟩

/-- A reference that was not resolved is not being resolved after that was tried. -/
theorem resolving_marks {act : EvalM EnvValue} (inside : ∀ s, SameMarks s (act s).2) {s : Session}
    (held : s.envs.reference? env index = some reference) (state : reference.state = .unresolved) :
    s.SameMarks (resolving env index act s).2 := by
  have there := inside { s with envs := s.envs.setState env index .resolving }
  have marked := (there.references env index).2
    ((EnvStore.resolving_setState held .resolving env index).2 (by simp))
  obtain ⟨still, found, -⟩ := Option.map_eq_some_iff.1 marked
  have back (after : RefState) (cleared : after ≠ .resolving) (e : EnvId) (i : Nat) :
      ((act { s with envs := s.envs.setState env index .resolving }).2.envs.setState env index
        after).Resolving e i ↔ s.envs.Resolving e i := by
    rw [EnvStore.resolving_setState found, there.references, EnvStore.resolving_setState held]
    split
    · next here => simp [cleared, here.1, here.2, EnvStore.Resolving, EnvStore.state?, held, state]
    · rfl
  unfold resolving SessionM.bracket
  rcases ran : act { s with envs := s.envs.setState env index .resolving } with
    ⟨halt | value, t⟩ <;>
    rw [ran] at there back <;>
    exact ⟨there.keys, back _ (by simp), there.depth, there.loader⟩

end EvalM

open Session in
instance : Track (Along SameMarks) where
  refl h := ⟨same_marks_refl h.now, List.suffix_refl _⟩
  trans first rest := ⟨same_marks_trans first.1 rest.1, first.2.trans rest.2⟩

open Session in
instance : Makes (Along SameMarks) where
  interned _ _ _ := ⟨⟨fun _ => Iff.rfl, fun _ _ => Iff.rfl, rfl, rfl⟩, List.suffix_refl _⟩
  node _ _ _ _ _ _ := ⟨⟨fun _ => Iff.rfl, fun _ _ => Iff.rfl, rfl, rfl⟩, List.suffix_refl _⟩

open Session in
instance : Populates (Along SameMarks) where
  recorded moved := moved.2
  equation _ _ _ := ⟨⟨fun _ => Iff.rfl, fun _ _ => Iff.rfl, rfl, rfl⟩, List.suffix_refl _⟩
  solved S _ e dynVars machine := EvalM.solve_moves machine
    (fun _ _ _ _ => ⟨⟨fun _ => Iff.rfl, fun _ _ => Iff.rfl, rfl, rfl⟩, List.suffix_refl _⟩)
    (fun _ _ _ _ _ => ⟨⟨fun _ => Iff.rfl, fun _ _ => Iff.rfl, rfl, rfl⟩, List.suffix_refl _⟩) S e
    dynVars
  reported _ _ _ _ _ := ⟨⟨fun _ => Iff.rfl, fun _ _ => Iff.rfl, rfl, rfl⟩, List.suffix_refl _⟩
  created _ _ _ _ := ⟨same_marks_envs (EnvStore.resolving_create _ _ _), List.suffix_refl _⟩
  bound _ _ _ _ _ _ :=
    ⟨same_marks_envs (EnvStore.resolving_addBinding _ _ _ _ _), List.suffix_refl _⟩
  referred _ _ _ _ _ :=
    ⟨same_marks_envs (EnvStore.resolving_addReference _ _ _ _), List.suffix_refl _⟩
  opened s _ root node _ _ _ := ⟨same_marks_open_top s root node.unit, List.suffix_refl _⟩

open Session in
instance : Remembers S (Along SameMarks) where
  unit _ _ _ _ _ := ⟨⟨fun _ => Iff.rfl, fun _ _ => Iff.rfl, rfl, rfl⟩, List.suffix_refl _⟩
  carried s _ u _ plan _ := carry_out_makes s u plan
  rooted _ _ _ _ _ given := by
    obtain ⟨tree, -, rfl⟩ := set_root_ok given
    exact ⟨⟨fun _ => Iff.rfl, fun _ _ => Iff.rfl, rfl, rfl⟩, List.suffix_refl _⟩
  counted _ _ _ := ⟨⟨fun _ => Iff.rfl, fun _ _ => Iff.rfl, rfl, rfl⟩, List.suffix_refl _⟩
  deeper limit inside := along_moves_iff.2 (EvalM.deeper_marks limit (along_moves_iff.1 inside))
  loading inside h ready :=
    ⟨h.populated, EvalM.loading_marks (along_moves_iff.1 inside) ready, List.suffix_refl _⟩
  resolving inside h _ _ _ held state :=
    ⟨h.populated, EvalM.resolving_marks (along_moves_iff.1 inside) held state, List.suffix_refl _⟩
  memoized name key inside :=
    along_moves_iff.2 (EvalM.memoized_marks name key (along_moves_iff.1 inside))

instance : Hosts S (Along Session.SameMarks) where
  begun _ _ _ := ⟨⟨fun _ => Iff.rfl, fun _ _ => Iff.rfl, rfl, rfl⟩, List.suffix_refl _⟩
  registered _ _ _ _ := ⟨⟨fun _ => Iff.rfl, fun _ _ => Iff.rfl, rfl, rfl⟩, List.suffix_refl _⟩

instance (S : Setting) (m : Machine) : Fills S m (Along Session.SameMarks) where
  filled _ _ _ _ _ _ _ _ _ _ _ :=
    ⟨⟨fun _ => Iff.rfl, fun _ _ => Iff.rfl, rfl, rfl⟩, List.suffix_cons _ _⟩

/-! ## Points of a run -/

/-- What a session can be in the middle of. -/
inductive Activity where
  /-- The body of a call is running; the key is there if the result is to be
  remembered. -/
  | body (key : Option MemoKey)
  /-- The environment behind a reference is being produced. -/
  | thunk (env : EnvId) (index : Nat)
  | load
deriving DecidableEq

namespace Activity

def isBody : Activity → Bool
  | body _ => true
  | _ => false

end Activity

namespace Session

/-- The session in which the body of a call starts. -/
def enter (s : Session) (remembered : Option MemoKey) : Session :=
  { s with
    depth := s.depth + 1
    memo := match remembered with
      | some key => s.memo.start key
      | none => s.memo }

/-- The session in which the environment behind a reference is produced. -/
def mark (s : Session) (env : EnvId) (index : Nat) : Session :=
  { s with envs := s.envs.setState env index .resolving }

/-- Changes that solving and population make on their own account. Everything else
that they do is an operation of the session. -/
inductive Inner : Session → Session → Prop
  | assigned (v : VarId) (x : Entity) : Inner s { s with tree := s.tree.setValue v x }
  | reported (code : ErrorCode) (message : String) (location : Location) :
      Inner s (s.report code message location)
  | opened (root : NodeId) (unit : UnitId) : Inner s (s.openTop root unit).2
  | filled {envs : NodeEnvs} {filled : Tree} (given : s.tree.setEnvs n envs = .ok filled) :
      Inner s { s with tree := filled }

/-- The marks of a session are those of the activities that are running. -/
structure Mirrors (s : Session) (home : LoaderState) (running : List Activity) : Prop where
  keys : ∀ key, key ∈ s.memo.running ↔ .body (some key) ∈ running
  references : ∀ env index, s.envs.Resolving env index ↔ .thunk env index ∈ running
  depth : s.depth = running.countP (·.isBody)
  loader : s.loader = if .load ∈ running then .loading else home

end Session

theorem EvalM.resolving_eq (env : EnvId) (index : Nat) (act : EvalM EnvValue) (s : Session) :
    resolving env index act s = match act (s.mark env index) with
      | (.ok value, t) => (.ok value, { t with
          envs := t.envs.setState env index (.resolved value) })
      | (.error halt, t) => (.error halt, { t with
          envs := t.envs.setState env index .unresolved }) := by
  unfold resolving SessionM.bracket Session.mark
  rcases act { s with envs := s.envs.setState env index .resolving } with ⟨halt | value, t⟩ <;> rfl

/-- The points that runs come by, with the activities that are running there, the
innermost first. Between two of them an operation was carried out, or one of the
changes was made that operations consist of, or an activity was begun. When an
activity has ended, the operation it belongs to is carried out. -/
inductive Point (S : Setting) (home : LoaderState) : List Activity → Session → Prop
  | start (pool : Pool) (bag : BagConfig) : Point S home [] (.new pool bag home)
  | carried (before : Point S home running s) (o : Operation) (depth : Nat) :
      Point S home running (o.run S (.upTo S depth) s)
  | changed (before : Point S home running s) (step : s.Inner t) : Point S home running t
  | body (before : Point S home running s) (called : Called S s key dynVars node info index)
      (plain : (S.config.memoize && info.memoized) = false)
      (allowed : S.config.maxCallDepth = 0 ∨ s.depth < S.config.maxCallDepth) :
      Point S home (.body none :: running) (s.enter none)
  | memoized (before : Point S home running s) (called : Called S s key dynVars node info index)
      (remembered : (S.config.memoize && info.memoized) = true)
      (unknown : s.memo.done[key]? = none) (idle : key ∉ s.memo.running)
      (allowed : S.config.maxCallDepth = 0 ∨ s.depth < S.config.maxCallDepth) :
      Point S home (.body (some key) :: running) (s.enter (some key))
  | thunk (before : Point S home running s)
      (held : s.envs.reference? env index = some reference)
      (unresolved : reference.state = .unresolved) :
      Point S home (.thunk env index :: running) (s.mark env index)
  | load (before : Point S home running s) (ready : s.loader = .ready) :
      Point S home (.load :: running) { s with loader := .loading }

/-- Activities are begun at points. Whatever an operation that begins one does at `s`, it
does with another machine too that does the same from the point on where the activity
begins. -/
structure BeginsAtPoints (S : Setting) (home : LoaderState) (running : List Activity)
    (s : Session) (m m' : Machine) : Prop where
  call : ∀ {key dynVars node info index}, Called S s key dynVars node info index →
    let begun := if S.config.memoize && info.memoized then some key else none
    (Point S home (.body begun :: running) (s.enter begun) →
      EvalM.bodyOf S m node.kind index key (s.enter begun) =
        EvalM.bodyOf S m' node.kind index key (s.enter begun)) →
    EvalM.callWith S m key.entity key.prop key.args dynVars s =
      EvalM.callWith S m' key.entity key.prop key.args dynVars s
  resolve : ∀ {env index},
    (∀ thunk, Point S home (.thunk env index :: running) (s.mark env index) →
      EvalM.force S m thunk (s.mark env index) = EvalM.force S m' thunk (s.mark env index)) →
    EvalM.resolveWith S m env index s = EvalM.resolveWith S m' env index s
  load : ∀ {name},
    (Point S home (.load :: running) { s with loader := .loading } →
      EvalM.makeUnit S m name { s with loader := .loading } =
        EvalM.makeUnit S m' name { s with loader := .loading }) →
    EvalM.loadUnit S m name s = EvalM.loadUnit S m' name s

section Points
variable {S : Setting} {home : LoaderState} {running : List Activity} {s t : Session}

theorem mirrors_same_marks (mirrors : s.Mirrors home running) (same : s.SameMarks t) :
    t.Mirrors home running where
  keys key := (same.keys key).trans (mirrors.keys key)
  references env index := (same.references env index).trans (mirrors.references env index)
  depth := same.depth.trans mirrors.depth
  loader := same.loader.trans mirrors.loader

theorem inner_same_marks (step : s.Inner t) : s.SameMarks t := by
  cases step with
  | opened root unit => exact Session.same_marks_open_top s root unit
  | _ => exact ⟨fun _ => Iff.rfl, fun _ _ => Iff.rfl, rfl, rfl⟩

/-- Every operation, however it ends, leaves the marks as they were. -/
theorem operation_same_marks (S : Setting) (depth : Nat) (o : Operation) (s : Session) :
    s.SameMarks (o.run S (.upTo S depth) s) := by
  have taken : Along Session.SameMarks ⟨s, []⟩ ⟨{ s with bag := s.bag.take.2 }, []⟩ :=
    ⟨⟨fun _ => Iff.rfl, fun _ _ => Iff.rfl, rfl, rfl⟩, List.suffix_refl _⟩
  obtain ⟨_, moved, _⟩ :=
    operation_moves (S := S) (machine_moves depth) o ⟨s, []⟩ fun _ => taken
  exact moved

theorem mirrors_new (pool : Pool) (bag : BagConfig) :
    (Session.new pool bag home).Mirrors home [] where
  keys key := ⟨fun mem => (Std.HashSet.not_mem_empty mem).elim, fun mem => nomatch mem⟩
  references env index := by
    show EnvStore.Resolving .new env index ↔ _
    simp [EnvStore.Resolving, EnvStore.state?, EnvStore.reference?_new]
  depth := rfl
  loader := rfl

/-- At every point of a run the marks are those of what is running. -/
theorem point_mirrors (point : Point S home running s) : s.Mirrors home running := by
  induction point with
  | start pool bag => exact mirrors_new pool bag
  | carried _ o depth ih => exact mirrors_same_marks ih (operation_same_marks S depth o _)
  | changed _ step ih => exact mirrors_same_marks ih (inner_same_marks step)
  | body _ called plain allowed ih =>
    exact ⟨fun key => (ih.keys key).trans (by simp), fun e i => (ih.references e i).trans (by simp),
      (congrArg (· + 1) ih.depth).trans (by simp [Activity.isBody]), ih.loader.trans (by simp)⟩
  | memoized _ called remembered unknown idle allowed ih =>
    refine ⟨fun other => ?_, fun e i => (ih.references e i).trans (by simp),
      (congrArg (· + 1) ih.depth).trans (by simp [Activity.isBody]), ih.loader.trans (by simp)⟩
    show other ∈ Std.HashSet.insert _ _ ↔ _
    rw [Std.HashSet.mem_insert, ih.keys, List.mem_cons, Activity.body.injEq, Option.some.injEq,
      beq_iff_eq]
    exact or_congr_left eq_comm
  | @thunk _ _ env index _ _ held unresolved ih =>
    refine ⟨fun key => (ih.keys key).trans (by simp), fun e i => ?_,
      ih.depth.trans (by simp [Activity.isBody]), ih.loader.trans (by simp)⟩
    rw [Session.mark, EnvStore.resolving_setState held, ih.references]
    by_cases here : e = env ∧ i = index
    · simp [here]
    · rw [if_neg here, List.mem_cons, Activity.thunk.injEq, or_iff_right here]
  | load _ ready ih =>
    exact ⟨fun key => (ih.keys key).trans (by simp), fun e i => (ih.references e i).trans (by simp),
      ih.depth.trans (by simp [Activity.isBody]), by simp⟩

open EvalM in
/-- A call whose body is run begins it at a point. -/
theorem answer_congr {m m' : Machine} {node : Node} (point : Point S home running s)
    (called : Called S s key dynVars node info index)
    (same : let begun := if S.config.memoize && info.memoized then some key else none
      Point S home (.body begun :: running) (s.enter begun) →
        bodyOf S m node.kind index key (s.enter begun) =
          bodyOf S m' node.kind index key (s.enter begun)) :
    answer S m node.kind info index key s = answer S m' node.kind info index key s := by
  unfold answer
  cases remembered : S.config.memoize && info.memoized with
  | false =>
    rw [remembered] at same
    exact compute_congr fun allowed => same (.body point called remembered allowed)
  | true =>
    rw [remembered] at same
    rw [if_pos rfl, if_pos rfl]
    unfold memoized
    cases unknown : s.memo.done[key]? with
    | some value => rfl
    | none =>
      dsimp only
      split
      · rfl
      · next idle =>
        have computed : compute S m node.kind info index key { s with memo := s.memo.start key } =
            compute S m' node.kind info index key { s with memo := s.memo.start key } :=
          compute_congr fun allowed =>
            same (.memoized point called remembered unknown idle allowed)
        unfold SessionM.bracket
        rw [computed]

open EvalM SessionM in
/-- Bodies, thunks and loads are run at points and nowhere else. -/
theorem point_begins (point : Point S home running s) (m m' : Machine) :
    BeginsAtPoints S home running s m m' where
  call called := by
    intro begun same
    rw [called_eq called, called_eq called]
    unfold mapError
    rw [answer_congr point called same]
  resolve {env index} same := by
    unfold resolveWith
    rw [run_bind, run_bind, run_read]
    dsimp only
    cases held : s.envs.reference? env index with
    | none => rfl
    | some reference =>
      dsimp only
      cases state : reference.state with
      | resolved value => rfl
      | resolving => rfl
      | unresolved =>
        have forced := same reference.thunk (.thunk point held state)
        unfold Session.mark at forced
        unfold bracket
        dsimp only
        rw [forced]
  load {name} same := by
    unfold loadUnit
    rw [run_bind, run_bind, run_read]
    dsimp only
    generalize (do
      let u ← s.unitByName name
      let _ ← s.unitEnv u
      return u : Option UnitId) = found
    cases found with
    | some u => rfl
    | none =>
      dsimp only
      rw [run_bind, run_bind, run_read]
      dsimp only
      cases ready : s.loader with
      | ready =>
        unfold bracket
        dsimp only
        rw [same (.load point ready)]
      | _ => rfl

end Points

/-- A language of one kind of nodes. Its first property tells whether a symbol is
unbound in an environment, and is remembered; its second one asks the first and gives
another environment. -/
def Language.probing (env : EnvId) (symbol : Symbol) (target : EnvId)
    (envSpecs : Array KindEnvSpec) : Language where
  kinds := #[⟨⟨0⟩, "Leaf", none, false, [], false, false, [], [⟨0⟩], .caller⟩]
  properties := #[
    ⟨⟨0⟩, "unbound", ⟨0⟩, [], .bool, [], true, true, [0], .caller⟩,
    ⟨⟨1⟩, "target", ⟨0⟩, [], .env, [], false, true, [1], .caller⟩]
  implementations := #[
    ⟨⟨0⟩, ⟨0⟩, .expr (.isNull
      (.envGet (.lit (.env (.plain env))) (.lit (.symbol symbol)) true .empty)), .caller⟩,
    ⟨⟨1⟩, ⟨0⟩, .expr (.letIn 0 (.call .self ⟨0⟩ []) (.lit (.env (.plain target)))), .caller⟩]
  dynVars := #[]
  envSpecs := envSpecs
  metadata := none
  table := #[#[some (.runs 0), some (.runs 1)]]
  warnings := []

end Trellis
