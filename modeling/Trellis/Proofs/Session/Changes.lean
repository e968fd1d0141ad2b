import Mathlib.Logic.Relation
import Trellis.Proofs.Session.Evaluation
import Trellis.Session.Host

/-! The changes that everything done to a session is made of. Each operation,
however deeply calls, lookups, populations and loads are nested in it and however
it ends, leaves the session where a sequence of these changes leads. What every
change keeps is therefore kept by every run. -/
namespace Trellis

/-- Changes that touch neither the tree nor any environment. -/
inductive Aside : Session → Session → Prop
  | interned (text : String) : Aside s { s with pool := (s.pool.intern text).2 }
  | equation (e : Equation Entity) : Aside s { s with pool := (s.pool.addEquation e).2 }
  | reported (code : ErrorCode) (message : String) (location : Location) :
      Aside s (s.report code message location)
  | taken : Aside s { s with bag := s.bag.take.2 }
  | hit : Aside s { s with memo := s.memo.hit }
  | started (key : MemoKey) : Aside s { s with memo := s.memo.start key }
  | finished (key : MemoKey) (value : Value) : Aside s { s with memo := s.memo.finish key value }
  | abandoned (key : MemoKey) : Aside s { s with memo := s.memo.abandon key }
  | deeper : Aside s { s with depth := s.depth + 1 }
  | shallower : Aside s { s with depth := s.depth - 1 }
  | counted (n : Int) : Aside s { s with counter := s.counter + n }
  | loading (state : LoaderState) : Aside s { s with loader := state }
  | registered (name : Symbol) (plan : UnitPlan) : Aside s (s.registerPlan name plan)

theorem aside_frame (step : Aside s t) :
    t.tree = s.tree ∧ t.envs = s.envs ∧ t.unitEnvs = s.unitEnvs := by
  cases step <;> exact ⟨rfl, rfl, rfl⟩

/-- Changes of the environment store. -/
inductive EnvChange : EnvStore → EnvStore → Prop
  | created (parent : Option EnvId) (owner : Option NodeId) :
      EnvChange envs (envs.create parent owner).2
  | bound (env : EnvId) (symbol : Symbol) (entity : Entity) (metadata : Metadata) :
      EnvChange envs (envs.addBinding env symbol entity metadata).2
  | referred (env : EnvId) (thunk : EnvThunk) (crossing : Crossing) :
      EnvChange envs (envs.addReference env thunk crossing).2
  | marked (env : EnvId) (index : Nat) (state : RefState) :
      EnvChange envs (envs.setState env index state)

/-- The environments that the actions of a node give it when they start from
`ambient`. -/
def envsFrom (S : Setting) (m : Machine) (n : NodeId) (kind : KindId) (ambient : EnvId) :
    PopulateM NodeEnvs :=
  match S.language.envSpec kind with
  | some spec => PopulateM.ofEval (runSpec S m n ambient spec.spec)
  | none => pure ⟨ambient, ambient⟩

/-- The changes of a session, with the populations that are recorded. -/
inductive Change (S : Setting) : History → History → Prop
  | aside (step : Aside s t) : Change S ⟨s, populated⟩ ⟨t, populated⟩
  | envs (step : EnvChange s.envs envs) : Change S ⟨s, populated⟩ ⟨{ s with envs }, populated⟩
  | assigned (v : VarId) (x : Entity) :
      Change S ⟨s, populated⟩ ⟨{ s with tree := s.tree.setValue v x }, populated⟩
  | unit (name : String) : Change S ⟨s, populated⟩ ⟨(s.newUnit name).2, populated⟩
  | node (made : s.tree.addNode new = .ok (n, tree)) :
      Change S ⟨s, populated⟩ ⟨{ s with tree }, populated⟩
  | rooted (given : s.setRoot u root = .ok t) : Change S ⟨s, populated⟩ ⟨t, populated⟩
  /-- A population is begun that nothing around it was populated before. -/
  | opened (held : s.tree.node? root = some node) (fresh : node.envs = none)
      (outermost : s.tree.aroundEnv node = none) :
      Change S ⟨s, populated⟩ ⟨(s.openTop root node.unit).2, populated⟩
  /-- A node is given the environments that its actions led to. -/
  | populated (held : before.tree.node n = .ok node)
      (computed : envsFrom S (.upTo S depth) n node.kind ambient before = (.ok envs, s))
      (given : s.tree.setEnvs n envs = .ok tree) :
      Change S ⟨s, populated⟩ ⟨{ s with tree }, (n, ambient) :: populated⟩

/-- Changes one after the other. -/
abbrev Path (S : Setting) : History → History → Prop := Relation.ReflTransGen (Change S)

/-- Moves that include everything population does by itself. -/
class Populates (R : History → History → Prop) : Prop extends Evaluates R where
  created : ∀ s populated parent owner,
    R ⟨s, populated⟩ ⟨{ s with envs := (s.envs.create parent owner).2 }, populated⟩
  bound : ∀ s populated env symbol entity metadata,
    R ⟨s, populated⟩
      ⟨{ s with envs := (s.envs.addBinding env symbol entity metadata).2 }, populated⟩
  referred : ∀ s populated env thunk crossing,
    R ⟨s, populated⟩ ⟨{ s with envs := (s.envs.addReference env thunk crossing).2 }, populated⟩
  opened : ∀ s populated root node, s.tree.node? root = some node → node.envs = none →
    s.tree.aroundEnv node = none → R ⟨s, populated⟩ ⟨(s.openTop root node.unit).2, populated⟩
  /-- What was recorded stays recorded. -/
  recorded : ∀ {h k}, R h k → h.populated <:+ k.populated

/-- Moves that include giving a node the environments that its actions led to, as a
machine carries them out. -/
class Fills (S : Setting) (m : Machine) (R : History → History → Prop) : Prop where
  filled : ∀ before n node ambient envs s tree populated,
    before.tree.node n = .ok node →
    envsFrom S m n node.kind ambient before = (.ok envs, s) →
    s.tree.setEnvs n envs = .ok tree → R ⟨s, populated⟩ ⟨{ s with tree }, (n, ambient) :: populated⟩

theorem path_records (path : Path S h k) : h.populated <:+ k.populated := by
  induction path with
  | refl => exact List.suffix_refl _
  | tail _ step ih =>
    cases step with
    | populated held computed given => exact ih.trans (List.suffix_cons _ _)
    | _ => exact ih

instance : Track (Path S) where
  refl _ := .refl
  trans first rest := first.trans rest

instance : Populates (Path S) where
  equation _ _ e := .single (.aside (.equation e))
  solved S _ e dynVars machine := EvalM.solve_moves machine (fun _ _ v x => .single (.assigned v x))
    (fun _ _ code message location => .single (.aside (.reported code message location))) S e
    dynVars
  reported _ _ code message location := .single (.aside (.reported code message location))
  created _ _ parent owner := .single (.envs (.created parent owner))
  bound _ _ env symbol entity metadata := .single (.envs (.bound env symbol entity metadata))
  referred _ _ env thunk crossing := .single (.envs (.referred env thunk crossing))
  opened _ _ _ _ held fresh outermost := .single (.opened held fresh outermost)
  recorded := path_records

instance : Fills S (.upTo S depth) (Path S) where
  filled _ _ _ _ _ _ _ _ held computed given := .single (.populated held computed given)

/-- A machine that moves along by such changes. -/
abbrev Setting.Steady (S : Setting) (depth : Nat) : Prop := (Machine.upTo S depth).Moves (Path S)

section Population
variable {S : Setting} {m : Machine} {R : History → History → Prop}

open FrameM in
section
variable [Populates R] (machine : m.Moves R)
include machine

theorem eval_env_moves (e : Expr) : Moves R (evalEnv S m e) :=
  moves_operand (eval_moves S machine e) moves_expect_env fun _ => moves_pure _

theorem initial_env_moves (ambient : EnvId) (actions : List EnvAction) :
    Moves R (initialEnv S m ambient actions) := by
  induction actions generalizing ambient with
  | nil => exact moves_pure _
  | cons action rest ih =>
    cases action with
    | setInitialEnv e => exact moves_bind (eval_env_moves machine e) fun env => ih env
    | _ => exact ih ambient

theorem add_to_env_moves (n : NodeId) (ambient : EnvId) (key value : Expr) (metadata : Metadata)
    (dest : Option Expr) :
    Moves R (addToEnv S m n ambient key value metadata dest) := by
  have bind (target : EnvId) (symbol : Symbol) (e : Entity) :
      Moves R (session (EvalM.changeEnvs (·.addBinding target symbol e metadata))) :=
    moves_session (SessionM.moves_of_primitive fun s populated =>
      Populates.bound s populated target symbol e metadata)
  have noKey : Moves R (session (modify (Session.reportNullKey · n))) :=
    moves_session (SessionM.moves_of_primitive fun _ _ => Evaluates.reported _ _ _ _ _)
  unfold addToEnv
  refine moves_bind (eval_moves S machine key) fun k => ?_
  cases k with
  | null => exact noKey
  | symbol symbol =>
    dsimp only
    split
    · exact noKey
    · refine moves_bind (eval_moves S machine value) fun v => ?_
      cases v with
      | null => exact moves_pure _
      | entity e =>
        cases dest with
        | none => exact moves_bind (moves_pure _) fun target => bind target symbol e
        | some dest =>
          refine moves_bind (eval_moves S machine dest) fun d => ?_
          cases d with
          | env target => exact moves_bind (moves_pure _) fun target => bind target symbol e
          | _ => exact moves_bind (moves_mismatch _ _) fun target => bind target symbol e
      | _ => exact moves_mismatch _ _
  | _ => exact moves_mismatch _ _

theorem run_action_moves (n : NodeId) (ambient : EnvId) (action : EnvAction) :
    Moves R (runAction S m n ambient action) := by
  have refer (source : EnvSource) (crossing : Crossing) :
      Moves R (addReference ambient source crossing) :=
    moves_bind (moves_session (SessionM.moves_of_primitive fun s populated =>
      Populates.referred s populated ambient _ crossing)) fun _ => moves_pure _
  have targets (v : Value) : Moves R (referenceTargets v) := by
    cases v <;> first | exact moves_pure _ | exact moves_mismatch _ _
  cases action with
  | setInitialEnv e => exact moves_pure _
  | addToEnv key value metadata dest =>
    exact moves_bind (add_to_env_moves machine n ambient key value metadata dest) fun _ =>
      moves_pure _
  | addEnv =>
    exact moves_session (SessionM.moves_of_primitive fun _ _ => Populates.created _ _ _ _)
  | reference nodes through metadata rebind =>
    refine moves_operand (eval_moves S machine nodes) targets fun entities => ?_
    cases rebind with
    | none =>
      exact moves_bind (moves_pure _) fun _ =>
        moves_bind (moves_for (fun e => refer _ _) entities) fun _ => moves_pure _
    | some pair =>
      refine moves_bind (eval_env_moves machine pair.1) fun _ => ?_
      refine moves_bind (eval_env_moves machine pair.2) fun _ => ?_
      exact moves_bind (moves_pure _) fun _ =>
        moves_bind (moves_for (fun e => refer _ _) entities) fun _ => moves_pure _
  | referenceUnit name => exact moves_bind (refer _ _) fun _ => moves_pure _

theorem envs_from_moves (n : NodeId) (kind : KindId) (ambient : EnvId) :
    SessionM.Moves R (envsFrom S m n kind ambient) := by
  unfold envsFrom
  split
  · next spec found =>
    refine SessionM.moves_map_error _ (moves_run_in _ ?_)
    refine moves_bind (initial_env_moves machine ambient _) fun own => ?_
    exact moves_bind (moves_fold (fun acc action => run_action_moves machine n acc action) _ _)
      fun _ => moves_pure _
  · exact SessionM.moves_pure _

end

/-- What populating a node does, step by step. -/
theorem populate_node_eq (S : Setting) (m : Machine) (n : NodeId) (ambient : EnvId) (s : Session) :
    populateNode S m n ambient s = match s.tree.node n with
      | .error e => (.error (.failure (.tree e)), s)
      | .ok node => match envsFrom S m n node.kind ambient s with
        | (.error halt, t) => (.error halt, t)
        | (.ok envs, t) => match t.tree.setEnvs n envs with
          | .error e => (.error (.failure (.tree e)), t)
          | .ok tree => (s.tree.childrenOf n).forM
              (fun c => populateNode S m c.1 envs.inner) { t with tree } := by
  have given (envs : NodeEnvs) (t : Session) :
      (do
        let tree ← PopulateM.ofTree (← SessionM.read fun s => s.tree.setEnvs n envs)
        modify ({ · with tree })
        (s.tree.childrenOf n).forM fun c => populateNode S m c.1 envs.inner : PopulateM Unit) t =
      match t.tree.setEnvs n envs with
      | .error e => (.error (.failure (.tree e)), t)
      | .ok tree => (s.tree.childrenOf n).forM
          (fun c => populateNode S m c.1 envs.inner) { t with tree } := by
    simp only [SessionM.run_bind, SessionM.run_read, SessionM.run_of_tree]
    cases t.tree.setEnvs n envs <;> rfl
  rw [populateNode]
  simp only [SessionM.run_bind, SessionM.run_read, SessionM.run_of_tree]
  cases s.tree.node n with
  | error e => rfl
  | ok node =>
    unfold envsFrom
    dsimp only [Except.mapError]
    cases S.language.envSpec node.kind with
    | none => exact given ⟨ambient, ambient⟩ s
    | some spec =>
      dsimp only
      rw [SessionM.run_bind]
      rcases PopulateM.ofEval (runSpec S m n ambient spec.spec) s with ⟨halt | envs, t⟩
      · rfl
      · exact given envs t

/-- A population ends where the environments of the node cannot be computed. -/
theorem populate_node_of_refused {S : Setting} {m : Machine} {s t : Session} {node : Node}
    (held : s.tree.node n = .ok node)
    (refused : envsFrom S m n node.kind ambient s = (.error halt, t)) :
    populateNode S m n ambient s = (.error halt, t) := by
  rw [populate_node_eq, held]
  dsimp only
  rw [refused]

/-- A population ends where the first child cannot be populated. -/
theorem populate_node_of_failed {S : Setting} {m : Machine} {s t u : Session} {node : Node}
    {c : { c : NodeId // c.raw < n.raw }} (held : s.tree.node n = .ok node)
    (gave : envsFrom S m n node.kind ambient s = (.ok envs, t))
    (set_ : t.tree.setEnvs n envs = .ok tree) (children : s.tree.childrenOf n = c :: rest)
    (failed : populateNode S m c.1 envs.inner { t with tree } = (.error halt, u)) :
    populateNode S m n ambient s = (.error halt, u) := by
  rw [populate_node_eq, held]
  dsimp only
  rw [gave]
  dsimp only
  rw [set_, children]
  show (populateNode S m c.1 envs.inner >>= fun _ => rest.forM fun c => populateNode S m c.1
    envs.inner) { t with tree } = _
  rw [SessionM.run_bind, failed]

theorem populate_with_eq (S : Setting) (m : Machine) (root : NodeId) (s : Session) :
    populateWith S m root s = match s.tree.firstPopulated root with
      | .error e => (.error (.failure (.tree e)), s)
      | .ok (some n) => (.error (.failure (.alreadyPopulated n)), s.report .K2003
          ("environments of " ++ n.text ++ " are already populated") (s.nodeLocation n))
      | .ok none => match s.tree.node root with
        | .error e => (.error (.failure (.tree e)), s)
        | .ok node => match s.tree.aroundEnv node with
          | some env => populateNode S m root env s
          | none =>
            populateNode S m root (s.openTop root node.unit).1 (s.openTop root node.unit).2 := by
  unfold populateWith
  simp only [SessionM.run_bind, SessionM.run_read, SessionM.run_of_tree]
  rcases s.tree.firstPopulated root with e | (_ | n)
  · rfl
  · dsimp only [Except.mapError]
    simp only [SessionM.run_bind, SessionM.run_read, SessionM.run_of_tree]
    cases s.tree.node root with
    | error e => rfl
    | ok node =>
      dsimp only [Except.mapError]
      cases s.tree.aroundEnv node <;> rfl
  · rfl

/-- Where no node is populated, the first one is not. -/
theorem fresh_of_first_populated {t : Tree} (none_ : t.firstPopulated root = .ok none) :
    ∃ node, t.node? root = some node ∧ node.envs = none := by
  unfold Tree.firstPopulated Tree.node at none_
  cases held : t.node? root with
  | none => rw [held] at none_; cases none_
  | some node =>
    refine ⟨node, rfl, ?_⟩
    have below : t.firstBelow Node.isPopulated root = none := by
      rw [held] at none_
      exact Except.ok.inj none_
    rw [Tree.firstBelow, held] at below
    split at below
    · cases below
    · next fresh => simpa [Node.isPopulated] using fresh

open SessionM

variable [Populates R] [Fills S m R] (machine : m.Moves R)
include machine

/-- Populating a node is recorded with the environment it started from. -/
theorem populate_node_path (n : NodeId) (ambient : EnvId) (h : History) :
    ∃ populated, R h ⟨(populateNode S m n ambient h.now).2, populated⟩ ∧
      ((populateNode S m n ambient h.now).1 = .ok () →
        (n, ambient) ∈ populated) := by
  rw [populate_node_eq]
  cases held : h.now.tree.node n with
  | error e => exact ⟨h.populated, Track.refl h, fun ok => by cases ok⟩
  | ok node =>
    obtain ⟨populated, there⟩ := envs_from_moves machine n node.kind ambient h
    dsimp only
    rcases ran : envsFrom S m n node.kind ambient h.now with ⟨halt | envs, t⟩
    · rw [ran] at there
      exact ⟨populated, there, fun ok => by cases ok⟩
    · rw [ran] at there
      dsimp only
      cases given : t.tree.setEnvs n envs with
      | error e => exact ⟨populated, there, fun ok => by cases ok⟩
      | ok tree =>
        have children : Moves R ((h.now.tree.childrenOf n).forM
            fun c => populateNode S m c.1 envs.inner) :=
          moves_for fun c _ k => by
            obtain ⟨populated, path, -⟩ := populate_node_path c.1 envs.inner k
            exact ⟨populated, path⟩
        obtain ⟨later, further⟩ := children ⟨{ t with tree }, (n, ambient) :: populated⟩
        have filled := Fills.filled (R := R) _ _ _ _ _ _ _ populated held ran given
        refine ⟨later, Track.trans there (Track.trans filled further), fun _ => ?_⟩
        exact (Populates.recorded further).mem List.mem_cons_self
termination_by n.raw
decreasing_by exact c.2

/-- A population that succeeds started with its root not populated, either from the
environment around the root or from one that it opened. -/
theorem populate_with_path (root : NodeId) (h : History) :
    ∃ populated, R h ⟨(populateWith S m root h.now).2, populated⟩ ∧
      ((populateWith S m root h.now).1 = .ok () →
        ∃ node, h.now.tree.node? root = some node ∧ node.envs = none ∧
          ((∃ e, h.now.tree.aroundEnv node = some e) ∨
            h.now.tree.aroundEnv node = none ∧
            (root, (h.now.openTop root node.unit).1) ∈ populated ∧
            R ⟨(h.now.openTop root node.unit).2, h.populated⟩
              ⟨(populateWith S m root h.now).2, populated⟩)) := by
  rw [populate_with_eq]
  rcases first : h.now.tree.firstPopulated root with e | (_ | n)
  · exact ⟨h.populated, Track.refl h, fun ok => by cases ok⟩
  · obtain ⟨node, held, fresh⟩ := fresh_of_first_populated first
    have found : h.now.tree.node root = .ok node := by rw [Tree.node, held]
    dsimp only
    rw [found]
    dsimp only
    cases around : h.now.tree.aroundEnv node with
    | some env =>
      obtain ⟨populated, path, -⟩ := populate_node_path (S := S) machine root env h
      exact ⟨populated, path, fun _ => ⟨node, held, fresh, .inl ⟨env, around⟩⟩⟩
    | none =>
      obtain ⟨populated, path, recorded⟩ := populate_node_path (S := S) machine root
        (h.now.openTop root node.unit).1 ⟨(h.now.openTop root node.unit).2, h.populated⟩
      have opened := Populates.opened (R := R) _ h.populated _ _ held fresh around
      exact ⟨populated, Track.trans opened path,
        fun ok => ⟨node, held, fresh, .inr ⟨around, recorded ok, path⟩⟩⟩
  · exact ⟨h.populated, Evaluates.reported _ _ _ _ _, fun ok => by cases ok⟩

theorem populate_with_moves (root : NodeId) :
    Moves R (populateWith S m root) := by
  intro h
  obtain ⟨populated, path, -⟩ := populate_with_path (S := S) machine root h
  exact ⟨populated, path⟩

end Population
end Trellis
