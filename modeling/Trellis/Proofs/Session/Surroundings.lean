import Trellis.Proofs.Forest
import Trellis.Proofs.Session.Repeats

/-! Which environments the nodes below a root have once it was populated. The visits of
the nodes follow each other, parents before children. A visit starts from one environment,
runs the actions of the node, and gives the node its environments; those that the actions
open are inside each other, and each action has the last one before it around itself. What
was opened and bound then is still so when the population ends, whatever happened in
between. -/
namespace Trellis

open FrameM

/-- To open an environment. -/
def EnvAction.opens : EnvAction → Bool
  | addEnv => true
  | _ => false

/-- To replace the environment that the actions start from. -/
def EnvAction.replaces : EnvAction → Bool
  | setInitialEnv _ => true
  | _ => false

namespace EnvStore

/-- The environment `e` was opened for the node `n` inside `outer`. The empty environment is
no parent. -/
def Opened (s : EnvStore) (n : NodeId) (outer e : EnvId) : Prop :=
  ∃ scope, s.scope? e = some scope ∧ scope.owner = some n ∧
    scope.parent = (some outer).filter (· ≠ .empty)

/-- So many steps up from an environment. -/
def climb (s : EnvStore) (e : EnvId) : Nat → Option EnvId
  | 0 => some e
  | k + 1 => (s.climb e k).bind s.parent

theorem opened_create (s : EnvStore) (outer : EnvId) (n : NodeId) :
    (s.create (some outer) (some n)).2.Opened n outer (s.create (some outer) (some n)).1 :=
  ⟨_, (scope?_create s _ _ _).trans (if_pos rfl), rfl, rfl⟩

theorem opened_kept {s t : EnvStore} (kept : Grown Scope.Kept s.scopes t.scopes)
    (opened : s.Opened n outer e) : t.Opened n outer e := by
  obtain ⟨scope, held, owner, parent⟩ := opened
  obtain ⟨later, still, same⟩ := kept e.raw scope held
  exact ⟨later, still, same.owner.trans owner, same.parent.trans parent⟩

theorem Opened.parent {s : EnvStore} (opened : s.Opened n outer e) :
    s.parent e = (some outer).filter (· ≠ .empty) := by
  obtain ⟨scope, held, -, parent⟩ := opened
  rw [EnvStore.parent, held]
  exact parent

/-- From the innermost of environments that were opened inside each other as many steps lead
to where they start, or to nothing where that is the empty environment. -/
theorem climb_opened {s : EnvStore} {opened : List EnvId}
    (chain : (own :: opened).IsChain (s.Opened n)) (real : ∀ e ∈ opened, e ≠ .empty)
    (last : (own :: opened)[opened.length]? = some innermost) :
    s.climb innermost opened.length =
      if own = .empty ∧ opened ≠ [] then none else some own := by
  induction opened generalizing own with
  | nil => cases last; simp [climb]
  | cons e rest ih =>
    obtain ⟨first, others⟩ := List.isChain_cons_cons.1 chain
    have there := ih others (fun x mem => real x (List.mem_cons_of_mem _ mem)) last
    rw [if_neg fun both => real e List.mem_cons_self both.1] at there
    rw [List.length_cons, climb, there, Option.bind_some, first.parent]
    by_cases bottom : own = .empty <;> simp [bottom, Option.filter]

end EnvStore

/-! ## The environment that the actions start from -/

theorem FrameM.bind_ok {act : FrameM α} {next : α → FrameM β}
    (ran : (act >>= next) f s = ((.ok y, h), u)) :
    ∃ x g t, act f s = ((.ok x, g), t) ∧ next x g t = ((.ok y, h), u) := by
  rw [run_bind] at ran
  rcases first : act f s with ⟨⟨halt | x, g⟩, t⟩ <;> rw [first] at ran
  · cases ran
  · exact ⟨x, g, t, rfl, ran⟩

section Initial
variable {S : Setting} {m : Machine}

theorem initial_env_kept {actions : List EnvAction} (none_ : ∀ a ∈ actions, a.replaces = false)
    (ambient : EnvId) : initialEnv S m ambient actions = pure ambient := by
  induction actions with
  | nil => rfl
  | cons action rest ih =>
    cases action with
    | setInitialEnv e => cases none_ _ List.mem_cons_self
    | _ => exact ih fun a mem => none_ a (List.mem_cons_of_mem _ mem)

theorem initial_env_append (ambient : EnvId) (first rest : List EnvAction) :
    initialEnv S m ambient (first ++ rest) =
      initialEnv S m ambient first >>= fun a => initialEnv S m a rest := by
  induction first generalizing ambient with
  | nil => exact (pure_bind _ _).symm
  | cons action actions ih =>
    cases action with
    | setInitialEnv e =>
      rw [List.cons_append, initialEnv, initialEnv, bind_assoc]
      exact congrArg _ (funext ih)
    | _ => exact ih ambient

/-- The last action that replaces the environment decides. -/
theorem initial_env_replaced {post : List EnvAction} (last : ∀ a ∈ post, a.replaces = false)
    (ambient : EnvId) (pre : List EnvAction) (e : Expr) :
    initialEnv S m ambient (pre ++ .setInitialEnv e :: post) =
      initialEnv S m ambient pre >>= fun _ => evalEnv S m e := by
  rw [initial_env_append]
  refine congrArg _ (funext fun a => ?_)
  show (evalEnv S m e >>= fun a => initialEnv S m a post) = _
  simp only [initial_env_kept last, bind_pure]

end Initial

/-! ## The actions, one after the other -/

/-- What an action to bind does that is run in the frame `f` at `s`, with `a` around it.
Where there is a key and a value, it binds the value in `a`, and there it still is at `t`. -/
def EnvAction.BindsIn (S : Setting) (m : Machine) (n : NodeId) (a : EnvId) (key value : Expr)
    (metadata : Metadata) (f : Frame) (s t : Session) : Prop :=
  ∀ symbol e g u g' v, eval S m key f s = ((.ok (.symbol symbol), g), u) →
    symbol.isEmpty = false → eval S m value g u = ((.ok (.entity e), g'), v) →
    runAction S m n a (.addToEnv key value metadata none) f s =
      ((.ok a, g'), { v with envs := (v.envs.addBinding a symbol e metadata).2 }) ∧
    ⟨e, metadata⟩ ∈ t.envs.newestFirst a symbol

section Actions
variable {S : Setting} {m : Machine} {n : NodeId}

/-- Only to open an environment changes what is around the actions after it. -/
theorem run_action_around {action : EnvAction} (inside : action.opens = false)
    (ran : runAction S m n a action f s = ((.ok b, g), t)) : b = a := by
  cases action with
  | setInitialEnv e => cases ran; rfl
  | addToEnv key value metadata dest =>
    obtain ⟨_, _, _, -, last⟩ := bind_ok ran
    cases last
    rfl
  | addEnv => cases inside
  | reference nodes through metadata rebind =>
    have joined {targets : List Entity} {crossing : Crossing} {f g : Frame} {s t : Session}
        (ran : (do
          targets.forM fun e => addReference a (.property e through) crossing
          pure a : FrameM EnvId) f s = ((.ok b, g), t)) : b = a := by
      obtain ⟨_, _, _, -, last⟩ := bind_ok ran
      cases last
      rfl
    obtain ⟨v, _, _, -, ran⟩ := bind_ok ran
    obtain ⟨targets, _, _, -, ran⟩ := bind_ok ran
    cases rebind with
    | none => exact joined ran
    | some pair =>
      obtain ⟨old, _, _, -, ran⟩ := bind_ok ran
      obtain ⟨new, _, _, -, ran⟩ := bind_ok ran
      exact joined ran
  | referenceUnit name =>
    obtain ⟨_, _, _, -, last⟩ := bind_ok ran
    cases last
    rfl

/-- An action to bind that goes well has bound its value, if there is one. -/
theorem run_action_binds (ran : runAction S m n a (.addToEnv key value metadata none) f s =
      ((.ok b, g'), t)) :
    EnvAction.BindsIn S m n a key value metadata f s t := by
  intro symbol e g u h v keyed named valued
  have eq : runAction S m n a (.addToEnv key value metadata none) f s =
      match v.envs.addBinding a symbol e metadata with
      | (.ok (), envs) => ((.ok a, h), { v with envs })
      | (.error why, envs) => ((.error (.failure (.of (.env why))), h), { v with envs }) := by
    unfold runAction addToEnv
    simp only [run_bind, keyed, named, valued, Bool.false_eq_true, if_false, run_pure, run_session,
      EvalM.changeEnvs]
    rcases v.envs.addBinding a symbol e metadata with ⟨why | ⟨⟩, envs⟩ <;> rfl
  rw [eq] at ran
  rcases added : v.envs.addBinding a symbol e metadata with ⟨why | ⟨⟩, envs⟩ <;>
    rw [added] at ran eq
  · cases ran
  · obtain rfl : { v with envs } = t := congrArg Prod.snd ran
    have newest := EnvStore.newestFirst_addBinding (congrArg Prod.fst added)
    rw [added] at newest
    exact ⟨eq, newest ▸ List.mem_cons_self⟩

theorem run_action_path (machine : m.Moves (Path S)) {h : History} {action : EnvAction}
    (ran : runAction S m n a action f h.now = ((r, g), t)) :
    ∃ populated, Path S h ⟨t, populated⟩ := by
  obtain ⟨populated, path⟩ := run_action_moves machine n a action f h
  rw [ran] at path
  exact ⟨populated, path⟩

/-- Each action of a list is run with the environment around it that was opened last, or with
the first one if none was opened yet. -/
theorem actions_run (machine : m.Moves (Path S)) {h : History} {actions : List EnvAction}
    (ran : actions.foldlM (runAction S m n) a f h.now = ((.ok b, g), t)) :
    ∃ opened populated, Path S h ⟨t, populated⟩ ∧
      opened.length = actions.countP (·.opens) ∧ (∀ e ∈ opened, h.now.envs.size ≤ e.raw) ∧
      (a :: opened).IsChain (t.envs.Opened n) ∧ (a :: opened).getLast? = some b ∧
      ∀ pre action post, actions = pre ++ action :: post → ∃ c f' u d g' v between,
        (a :: opened)[pre.countP (·.opens)]? = some c ∧
        pre.foldlM (runAction S m n) a f h.now = ((.ok c, f'), u) ∧
        runAction S m n c action f' u = ((.ok d, g'), v) ∧
        Path S ⟨v, between⟩ ⟨t, populated⟩ := by
  induction actions generalizing a f h with
  | nil =>
    cases ran
    exact ⟨[], h.populated, .refl, rfl, fun e mem => (List.not_mem_nil mem).elim,
      List.isChain_singleton _, rfl, fun pre action post eq => (by simp at eq)⟩
  | cons first rest ih =>
    rw [List.foldlM_cons] at ran
    obtain ⟨x, f₁, u, begun, ran⟩ := bind_ok ran
    obtain ⟨p, toFirst⟩ := run_action_path machine begun
    obtain ⟨opened, q, path, count, new, chain, last, each⟩ := ih (h := ⟨u, p⟩) ran
    have older : h.now.envs.size ≤ u.envs.size := grown_size (path_scopes toFirst)
    -- After the first action the others are numbered as they are without it.
    have each' {total : List EnvId} (shifted : ∀ pre : List EnvAction,
        (a :: total)[(first :: pre).countP (·.opens)]? = (x :: opened)[pre.countP (·.opens)]?)
        (pre : List EnvAction) (action : EnvAction) (post : List EnvAction)
        (eq : first :: rest = pre ++ action :: post) : ∃ c f' w d g' v between,
          (a :: total)[pre.countP (·.opens)]? = some c ∧
          pre.foldlM (runAction S m n) a f h.now = ((.ok c, f'), w) ∧
          runAction S m n c action f' w = ((.ok d, g'), v) ∧
          Path S ⟨v, between⟩ ⟨t, q⟩ := by
      cases pre with
      | nil =>
        cases eq
        exact ⟨a, f, h.now, x, f₁, u, p, rfl, rfl, begun, path⟩
      | cons same pre =>
        obtain ⟨rfl, tail⟩ := List.cons.inj eq
        obtain ⟨c, f', w, d, g', v, between, entry, before, acted, onward⟩ :=
          each pre action post tail
        refine ⟨c, f', w, d, g', v, between, (shifted pre).trans entry, ?_, acted, onward⟩
        rw [List.foldlM_cons, run_bind, begun]
        exact before
    cases opens : first.opens with
    | false =>
      obtain rfl := run_action_around opens begun
      exact ⟨opened, q, toFirst.trans path, by simp [opens, count],
        fun e mem => Nat.le_trans older (new e mem), chain, last,
        each' fun pre => by simp [opens]⟩
    | true =>
      cases first with
      | addEnv =>
        cases begun
        have made : t.envs.Opened n a ⟨h.now.envs.size⟩ :=
          EnvStore.opened_kept (path_scopes path) (EnvStore.opened_create h.now.envs a n)
        refine ⟨⟨h.now.envs.size⟩ :: opened, q, toFirst.trans path, by simp [opens, count],
          fun e mem => ?_, List.isChain_cons_cons.2 ⟨made, chain⟩, ?_,
          each' fun pre => by rw [List.countP_cons_of_pos opens]; rfl⟩
        · rcases List.mem_cons.1 mem with rfl | inside
          · exact Nat.le_refl _
          · exact Nat.le_trans older (new e inside)
        · rw [List.getLast?_cons_cons]
          exact last
      | _ => cases opens

end Actions

/-! ## One node -/

/-- The frame that the actions of a node share. -/
def Setting.frameOf (S : Setting) (kind : KindId) (n : NodeId) : Frame :=
  .new (.bare n) [] .none (((S.language.envSpec kind).map (·.spec.frameSize)).getD 0)

/-- The environments of a node are what its actions made of the environment `ambient`
around it. They were run from `s` on, and what is said of environments is so at `t`. -/
structure NodeEnvs.Follows (S : Setting) (m : Machine) (n : NodeId) (kind : KindId)
    (ambient : EnvId) (envs : NodeEnvs) (opened : List EnvId) (s t : Session) : Prop where
  given : (envsFrom S m n kind ambient s).1 = .ok envs
  /-- The node has the environment around it if no action replaces that. -/
  unreplaced : (∀ a ∈ S.actions kind, a.replaces = false) → envs.own = ambient
  /-- It has what the last action to replace it names, wherever that one stands. -/
  replaced : ∀ pre e post, S.actions kind = pre ++ .setInitialEnv e :: post →
    (∀ a ∈ post, a.replaces = false) → ∃ before f u,
      initialEnv S m ambient pre (S.frameOf kind n) s = ((.ok before, f), u) ∧
      (evalEnv S m e f u).1.1 = .ok envs.own
  /-- As many environments were opened as there are actions to open one. -/
  count : opened.length = (S.actions kind).countP (·.opens)
  new : ∀ e ∈ opened, s.envs.size ≤ e.raw
  /-- Each of them was opened for the node inside the one before it, the first one inside
  the environment of the node itself. -/
  chain : (envs.own :: opened).IsChain (t.envs.Opened n)
  /-- Its children start from the last one. -/
  inner : envs.inner = opened.getLastD envs.own
  /-- From there as many steps lead to the environment of the node, if it is a real one. -/
  climb : t.envs.climb envs.inner opened.length =
    if envs.own = .empty ∧ opened ≠ [] then none else some envs.own
  /-- An action to bind binds in the one of them that was opened last before it, or in the
  environment of the node if none was. -/
  bound : ∀ pre key value metadata post,
    S.actions kind = pre ++ .addToEnv key value metadata none :: post → ∃ a f u,
      (envs.own :: opened)[pre.countP (·.opens)]? = some a ∧
      (initialEnv S m ambient (S.actions kind) >>= fun own => pre.foldlM (runAction S m n) own)
        (S.frameOf kind n) s = ((.ok a, f), u) ∧
      EnvAction.BindsIn S m n a key value metadata f u t

theorem envs_from_eq (S : Setting) (m : Machine) (n : NodeId) (kind : KindId) (ambient : EnvId) :
    envsFrom S m n kind ambient = PopulateM.ofEval (runIn (S.frameOf kind n) do
      let own ← initialEnv S m ambient (S.actions kind)
      let inner ← (S.actions kind).foldlM (runAction S m n) own
      return ⟨own, inner⟩) := by
  unfold envsFrom Setting.frameOf Setting.actions
  cases S.language.envSpec kind <;> rfl

section Node
variable {S : Setting} {m : Machine} {n : NodeId} {kind : KindId} {ambient : EnvId}
  {envs : NodeEnvs}

theorem binds_in_kept {t w : Session} (kept : Grown Scope.Kept t.envs.scopes w.envs.scopes)
    (binds : EnvAction.BindsIn S m n a key value metadata f s t) :
    EnvAction.BindsIn S m n a key value metadata f s w := by
  intro symbol e g u g' v keyed named valued
  obtain ⟨acted, there⟩ := binds symbol e g u g' v keyed named valued
  exact ⟨acted, (EnvStore.newest_first_kept kept _ _).mem there⟩

/-- The environments that the actions of a node come to are what they should be, and remain
so as long as environments are kept. -/
theorem follows_of_envs_from (machine : m.Moves (Path S)) {h : History}
    (real : 0 < h.now.envs.size) (ran : envsFrom S m n kind ambient h.now = (.ok envs, t)) :
    ∃ opened, ∀ w, Grown Scope.Kept t.envs.scopes w.envs.scopes →
      envs.Follows S m n kind ambient opened h.now w := by
  have given := congrArg Prod.fst ran
  rw [envs_from_eq] at ran
  have ran := SessionM.map_error_ok ran
  unfold runIn at ran
  split at ran
  next r g t' whole =>
    cases ran
    obtain ⟨own, f, u, begun, acted⟩ := bind_ok whole
    obtain ⟨inner, _, _, acted, last⟩ := bind_ok acted
    cases last
    obtain ⟨p, toOwn⟩ := initial_env_moves (R := Path S) machine ambient (S.actions kind)
      (S.frameOf kind n) h
    rw [begun] at toOwn
    obtain ⟨opened, q, -, count, new, chain, last, each⟩ := actions_run machine (h := ⟨u, p⟩) acted
    have new (e : EnvId) (mem : e ∈ opened) : h.now.envs.size ≤ e.raw :=
      Nat.le_trans (grown_size (path_scopes toOwn)) (new e mem)
    refine ⟨opened, fun w kept => ?_⟩
    have chain : (own :: opened).IsChain (w.envs.Opened n) :=
      chain.imp fun _ _ => EnvStore.opened_kept kept
    have top (e : EnvId) (mem : e ∈ opened) : e ≠ .empty := fun empty => by
      have := new e mem
      rw [empty] at this
      exact absurd this (Nat.not_le.2 real)
    refine { given, count, new, chain, unreplaced := fun none_ => ?unreplaced,
             replaced := fun pre e post eq none_ => ?replaced, inner := ?inner,
             climb := EnvStore.climb_opened chain top ?innermost,
             bound := fun pre key value metadata post eq => ?bound }
    case unreplaced =>
      rw [initial_env_kept none_] at begun
      cases begun
      rfl
    case replaced =>
      rw [eq, initial_env_replaced none_] at begun
      obtain ⟨before, f', u', first, named⟩ := bind_ok begun
      exact ⟨before, f', u', first, congrArg (·.1.1) named⟩
    case inner =>
      rw [List.getLast?_cons, Option.some_inj, ← List.getLastD_eq_getLast?] at last
      exact last.symm
    case innermost =>
      rw [← last, List.getLast?_eq_getElem?]
      rfl
    case bound =>
      obtain ⟨a, f', u', d, g', v, between, entry, before, action, onward⟩ := each pre _ post eq
      refine ⟨a, f', u', entry, ?_, binds_in_kept
        (grown_trans Scope.kept_trans (path_scopes onward) kept) (run_action_binds action)⟩
      rw [run_bind, begun]
      exact before

end Node

/-! ## All nodes below a root -/

namespace Tree

/-- The environment inside a node that holds `n`. -/
def Surrounds (t : Tree) (a : EnvId) (n : NodeId) : Prop :=
  ∃ p node envs, t.Holds p n ∧ t.node? p = some node ∧ node.envs = some envs ∧ envs.inner = a

variable {s t : Tree}

theorem node_of_set_envs (given : s.setEnvs n envs = .ok t) :
    ∃ node, t.node? n = some node ∧ node.envs = some envs := by
  obtain ⟨node, held, -, -, nodes⟩ := set_envs_ok given
  refine ⟨{ node with envs := some envs }, ?_, rfl⟩
  unfold node? at held ⊢
  simp [nodes, Array.getElem?_modify, held]

theorem child_list_later (later : s.Later t) (known : p.raw < s.size) :
    t.childList p = s.childList p := by
  obtain ⟨b, still, same⟩ := later.nodes p.raw s.nodes[p.raw] (Array.getElem?_eq_getElem known)
  have old : s.node? p = some s.nodes[p.raw] := Array.getElem?_eq_getElem known
  rw [childList, childList, old, show t.node? p = some b from still]
  exact same.children

theorem holds_later (later : s.Later t) (held : s.Holds p c) : t.Holds p c := by
  rw [Holds, child_list_later later (holds_known held)]
  exact held

theorem below_later (later : s.Later t) (below : s.Below n m) : t.Below n m :=
  Relation.ReflTransGen.mono (fun _ _ => holds_later later) _ _ below

/-- Nothing new comes below a node. -/
theorem below_of_later (later : s.Later t) (known : n.raw < s.size) (below : t.Below n m) :
    s.Below n m := by
  induction below with
  | refl => exact .refl
  | tail above held ih =>
    refine ih.tail ?_
    have old := Nat.lt_of_le_of_lt (below_older above) known
    rwa [Holds, child_list_later later old] at held

theorem surrounds_later (later : s.Later t) (around : s.Surrounds a n) : t.Surrounds a n := by
  obtain ⟨p, node, envs, held, found, given, same⟩ := around
  obtain ⟨b, still, kept⟩ := later.nodes p.raw node found
  exact ⟨p, b, envs, holds_later later held, still, kept.envs envs given, same⟩

/-- What surrounds a node is the environment inside its parent. -/
theorem around_env_of_surrounds {node : Node} (linked : t.Linked) (around : t.Surrounds a n)
    (held : t.node? n = some node) : t.aroundEnv node = some a := by
  obtain ⟨p, outer, envs, holds, found, given, rfl⟩ := around
  have parent := (linked.parent_iff p n).2 holds
  rw [parentOf, held, Option.bind_some] at parent
  simp [aroundEnv, parent, found, given]

end Tree

section Linked
variable {S : Setting}

theorem change_linked (step : Change S h k) (linked : h.now.tree.Linked) : k.now.tree.Linked := by
  have unchanged {s t : Tree} (linked : s.Linked) (nodes : t.nodes = s.nodes)
      (values : t.varCount = s.varCount) : t.Linked :=
    Tree.linked_alike (Tree.alike_of_nodes nodes values) linked
  cases step with
  | aside step => rw [(aside_frame step).1]; exact linked
  | envs step => exact linked
  | node made => exact Tree.linked_add_node made linked
  | populated held computed given => exact Tree.linked_alike (Tree.alike_set_envs given) linked
  | rooted given =>
    obtain ⟨tree, set_, rfl⟩ := Session.set_root_ok given
    obtain ⟨-, -, -, -, -, rfl⟩ := Tree.set_root_ok set_
    exact unchanged linked rfl rfl
  | assigned v x => exact unchanged linked rfl (Tree.var_count_set_value _ v x)
  | unit name => exact unchanged linked rfl rfl
  | @opened node s _ root held fresh outermost =>
    obtain ⟨unitEnvs, eq⟩ := open_top_eq s root node.unit
    rw [eq]
    exact linked

theorem reachable_linked (reached : Reachable S h) : h.now.tree.Linked := by
  obtain ⟨pool, bag, loader, path⟩ := reached
  exact path_keeps (P := fun l => l.now.tree.Linked) (fun _ _ => change_linked) path
    Tree.linked_empty

/-- The empty environment is there from the start. -/
theorem reachable_real (reached : Reachable S h) : 0 < h.now.envs.size := by
  obtain ⟨pool, bag, loader, path⟩ := reached
  exact grown_size (path_scopes path)

end Linked

/-- On the way from `h` to `k` the node `n` was given the environments `envs`, which its
actions made of `ambient`. -/
def History.Visits (S : Setting) (m : Machine) (h k : History) (n : NodeId) (ambient : EnvId)
    (envs : NodeEnvs) : Prop :=
  ∃ u p node v tree q, Path S h ⟨u, p⟩ ∧ u.tree.node n = .ok node ∧
    envsFrom S m n node.kind ambient u = (.ok envs, v) ∧ v.tree.setEnvs n envs = .ok tree ∧
    Path S ⟨{ v with tree }, q⟩ k

/-- On the way from `h` to `k` everything below `n` was visited, `n` itself from `ambient`
and each other node from what surrounds it. -/
def History.VisitsBelow (S : Setting) (m : Machine) (h k : History) (n : NodeId)
    (ambient : EnvId) : Prop :=
  ∀ c, h.now.tree.Below n c → ∃ a envs, History.Visits S m h k c a envs ∧
    (c = n → a = ambient) ∧ (c ≠ n → k.now.tree.Surrounds a c)

section Walk
variable {S : Setting} {m : Machine} {h h' k k' : History}

theorem visits_within (before : Path S h h') (after : Path S k k')
    (visits : History.Visits S m h' k n ambient envs) : History.Visits S m h k' n ambient envs := by
  obtain ⟨u, p, node, v, tree, q, first, held, ran, given, rest⟩ := visits
  exact ⟨u, p, node, v, tree, q, before.trans first, held, ran, given, rest.trans after⟩

theorem visits_below_within (before : Path S h h') (after : Path S k k')
    (visits : History.VisitsBelow S m h' k n ambient) :
    History.VisitsBelow S m h k' n ambient := by
  intro c below
  obtain ⟨a, envs, visit, around⟩ :=
    visits c (Tree.below_later (path_later before).tree below)
  exact ⟨a, envs, visits_within before after visit,
    around.1, fun other => Tree.surrounds_later (path_later after).tree (around.2 other)⟩

/-- One after the other, each child is visited with everything below it. -/
theorem for_visits {n : NodeId} {children : List { c : NodeId // c.raw < n.raw }}
    (each : ∀ c ∈ children, ∀ h t, populateNode S m c.1 ambient h.now = (.ok (), t) →
      ∃ populated, Path S h ⟨t, populated⟩ ∧
        History.VisitsBelow S m h ⟨t, populated⟩ c.1 ambient)
    (ran : children.forM (fun c => populateNode S m c.1 ambient) h.now = (.ok (), t)) :
    ∃ populated, Path S h ⟨t, populated⟩ ∧ ∀ c ∈ children,
      History.VisitsBelow S m h ⟨t, populated⟩ c.1 ambient := by
  induction children generalizing h with
  | nil =>
    cases ran
    exact ⟨h.populated, .refl, fun c mem => (List.not_mem_nil mem).elim⟩
  | cons c rest ih =>
    obtain ⟨⟨⟩, u, first, ran⟩ := SessionM.bind_ok ran
    obtain ⟨p, path, visited⟩ := each c List.mem_cons_self h u first
    obtain ⟨q, onward, others⟩ :=
      ih (h := ⟨u, p⟩) (fun d mem => each d (List.mem_cons_of_mem _ mem)) ran
    refine ⟨q, path.trans onward, fun d mem => ?_⟩
    rcases List.mem_cons.1 mem with rfl | later
    · exact visits_below_within .refl onward visited
    · exact visits_below_within path .refl (others d later)

/-- A node that is populated is visited with everything below it. -/
theorem populate_node_visits (depth : Nat) (n : NodeId) (ambient : EnvId) (h : History)
    (ran : populateNode S (.upTo S depth) n ambient h.now = (.ok (), t)) :
    ∃ populated, Path S h ⟨t, populated⟩ ∧
      History.VisitsBelow S (.upTo S depth) h ⟨t, populated⟩ n ambient := by
  rw [populate_node_eq] at ran
  cases held : h.now.tree.node n with
  | error e => rw [held] at ran; cases ran
  | ok node =>
    obtain ⟨p, computed⟩ := envs_from_moves (R := Path S) (machine_steady S depth) n node.kind
      ambient h
    rw [held] at ran
    dsimp only at ran
    rcases made : envsFrom S (.upTo S depth) n node.kind ambient h.now with ⟨halt | envs, v⟩ <;>
      rw [made] at ran computed
    · cases ran
    · dsimp only at ran
      cases given : v.tree.setEnvs n envs with
      | error e => rw [given] at ran; cases ran
      | ok tree =>
        rw [given] at ran
        have filled : Path S h ⟨{ v with tree }, (n, ambient) :: p⟩ :=
          computed.tail (.populated held made given)
        obtain ⟨q, onward, visited⟩ := for_visits (h := ⟨{ v with tree }, (n, ambient) :: p⟩)
          (fun c _ k u => populate_node_visits depth c.1 envs.inner k) ran
        refine ⟨q, filled.trans onward, fun c below => ?_⟩
        rcases Relation.ReflTransGen.cases_head below with rfl | ⟨d, holds, under⟩
        · exact ⟨ambient, envs, ⟨h.now, h.populated, node, v, tree, _, .refl, held, made, given,
            onward⟩, fun _ => rfl, fun other => (other rfl).elim⟩
        · have listed : d ∈ (h.now.tree.childrenOf n).map (·.1) := by
            rw [Tree.childrenOf_eq]
            exact holds
          obtain ⟨child, mem, rfl⟩ := List.mem_map.1 listed
          have later := (path_later filled).tree
          obtain ⟨a, inside, visit, around⟩ := visited child mem c (Tree.below_later later under)
          have older : c ≠ n := fun same => by
            have := Tree.below_older under
            have := Tree.holds_older holds
            rw [same] at *
            omega
          refine ⟨a, inside, visits_within filled .refl visit, fun same => (older same).elim,
            fun _ => ?_⟩
          by_cases direct : c = child.1
          · obtain ⟨b, here, own⟩ := Tree.node_of_set_envs given
            rw [around.1 direct, direct]
            exact Tree.surrounds_later (path_later onward).tree
              ⟨n, b, envs, Tree.holds_later later holds, here, own, rfl⟩
          · exact around.2 direct
termination_by n.raw
decreasing_by exact c.2

end Walk

section Roots
variable {S : Setting} {m : Machine} {h k l : History} {t : Session}

/-- A population that goes well is that of the root from what is around it. If nothing is,
an environment was opened for it before. -/
theorem population_begins (ran : populateWith S m root h.now = (.ok (), t)) :
    ∃ start k, h.now.tree.node? root = some start ∧ Path S h k ∧ k.now.tree = h.now.tree ∧
      populateNode S m root ((h.now.tree.aroundEnv start).getD ⟨h.now.envs.size⟩) k.now =
        (.ok (), t) := by
  rw [populate_with_eq] at ran
  rcases first : h.now.tree.firstPopulated root with e | (_ | n)
  · rw [first] at ran; cases ran
  · obtain ⟨start, held, fresh⟩ := fresh_of_first_populated first
    have found : h.now.tree.node root = .ok start := by rw [Tree.node, held]
    rw [first] at ran
    dsimp only at ran
    rw [found] at ran
    dsimp only at ran
    cases around : h.now.tree.aroundEnv start with
    | some env => rw [around] at ran; exact ⟨start, h, held, .refl, rfl, by rw [around]; exact ran⟩
    | none =>
      rw [around] at ran
      obtain ⟨unitEnvs, eq⟩ := open_top_eq h.now root start.unit
      refine ⟨start, ⟨(h.now.openTop root start.unit).2, h.populated⟩, held,
        .single (.opened held fresh around), congrArg (·.tree) eq, ?_⟩
      rw [around, Option.getD_none, ← (open_top_envs h.now root start.unit).1]
      exact ran
  · rw [first] at ran; cases ran

/-- A node is of the same kind at all points. -/
theorem kind_of_paths {n : NodeId} {node last : Node} (known : n.raw < h.now.tree.size)
    (before : Path S h k) (path : Path S h l) (here : k.now.tree.node n = .ok node)
    (there : l.now.tree.node? n = some last) : last.kind = node.kind := by
  have old : h.now.tree.node? n = some _ := Array.getElem?_eq_getElem known
  obtain ⟨b, atFirst, same⟩ := Session.node_later (path_later before) old
  obtain ⟨c, atLast, same'⟩ := Session.node_later (path_later path) old
  rw [Tree.node, atFirst] at here
  cases here
  cases there.symm.trans atLast
  exact same'.kind.trans same.kind.symm

end Roots

/-- **Environments follow the specifications.** When the population of a root went well,
every node below it has its environments. A node other than the root started from the
environment inside its parent; the root started from the one around it, or from one opened
for it if there was none. What its actions made of that, and where they bound, is said by
`NodeEnvs.Follows`, of a point `s` of the run from which they were run and the session in the
end. -/
theorem population_follows_specs {S : Setting} {h : History} {depth : Nat} {root : NodeId}
    {t : Session} (reached : Reachable S h)
    (ran : populateWith S (.upTo S depth) root h.now = (.ok (), t)) :
    ∃ start, h.now.tree.node? root = some start ∧ ∀ n ∈ t.tree.preorder root,
      ∃ node envs ambient opened s populated,
        t.tree.node? n = some node ∧ node.envs = some envs ∧
        (if n = root then ambient = (h.now.tree.aroundEnv start).getD ⟨h.now.envs.size⟩
          else t.tree.aroundEnv node = some ambient) ∧
        Path S h ⟨s, populated⟩ ∧
        envs.Follows S (.upTo S depth) n node.kind ambient opened s t := by
  obtain ⟨start, k, held, begun, sameTree, ran⟩ := population_begins ran
  obtain ⟨populated, path, visits⟩ := populate_node_visits depth root _ k ran
  have reachedEnd : Reachable S ⟨t, populated⟩ := reachable_of_path reached (begun.trans path)
  refine ⟨start, held, fun n mem => ?_⟩
  have known : root.raw < k.now.tree.size := by
    rw [sameTree]
    exact (Array.getElem?_eq_some_iff.1 held).1
  have below := Tree.below_of_later (path_later path).tree known ((Tree.mem_preorder root n).1 mem)
  obtain ⟨a, envs, ⟨u, p, node, v, tree, q, before, here, computed, given, after⟩, around⟩ :=
    visits n below
  obtain ⟨opened, follows⟩ := follows_of_envs_from (h := ⟨u, p⟩) (machine_steady S depth)
    (reachable_real (reachable_of_path reached (begun.trans before))) computed
  obtain ⟨filled, there, own⟩ := Tree.node_of_set_envs given
  obtain ⟨last, still, kept⟩ := (path_later after).tree.nodes n.raw filled there
  have kind : last.kind = node.kind :=
    kind_of_paths (Nat.lt_of_le_of_lt (Tree.below_older below) known) before path here still
  refine ⟨last, envs, a, opened, u, p, still, kept.envs _ own, ?_, begun.trans before, ?_⟩
  · split
    · next same => exact around.1 same
    · next other =>
      exact Tree.around_env_of_surrounds (reachable_linked reachedEnd) (around.2 other) still
  · rw [kind]
    exact follows t (path_scopes after)

/-- Lists bind themselves around the environment that they open, and in it. -/
def Setting.opening : Setting where
  language :=
    { kinds := #[⟨⟨0⟩, "Leaf", none, false, [], false, false, [], [⟨0⟩], .caller⟩,
        ⟨⟨1⟩, "Plain", none, false, [], false, false, [], [⟨1⟩], .caller⟩,
        ⟨⟨2⟩, "List", none, false, [], true, false, [], [⟨2⟩], .caller⟩]
      properties := #[]
      implementations := #[]
      dynVars := #[]
      envSpecs := #[⟨⟨2⟩, ⟨[.bindSelf (.lit (.symbol ⟨1⟩)), .addEnv,
        .bindSelf (.lit (.symbol ⟨1⟩))], .caller⟩⟩]
      metadata := none
      table := #[#[], #[], #[]]
      warnings := [] }
  config := .standard

/-- A list of one leaf is populated. From the environment inside the list one step leads to
the one that was opened for it, and there the leaf is. -/
theorem population_follows_specs_of_list :
    let S := Setting.opening
    Reachable S ⟨.hung none none none [], []⟩ ∧ ∃ t list leaf envs,
      populateWith S (.upTo S 0) ⟨2⟩ (.hung none none none []) = (.ok (), t) ∧
      t.tree.node? ⟨2⟩ = some list ∧ list.envs = some envs ∧ envs.own = ⟨1⟩ ∧
      t.envs.climb envs.inner 1 = some ⟨1⟩ ∧
      t.tree.node? ⟨0⟩ = some leaf ∧ t.tree.aroundEnv leaf = leaf.envs.map (·.own) := by
  intro S
  let b : Binding := ⟨.bare ⟨2⟩, .empty⟩
  let outer : NodeEnvs := ⟨⟨1⟩, ⟨2⟩⟩
  let scopes : List Scope :=
    [(Scope.opened none (some ⟨2⟩)).bind ⟨1⟩ b, (Scope.opened (some ⟨1⟩) (some ⟨2⟩)).bind ⟨1⟩ b]
  have fresh : (Session.hung none none none []).tree.firstPopulated ⟨2⟩ = .ok none :=
    first_populated_list
  have leaf : populateNode S (.upTo S 0) ⟨0⟩ ⟨2⟩ (.hung none none (some outer) scopes) =
      (.ok (), .hung (some ⟨⟨2⟩, ⟨2⟩⟩) none (some outer) scopes) := by
    rw [populate_node_eq]
    rfl
  have ran : populateWith S (.upTo S 0) ⟨2⟩ (.hung none none none []) =
      (.ok (), .hung (some ⟨⟨2⟩, ⟨2⟩⟩) none (some outer) scopes) := by
    rw [populate_with_eq, fresh]
    show populateNode _ _ ⟨2⟩ ((Session.hung none none none []).openTop ⟨2⟩ ⟨0⟩).1
      ((Session.hung none none none []).openTop ⟨2⟩ ⟨0⟩).2 = _
    rw [populate_node_eq]
    show (populateNode S (.upTo S 0) ⟨0⟩ ⟨2⟩ >>= fun _ => pure ())
      (.hung none none (some outer) scopes) = _
    rw [SessionM.run_bind, leaf]
    rfl
  have reached := reachable_hung S
  obtain ⟨start, held, each⟩ := population_follows_specs reached ran
  obtain ⟨list, envs, ambient, opened, s, p, there, given, around, -, follows⟩ :=
    each ⟨2⟩ ((Tree.mem_preorder _ _).2 .refl)
  have below : Tree.Below (.hung (some ⟨⟨2⟩, ⟨2⟩⟩) none (some outer)) ⟨2⟩ ⟨0⟩ :=
    .single List.mem_cons_self
  obtain ⟨leaf, inside, ambient', opened', s', p', there', given', around', -, follows'⟩ :=
    each ⟨0⟩ ((Tree.mem_preorder _ _).2 below)
  cases held
  cases there
  cases there'
  rw [if_pos rfl] at around
  have own : envs.own = ⟨1⟩ := (follows.unreplaced (by decide)).trans around
  have one : opened.length = 1 := follows.count
  have climb := follows.climb
  have real : ¬ (envs.own = .empty ∧ opened ≠ []) := fun both => by
    rw [own] at both
    cases both.1
  rw [one, if_neg real, own] at climb
  refine ⟨reached, _, _, _, envs, ran, rfl, given, own, climb, rfl, ?_⟩
  have none_ : inside.own = ambient' := follows'.unreplaced fun _ mem => nomatch mem
  rw [given', Option.map_some, none_]
  exact around'

end Trellis
