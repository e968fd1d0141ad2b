import Trellis.Proofs.Session.Loading
import Trellis.Proofs.Session.Review

/-! Searches that end soon: in an environment that leads nowhere, and in one with a
single reference and nothing else. What properties come to that do nothing but such a
search follows from the environments as they stand. -/
namespace Trellis

open SessionM EvalM

/-! ## Searches -/

section Searches
variable {m : Machine} {q : LookupQuery} {env : EnvId} {visiting : List EnvId} {s t : Session}

/-- A search ends in an environment that has no references and no parent. -/
theorem search_with_alone (real : env ≠ .empty) (new : env ∉ visiting)
    (alone : (s.envs.references env).size = 0) (top : s.envs.parent env = none) :
    searchWith m q (.plain env) visiting #[] s =
      (.ok ((#[] : Array Entity) ++ s.envs.direct q (.plain env) env), s) := by
  have undone : q.done #[] = false := by cases q; simp [LookupQuery.done]
  have itself : (EnvValue.plain env).rebindings.standIn (EnvValue.plain env).env = env := rfl
  have new_ : visiting.contains env = false := by simpa using new
  unfold searchWith
  simp only [itself, real, new_, undone, decide_false, Bool.or_self, if_false, run_bind, run_read,
    Bool.false_eq_true]
  split
  · rfl
  · next more => simp only [run_bind, run_read, alone, searchReferences, run_pure, if_neg more, top]

theorem search_alone {S : Setting} {n : Nat} (real : env ≠ .empty) (new : env ∉ visiting)
    (alone : (s.envs.references env).size = 0) (top : s.envs.parent env = none) :
    (Machine.upTo S (n + 1)).search q (.plain env) visiting #[] s =
      (.ok ((#[] : Array Entity) ++ s.envs.direct q (.plain env) env), s) :=
  search_with_alone real new alone top

theorem search_alone_confined {S : Setting} {C : Confinement} {halt : Interrupt PropertyError}
    {n : Nat} (real : env ≠ .empty) (allowed : C.search s.envs env q.symbol = true)
    (alone : (s.envs.references env).size = 0) (top : s.envs.parent env = none) :
    (Machine.confined S C halt (n + 1)).search q (.plain env) [] #[] s =
      (.ok ((#[] : Array Entity) ++ s.envs.direct q (.plain env) env), s) :=
  (if_pos allowed).trans (search_with_alone real List.not_mem_nil alone top)

/-- Where a search ends in the environment itself, its first result tells whether that has
a binding. -/
theorem found_alone (envs : EnvStore) (env : EnvId) (symbol : Symbol) :
    ((#[] : Array Entity) ++ envs.direct ⟨symbol, .empty, true⟩ (.plain env) env)[0]?.isNone =
      (envs.newestFirst env symbol).isEmpty := by
  unfold EnvStore.direct
  cases envs.newestFirst env symbol with
  | nil => rfl
  | cons b rest => simp [EnvValue.offer, Metadata.contains, Metadata.empty]

/-- Where an environment has nothing but one reference, a search begins behind that. -/
theorem search_with_bare (real : env ≠ .empty) (bare : s.envs.newestFirst env q.symbol = [])
    (single : (s.envs.references env).size = 1) :
    searchWith m q (.plain env) [] #[] s = (do
      let found ← searchReferences m q (.plain env) env [env] 1 0 #[]
      if q.done found then return found
      match ← SessionM.read fun s => s.envs.parent env with
      | some parent => m.search q (.plain parent) [env] found
      | none => return found : EvalM (Array Entity)) s := by
  have undone : q.done #[] = false := by cases q; simp [LookupQuery.done]
  have itself : (EnvValue.plain env).rebindings.standIn (EnvValue.plain env).env = env := rfl
  have nothing : (#[] : Array Entity) ++ s.envs.direct q (.plain env) env = #[] := by
    unfold EnvStore.direct
    rw [bare]
    cases q.first <;> rfl
  unfold searchWith
  simp only [itself, real, undone, decide_false, Bool.or_self, List.contains_nil, if_false,
    run_bind, run_read, Bool.false_eq_true, nothing, single]
  rfl

/-- What it finds there it finds. -/
theorem search_with_through (real : env ≠ .empty)
    (bare : s.envs.newestFirst env q.symbol = []) (single : (s.envs.references env).size = 1)
    (resolved : m.resolve env 0 s = (.ok value, t))
    (held : t.envs.reference? env 0 = some reference)
    (beyond : m.search q ((EnvValue.plain env).cross reference.crossing value) [env] #[] t =
      (.ok found, t)) (top : t.envs.parent env = none) :
    searchWith m q (.plain env) [] #[] s = (.ok found, t) := by
  have searched : searchReferences m q (.plain env) env [env] 1 0 #[] s = (.ok found, t) := by
    unfold searchReferences
    rw [run_bind, resolved]
    simp only [run_bind, run_read, held, beyond]
    split <;> rfl
  rw [search_with_bare real bare single, run_bind, searched]
  dsimp only
  split
  · rfl
  · simp only [run_bind, run_read, top, run_pure]

/-- It ends there if the reference cannot be resolved. -/
theorem search_with_refused (real : env ≠ .empty) (bare : s.envs.newestFirst env q.symbol = [])
    (single : (s.envs.references env).size = 1)
    (refused : m.resolve env 0 s = (.error halt, t)) :
    searchWith m q (.plain env) [] #[] s = (.error halt, t) := by
  have searched : searchReferences m q (.plain env) env [env] 1 0 #[] s = (.error halt, t) := by
    unfold searchReferences
    rw [run_bind, refused]
  rw [search_with_bare real bare single, run_bind, searched]

theorem search_through {S : Setting} {n : Nat} (real : env ≠ .empty)
    (bare : s.envs.newestFirst env q.symbol = []) (single : (s.envs.references env).size = 1)
    (resolved : (Machine.upTo S n).resolve env 0 s = (.ok value, t))
    (held : t.envs.reference? env 0 = some reference) (crossing : reference.crossing = .none)
    (beyond : (Machine.upTo S n).search q ((EnvValue.plain env).cross .none value) [env] #[] t =
      (.ok found, t)) (top : t.envs.parent env = none) :
    (Machine.upTo S (n + 1)).search q (.plain env) [] #[] s = (.ok found, t) :=
  search_with_through real bare single resolved held (by rwa [crossing]) top

end Searches

/-! ## References -/

section References
variable {S : Setting} {m : Machine} {env : EnvId} {index : Nat} {s t : Session}
  (held : s.envs.reference? env index = some reference)
include held

/-- A reference that depends on itself counts as empty. -/
theorem resolve_with_resolving (running : reference.state = .resolving) :
    resolveWith S m env index s = (.ok .empty, s.reportCycle env index) := by
  rw [resolve_with_eq, held]
  simp only [running]

theorem resolve_with_given (unresolved : reference.state = .unresolved)
    (thunk : reference.thunk = .source (.env value)) :
    resolveWith S m env index s = (.ok value,
      { s with envs := (s.mark env index).envs.setState env index (.resolved value) }) := by
  rw [resolve_with_eq, held]
  simp only [unresolved]
  rw [EvalM.resolving_eq, thunk]
  rfl

/-- What a property produces for a reference is kept. -/
theorem resolve_with_property (unresolved : reference.state = .unresolved)
    (thunk : reference.thunk = .source (.property entity prop))
    (asked : m.call entity prop [] .none (s.mark env index) = (.ok (.env value), t)) :
    resolveWith S m env index s =
      (.ok value, { t with envs := t.envs.setState env index (.resolved value) }) := by
  have produced : force S m reference.thunk (s.mark env index) = (.ok value, t) := by
    rw [thunk, force, run_bind, asked]
    rfl
  rw [resolve_with_eq, held]
  simp only [unresolved]
  rw [EvalM.resolving_eq, produced]

/-- A reference to a unit that cannot be loaded is not resolved. -/
theorem resolve_with_refused (unresolved : reference.state = .unresolved)
    (thunk : reference.thunk = .source (.unit name))
    (refused : loadUnit S m name (s.mark env index) = (.error halt, t)) :
    resolveWith S m env index s =
      (.error halt, { t with envs := t.envs.setState env index .unresolved }) := by
  have forced : force S m reference.thunk (s.mark env index) = (.error halt, t) := by
    rw [thunk, force, run_bind, refused]
  rw [resolve_with_eq, held]
  simp only [unresolved]
  rw [EvalM.resolving_eq, forced]

end References

/-! ## Properties that search -/

/-- A property asked of the node numbered zero, as it is remembered. -/
def MemoKey.first (prop : PropId) : MemoKey := ⟨prop, .bare ⟨0⟩, [], .none⟩

/-- A session over a single node. -/
def Session.over (populated : Option NodeEnvs) (envs : EnvStore) : Session :=
  { Session.new (.new none) .standard .absent with tree := .leaf populated, envs }

/-- The setting in which those properties are asked. -/
def Setting.probing (env : EnvId) (symbol : Symbol) (target : EnvId) (envSpecs : Array KindEnvSpec)
    (config : EvalConfig) : Setting :=
  ⟨.probing env symbol target envSpecs, config⟩

section Probing
variable {env target : EnvId} {symbol : Symbol} {envSpecs : Array KindEnvSpec} {config : EvalConfig}

theorem plain_probing : (Language.probing env symbol target envSpecs).IsPlain := by
  intro index i held
  rcases index with _ | _ | index
  · cases held; rfl
  · cases held; rfl
  · simp [Language.probing, Definition.implementation?] at held

variable {m : Machine} {s t : Session} {node : Node}

theorem eval_call_self {S : Setting} {f : Frame}
    (asked : m.call f.entity prop [] f.dynVars s = (.ok v, t)) :
    eval S m (.call .self prop []) f s = ((.ok v, f), t) := by
  show (((m.call f.entity prop [] f.dynVars s).1, f), (m.call f.entity prop [] f.dynVars s).2) = _
  rw [asked]

/-- Whether the symbol is unbound is told by what a search finds. -/
theorem unbound_of_search
    (searched : m.search ⟨symbol, .empty, true⟩ (.plain env) [] #[] s = (.ok found, t))
    (tells : found[0]?.isNone = b) :
    bodyOf (.probing env symbol target envSpecs config) m ⟨0⟩ 0 key s = (.ok (.bool b), t) := by
  have first : m.lookupFirst (.plain env) symbol .empty s = (.ok found[0]?, t) := by
    unfold Machine.lookupFirst
    rw [run_bind, searched]
    rfl
  show FrameM.runIn (.new key.entity key.args key.dynVars 0)
    (eval (.probing env symbol target envSpecs config) m
      (.isNull (.envGet (.lit (.env (.plain env))) (.lit (.symbol symbol)) true .empty))) s = _
  unfold FrameM.runIn
  simp only [eval, FrameM.run_bind, FrameM.run_pure, FrameM.expectEnv, FrameM.expectSymbol,
    FrameM.run_session, first, if_true, ← tells]
  cases found[0]? <;> rfl

/-- The second property gives its environment once it has asked the first. -/
theorem target_of_call (asked : m.call key.entity ⟨0⟩ [] key.dynVars s = (.ok v, t)) :
    bodyOf (.probing env symbol target envSpecs config) m ⟨0⟩ 1 key s =
      (.ok (.env (.plain target)), t) := by
  let f : Frame := .new key.entity key.args key.dynVars 1
  have called : eval (.probing env symbol target envSpecs config) m (.call .self ⟨0⟩ []) f s =
      ((.ok v, f), t) := eval_call_self asked
  show FrameM.runIn f (eval (.probing env symbol target envSpecs config) m
    (.letIn 0 (.call .self ⟨0⟩ []) (.lit (.env (.plain target))))) s = _
  unfold FrameM.runIn
  rw [eval, FrameM.run_bind, called]
  rfl

section Asked
variable (held : s.tree.node? ⟨0⟩ = some node) (kind : node.kind = ⟨0⟩)
  (within : s.Within config.maxCallDepth)
include held kind within

variable (env target symbol envSpecs config) in
omit within in
theorem called_unbound : ∃ info, info.returns = .bool ∧ info.memoized = true ∧
    Called (.probing env symbol target envSpecs config) s (.first ⟨0⟩) .none node info 0 :=
  ⟨_, rfl, rfl, held, rfl, rfl, fun _ mem => (List.not_mem_nil mem).elim, rfl, by rw [kind]; rfl⟩

/-- The first property is computed when nothing is remembered. -/
theorem call_unbound_anew (fresh : config.memoize = false)
    (searched : m.search ⟨symbol, .empty, true⟩ (.plain env) [] #[] s.deeper = (.ok found, t))
    (tells : found[0]?.isNone = b) :
    callWith (.probing env symbol target envSpecs config) m (.bare ⟨0⟩) ⟨0⟩ [] .none s =
      (.ok (.bool b), t.shallower) := by
  obtain ⟨info, type, -, called⟩ := called_unbound env target symbol envSpecs config held kind
  refine (called_eq called _).trans (map_error_of_ok ?_)
  unfold answer
  rw [show Setting.config (.probing env symbol target envSpecs config) = config from rfl, fresh,
    kind]
  exact compute_of_body (S := .probing env symbol target envSpecs config) within
    (unbound_of_search searched tells) (by rw [type]; rfl)

/-- Where results are remembered so is this one. -/
theorem call_unbound (remember : config.memoize = true)
    (unknown : s.memo.done[MemoKey.first ⟨0⟩]? = none) (idle : MemoKey.first ⟨0⟩ ∉ s.memo.running)
    (searched : m.search ⟨symbol, .empty, true⟩ (.plain env) [] #[] (s.enter (some (.first ⟨0⟩))) =
      (.ok found, t)) (tells : found[0]?.isNone = b) :
    callWith (.probing env symbol target envSpecs config) m (.bare ⟨0⟩) ⟨0⟩ [] .none s =
      (.ok (.bool b), { t.shallower with memo := t.memo.finish (.first ⟨0⟩) (.bool b) }) := by
  obtain ⟨info, type, memoized_, called⟩ :=
    called_unbound env target symbol envSpecs config held kind
  refine (called_eq called _).trans (map_error_of_ok ?_)
  unfold answer
  rw [show Setting.config (.probing env symbol target envSpecs config) = config from rfl, remember,
    memoized_, kind]
  exact memoized_of_computed unknown idle
    (compute_of_body (S := .probing env symbol target envSpecs config) within
      (unbound_of_search searched tells) (by rw [type]; rfl))

/-- The second property is always computed. -/
theorem call_target (asked : m.ask (.first ⟨0⟩) s.deeper = (.ok v, t)) :
    callWith (.probing env symbol target envSpecs config) m (.bare ⟨0⟩) ⟨1⟩ [] .none s =
      (.ok (.env (.plain target)), t.shallower) := by
  obtain ⟨info, type, plain, called⟩ : ∃ info, info.returns = .env ∧ info.memoized = false ∧
      Called (.probing env symbol target envSpecs config) s (.first ⟨1⟩) .none node info 1 :=
    ⟨_, rfl, rfl, held, rfl, rfl, fun _ mem => (List.not_mem_nil mem).elim, rfl, by rw [kind]; rfl⟩
  refine (called_eq called _).trans (map_error_of_ok ?_)
  unfold answer
  rw [plain, Bool.and_false, kind]
  exact compute_of_body (S := .probing env symbol target envSpecs config) within
    (target_of_call asked) (by rw [type]; rfl)

end Asked

section Alone
variable {n : Nat} (held : s.tree.node? ⟨0⟩ = some node) (kind : node.kind = ⟨0⟩)
  (within : s.Within config.maxCallDepth) (real : env ≠ .empty)
  (alone : (s.envs.references env).size = 0) (top : s.envs.parent env = none)
include held kind within real alone top

/-- Where the environment leads nowhere the first property tells whether it has a binding. -/
theorem ask_unbound_alone_anew (fresh : config.memoize = false) :
    (Machine.upTo (.probing env symbol target envSpecs config) (n + 2)).ask (.first ⟨0⟩) s =
      (.ok (.bool (s.envs.newestFirst env symbol).isEmpty), s) :=
  call_unbound_anew held kind within fresh (search_alone real List.not_mem_nil alone top)
    (found_alone _ _ _)

theorem ask_unbound_alone (remember : config.memoize = true)
    (unknown : s.memo.done[MemoKey.first ⟨0⟩]? = none) (idle : MemoKey.first ⟨0⟩ ∉ s.memo.running) :
    (Machine.upTo (.probing env symbol target envSpecs config) (n + 2)).ask (.first ⟨0⟩) s =
      (.ok (.bool (s.envs.newestFirst env symbol).isEmpty), { s with
        memo := (s.memo.start (.first ⟨0⟩)).finish (.first ⟨0⟩)
          (.bool (s.envs.newestFirst env symbol).isEmpty) }) :=
  call_unbound held kind within remember unknown idle (search_alone real List.not_mem_nil alone top)
    (found_alone _ _ _)

theorem ask_target_alone_anew (deep : s.deeper.Within config.maxCallDepth)
    (fresh : config.memoize = false) :
    (Machine.upTo (.probing env symbol target envSpecs config) (n + 3)).ask (.first ⟨1⟩) s =
      (.ok (.env (.plain target)), s) :=
  call_target held kind within
    (ask_unbound_alone_anew (s := s.deeper) held kind deep real alone top fresh)

end Alone

end Probing

/-! ## A reference that depends on itself -/

/-- What is remembered once the symbol was found to be unbound. -/
def Memo.unbound : Memo := (Memo.empty.start (.first ⟨0⟩)).finish (.first ⟨0⟩) (.bool true)

/-- The environments of a session in which the second property produces what is behind a
reference of the node's environment: another one, in which the symbol is bound. -/
def EnvStore.looped (state : RefState) : EnvStore :=
  ⟨#[.opened none none,
    (Scope.opened none (some ⟨0⟩)).refer ⟨.source (.property (.bare ⟨0⟩) ⟨1⟩), .none, state⟩,
    (Scope.opened none none).bind ⟨1⟩ ⟨.bare ⟨0⟩, .empty⟩]⟩

def Session.looped : Session := .over (some ⟨⟨1⟩, ⟨1⟩⟩) (.looped .unresolved)

/-- The same session once the reference is resolved. -/
def Session.recovered : Session :=
  { Session.looped with
    envs := .looped (.resolved (.plain ⟨2⟩))
    memo := .unbound
    bag := (Session.looped.reportCycle ⟨1⟩ 0).bag }

theorem newest_first_looped (state : RefState) (symbol : Symbol) :
    (EnvStore.looped state).newestFirst ⟨1⟩ symbol = [] :=
  Scope.newestFirst_opened none (some ⟨0⟩) symbol

/-- While the reference is resolved it counts as empty, so the first property finds the
symbol unbound. -/
theorem lookup_looped (n : Nat) : let S := Setting.probing ⟨1⟩ ⟨1⟩ ⟨2⟩ #[] .standard
    ∃ found, (Machine.upTo S (n + 6)).lookup (.plain ⟨1⟩) ⟨1⟩ .empty .looped =
      (.ok found, .recovered) := by
  intro S
  let marked (state : RefState) : Reference := ⟨.source (.property (.bare ⟨0⟩) ⟨1⟩), .none, state⟩
  let s := Session.looped.mark ⟨1⟩ 0
  let t := s.deeper.enter (some (.first ⟨0⟩))
  let u := t.reportCycle ⟨1⟩ 0
  let v : Session := { u.shallower with memo := .unbound }
  have bare := newest_first_looped .resolving ⟨1⟩
  have cut : (Machine.upTo S (n + 1)).resolve ⟨1⟩ 0 t = (.ok .empty, u) :=
    resolve_with_resolving (show t.envs.reference? ⟨1⟩ 0 = some (marked .resolving) from rfl) rfl
  have inner : (Machine.upTo S (n + 2)).search ⟨⟨1⟩, .empty, true⟩ (.plain ⟨1⟩) [] #[] t =
      (.ok #[], u) :=
    search_through (by decide) bare rfl cut
      (show u.envs.reference? ⟨1⟩ 0 = some (marked .resolving) from rfl) rfl rfl rfl
  have unbound : (Machine.upTo S (n + 3)).ask (.first ⟨0⟩) s.deeper = (.ok (.bool true), v) :=
    call_unbound rfl rfl (.inr (by decide)) rfl Std.HashMap.getElem?_empty Std.HashSet.not_mem_empty
      inner rfl
  have produced : (Machine.upTo S (n + 4)).ask (.first ⟨1⟩) s =
      (.ok (.env (.plain ⟨2⟩)), v.shallower) :=
    call_target rfl rfl (.inr (by decide)) unbound
  have held : Session.looped.envs.reference? ⟨1⟩ 0 = some (marked .unresolved) := rfl
  have resolved : (Machine.upTo S (n + 5)).resolve ⟨1⟩ 0 .looped =
      (.ok (.plain ⟨2⟩), .recovered) := resolve_with_property held rfl rfl produced
  have beyond : (Machine.upTo S (n + 5)).search ⟨⟨1⟩, .empty, false⟩
      ((EnvValue.plain ⟨1⟩).cross .none (.plain ⟨2⟩)) [⟨1⟩] #[] .recovered = _ :=
    search_alone (show (⟨2⟩ : EnvId) ≠ EnvId.empty by decide) (by decide) rfl rfl
  exact ⟨_, search_through (by decide) (newest_first_looped .unresolved ⟨1⟩) rfl resolved
    (show Session.recovered.envs.reference? ⟨1⟩ 0 = some (marked (.resolved (.plain ⟨2⟩))) from rfl)
    rfl beyond rfl⟩

/-! ## A node that asks before it binds -/

/-- Bind a symbol to a node for which the first property holds. -/
def EnvAction.probing (symbol : Symbol) : EnvAction :=
  .addToEnv (.lit (.symbol symbol)) (.ite (.call .self ⟨0⟩ []) .self (.lit .null)) .empty none

section Population
variable {S : Setting} {m : Machine} {s t : Session} {symbol : Symbol} {envs : EnvStore}

theorem run_probing (named : symbol.isEmpty = false)
    (asked : m.ask (.first ⟨0⟩) s = (.ok (.bool true), t))
    (stored : t.envs.addBinding env symbol (.bare ⟨0⟩) .empty = (.ok (), envs)) :
    runSpec S m ⟨0⟩ env ⟨[.probing symbol], site⟩ s = (.ok ⟨env, env⟩, { t with envs }) := by
  let f : Frame := .new (.bare ⟨0⟩) [] .none (EnvSpec.mk [.probing symbol] site).frameSize
  have called : eval S m (.call .self ⟨0⟩ []) f s = ((.ok (.bool true), f), t) :=
    eval_call_self asked
  have value : eval S m (.ite (.call .self ⟨0⟩ []) .self (.lit .null)) f s =
      ((.ok (.entity (.bare ⟨0⟩)), f), t) := by
    rw [eval, FrameM.run_bind, called]
    rfl
  have acted : runAction S m ⟨0⟩ env (.probing symbol) f s = ((.ok env, f), { t with envs }) := by
    rw [EnvAction.probing, runAction, FrameM.run_bind, addToEnv, FrameM.run_bind,
      show eval S m (.lit (.symbol symbol)) f s = ((.ok (.symbol symbol), f), s) from rfl]
    simp only [named, Bool.false_eq_true, if_false, FrameM.run_bind, value, FrameM.run_pure,
      FrameM.run_session, changeEnvs, stored]
    rfl
  have opened : [EnvAction.probing symbol].foldlM (runAction S m ⟨0⟩) env f s =
      ((.ok env, f), { t with envs }) := by
    rw [List.foldlM_cons, FrameM.run_bind, acted]
    rfl
  unfold runSpec FrameM.runIn
  rw [FrameM.run_bind,
    show initialEnv S m env [EnvAction.probing symbol] _ s = ((.ok env, f), s) from rfl]
  dsimp only
  rw [FrameM.run_bind, opened]
  rfl

/-- A setting in which a node binds a symbol to itself if the symbol numbered one is
unbound in the environment numbered one. -/
def Setting.sprouting (bound : Symbol) : Setting :=
  .probing ⟨1⟩ ⟨1⟩ ⟨0⟩ #[⟨⟨0⟩, ⟨[.probing bound], .caller⟩⟩] .standard

/-- The session in which the only node has its environment and is populated next. -/
def Session.seed : Session := (Session.openTop (.over none .new) ⟨0⟩ ⟨0⟩).2

/-- The session once the node is populated. -/
def Session.sprouted (bound : Symbol) : Session :=
  { Session.over (some ⟨⟨1⟩, ⟨1⟩⟩) ⟨#[.opened none none,
      (Scope.opened none (some ⟨0⟩)).bind bound ⟨.bare ⟨0⟩, .empty⟩]⟩ with
    unitEnvs := [(⟨0⟩, ⟨1⟩)], memo := .unbound }

theorem newest_first_seed (symbol : Symbol) : Session.seed.envs.newestFirst ⟨1⟩ symbol = [] :=
  Scope.newestFirst_opened none (some ⟨0⟩) symbol

theorem newest_first_sprouted (bound symbol : Symbol) :
    (Session.sprouted bound).envs.newestFirst ⟨1⟩ symbol =
      if bound = symbol then [⟨.bare ⟨0⟩, .empty⟩] else [] := by
  show ((Scope.opened none (some ⟨0⟩)).bind bound _).newestFirst symbol = _
  rw [Scope.newestFirst_bind, Scope.newestFirst_opened, Scope.newestFirst_opened]

theorem populate_sprouting {bound : Symbol} (named : bound.isEmpty = false)
    (asked : m.ask (.first ⟨0⟩) .seed =
      (.ok (.bool true), { Session.seed with memo := .unbound })) :
    populateWith (.sprouting bound) m ⟨0⟩ (.over none .new) = (.ok (), .sprouted bound) := by
  have stored : Session.seed.envs.addBinding ⟨1⟩ bound (.bare ⟨0⟩) .empty =
      (.ok (), (Session.sprouted bound).envs) := by
    rw [EnvStore.addBinding, named]
    rfl
  have ran : envsFrom (.sprouting bound) m ⟨0⟩ ⟨0⟩ ⟨1⟩ .seed = (.ok ⟨⟨1⟩, ⟨1⟩⟩,
      { Session.seed with memo := .unbound, envs := (Session.sprouted bound).envs }) :=
    map_error_of_ok (run_probing named asked stored)
  have around : Session.openTop (.over none .new) ⟨0⟩ ⟨0⟩ = (⟨1⟩, .seed) := rfl
  have node : Session.seed.tree.node ⟨0⟩ = .ok ⟨⟨0⟩, [], none, ⟨0⟩, .empty, .dummy, [], none⟩ := rfl
  rw [populate_leaf _ _ rfl, around, populate_node_eq, node]
  dsimp only
  rw [ran]
  rfl

end Population

end Trellis
