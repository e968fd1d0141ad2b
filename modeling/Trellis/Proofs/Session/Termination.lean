import Trellis.Proofs.Session.Congruence
import Trellis.Proofs.Session.Marks
import Trellis.Proofs.Session.Stopping
import Trellis.Proofs.Session.Visits
import Trellis.Proofs.Solver.Runs

/-! Evaluation ends where calls may be nested only so deeply. The parts of an expression are
smaller than it is, a call comes nearer to the limit, a search does not come back to an
environment, and a reference takes one call. How deep activities are nested is bounded by
the number of environments and of the calls that are still allowed; a machine that goes so
deep is never cut short, and those that go deeper do the same. -/
namespace Trellis

/-! ## Sessions that evaluation does not leave -/

/-- The environment is given, or a property gives it. -/
def EnvThunk.IsDirect : EnvThunk → Prop
  | .source (.env _) | .source (.property _ _) => True
  | .source (.unit _) | .custom _ => False

namespace EnvStore

/-- What all references refer to is given or the value of a property. -/
def IsDirect (s : EnvStore) : Prop :=
  ∀ env index r, s.reference? env index = some r → r.thunk.IsDirect

theorem direct_set_state {s : EnvStore} (direct : s.IsDirect) (env : EnvId) (index : Nat)
    (state : RefState) : (s.setState env index state).IsDirect := by
  intro e i r held
  obtain ⟨old, there, same⟩ := thunk_of_set_state held
  exact same ▸ direct e i old there

end EnvStore

/-- A session with so many environments, all references direct, in which so many bodies are
running. -/
structure Session.Level (envs depth : Nat) (s : Session) : Prop where
  size : s.envs.size = envs
  direct : s.envs.IsDirect
  depth : s.depth = depth

namespace Session
variable {envs depth : Nat} {s t : Session}

theorem level_of_same (level : s.Level envs depth) (same : t.envs = s.envs)
    (deep : t.depth = s.depth) : t.Level envs depth where
  size := same ▸ level.size
  direct := same ▸ level.direct
  depth := deep.trans level.depth

theorem level_set_state (level : s.Level envs depth) (env : EnvId) (index : Nat)
    (state : RefState) : Level envs depth { s with envs := s.envs.setState env index state } where
  size := Array.size_modify.trans level.size
  direct := EnvStore.direct_set_state level.direct env index state
  depth := level.depth

end Session

/-! ## Actions that come to an end -/

/-- Wherever `P` holds, the first action is not cut short, the second one does the same, and
`P` still holds afterwards. -/
def SessionM.Settles (P : Session → Prop) (act act' : SessionM ε α) : Prop :=
  ∀ s, P s → act' s = act s ∧ (act s).1 ≠ .error .exhausted ∧ P (act s).2

/-- The same in whatever frame the actions run. -/
def FrameM.Settles (P : Session → Prop) (act act' : FrameM α) : Prop :=
  ∀ f s, P s → act' f s = act f s ∧ (act f s).1.1 ≠ .error .exhausted ∧ P (act f s).2

namespace Machine

/-- The same of the calls that machines are asked for. -/
def SettlesCalls (P : Session → Prop) (m m' : Machine) : Prop := ∀ entity prop args dynVars,
  SessionM.Settles P (m.call entity prop args dynVars) (m'.call entity prop args dynVars)

/-- The same of the references that they are asked for. -/
def SettlesReferences (P : Session → Prop) (m m' : Machine) : Prop := ∀ env index,
  SessionM.Settles P (m.resolve env index) (m'.resolve env index)

/-- A machine that is never cut short there, and one that does the same. -/
structure Settles (P : Session → Prop) (m m' : Machine) : Prop where
  call : m.SettlesCalls P m'
  search : ∀ q view visiting found,
    SessionM.Settles P (m.search q view visiting found) (m'.search q view visiting found)
  resolve : m.SettlesReferences P m'

end Machine

namespace SessionM
variable {P Q : Session → Prop}

theorem settles_still {act : SessionM ε α}
    (still : ∀ s, ∃ r, act s = (r, s) ∧ r ≠ .error .exhausted) : Settles P act act := by
  intro s there
  obtain ⟨r, same, ended⟩ := still s
  rw [same]
  exact ⟨rfl, ended, there⟩

theorem settles_looks {act : EvalM α} (looks : act.Looks) : Settles P act act := by
  refine settles_still fun s => ?_
  obtain ⟨r, same⟩ := looks s
  exact ⟨_, same, by cases r <;> nofun⟩

theorem settles_pure (x : α) : Settles P (pure x : SessionM ε α) (pure x) :=
  settles_still fun _ => ⟨_, rfl, nofun⟩

theorem settles_fail (e : ε) : Settles P (fail e : SessionM ε α) (fail e) :=
  settles_still fun _ => ⟨_, rfl, nofun⟩

theorem settles_read (f : Session → α) : Settles P (read f : SessionM ε α) (read f) :=
  settles_still fun _ => ⟨_, rfl, nofun⟩

theorem settles_bind {act act' : SessionM ε α} {next next' : α → SessionM ε β}
    (first : Settles P act act') (rest : ∀ x, Settles P (next x) (next' x)) :
    Settles P (act >>= next) (act' >>= next') := by
  intro s there
  obtain ⟨same, ended, further⟩ := first s there
  rw [run_bind, run_bind, same]
  rcases ran : act s with ⟨halt | x, t⟩ <;> rw [ran] at ended further
  · exact ⟨rfl, fun cut => ended (by cases cut; rfl), further⟩
  · exact rest x t further

theorem settles_map_error {act act' : SessionM ε α} (f : ε → δ) (inside : Settles P act act') :
    Settles P (act.mapError f) (act'.mapError f) := by
  intro s there
  obtain ⟨same, ended, further⟩ := inside s there
  unfold mapError
  rw [same]
  rcases ran : act s with ⟨(cause | _) | x, t⟩ <;> rw [ran] at ended further
  · exact ⟨rfl, nofun, further⟩
  · exact (ended rfl).elim
  · exact ⟨rfl, nofun, further⟩

theorem settles_bracket {act act' : SessionM ε α} {before : Session → Session}
    {after : Except (Interrupt ε) α → Session → Session} (enter : ∀ s, P s → Q (before s))
    (inside : Settles Q act act') (leave : ∀ r s, Q s → P (after r s)) :
    Settles P (bracket before act after) (bracket before act' after) := by
  intro s there
  obtain ⟨same, ended, further⟩ := inside (before s) (enter s there)
  unfold bracket
  rw [same]
  exact ⟨rfl, ended, leave _ _ further⟩

end SessionM

theorem Machine.Settles.lookup_first {P : Session → Prop} {m m' : Machine}
    (machine : m.Settles P m') (env : EnvValue) (symbol : Symbol) (require : Metadata) :
    SessionM.Settles P (m.lookupFirst env symbol require) (m'.lookupFirst env symbol require) :=
  SessionM.settles_bind (machine.search _ _ _ _) fun _ => SessionM.settles_pure _

/-! ## Solving and evaluation -/

section Evaluation
open Session
variable {S : Setting} {m m' : Machine} {envs depth : Nat}
  (machine : m.Settles (Level envs depth) m')
include machine

namespace EvalM
open SessionM

/-- A question is a call whose answer has to be yes or no. -/
theorem oracle_settles (dynVars : DynVars) (q : Solver.Query Entity) (s : Session)
    (level : s.Level envs depth) :
    m'.oracle dynVars q s = m.oracle dynVars q s ∧
      (m.oracle dynVars q s).1 ≠ .error .exhausted ∧
      (m.oracle dynVars q s).2.Level envs depth := by
  cases q with
  | unary p x =>
    refine settles_bind (machine.call x p.prop [] dynVars) (fun v => ?_) s level
    cases v <;> first | exact settles_pure _ | exact settles_fail _
  | binary p x y =>
    refine settles_bind (machine.call x p.prop [.entity y] dynVars) (fun v => ?_) s level
    cases v <;> first | exact settles_pure _ | exact settles_fail _

/-- A solve puts questions, and then binds variables or reports that it cannot. -/
theorem solve_settles (e : Equation Entity) (dynVars : DynVars) :
    Settles (Level envs depth) (solve S m e dynVars) (solve S m' e dynVars) := by
  intro s level
  have asked := oracle_settles machine dynVars
  have echoes (q : Solver.Query Entity) :
      Solver.Echoes (fun _ _ => True)
        (fun _ world world' => world.Level envs depth ∧ world' = world) (m.oracle dynVars)
        (m'.oracle dynVars) q := by
    rintro world answers - -
    refine ⟨trivial, ?_⟩
    rintro _ ⟨there, rfl⟩
    obtain ⟨same, -, further⟩ := asked q _ there
    rw [same]
    exact ⟨rfl, further, rfl⟩
  have start : s.Level envs depth ∧ s = s := ⟨level, rfl⟩
  obtain ⟨same, further, worlds⟩ := e.solve_along (fun _ _ q _ => echoes q) S.config.solver
    (s.boundVars e) start trivial
  let may (halt : Solver.Halt (Interrupt PropertyError)) : Prop := halt.toInterrupt ≠ .exhausted
  have fails (q : Solver.Query Entity) (t : Session) (cause : Interrupt PropertyError)
      (there : t.Level envs depth) (failed : (m.oracle dynVars q t).1 = .error cause) :
      may (.predicate cause) := fun cut =>
    (asked q t there).2.1 (failed.trans (congrArg Except.error cut))
  have ended (halt : Solver.Halt (Interrupt PropertyError))
      (halted : (e.solve (m.oracle dynVars) S.config.solver (s.boundVars e) s).1 = .error halt) :
      may halt :=
    e.solve_halts S.config.solver (s.boundVars e) level (fun q t there => (asked q t there).2.2)
      fails (.inr nofun) halted
  unfold solve
  rw [show e.solve (m'.oracle dynVars) S.config.solver (s.boundVars e) s = _ from
    Prod.ext same worlds]
  rcases ran : e.solve (m.oracle dynVars) S.config.solver (s.boundVars e) s with
    ⟨halt | values | why, t⟩ <;> rw [ran] at further ended
  · exact ⟨rfl, fun cut => ended halt rfl (Except.error.inj cut), further⟩
  · exact ⟨rfl, nofun, level_of_same further rfl rfl⟩
  · exact ⟨rfl, nofun, level_of_same further rfl rfl⟩

end EvalM

namespace FrameM

omit machine in
theorem settles_session {P : Session → Prop} {act act' : EvalM α}
    (inside : SessionM.Settles P act act') : Settles P (session act) (session act') := by
  intro f s there
  obtain ⟨same, ended, further⟩ := inside s there
  rw [run_session, run_session, same]
  exact ⟨rfl, ended, further⟩

/-- What these machines evaluate is related part by part. -/
theorem settles_congruence : Congruence S m m' fun _ => Settles (Level envs depth) where
  pure _ _ _ level := ⟨rfl, nofun, level⟩
  read _ _ _ level := ⟨rfl, nofun, level⟩
  look looks := settles_session (SessionM.settles_looks looks)
  set_local _ _ _ _ level := ⟨rfl, nofun, level⟩
  equation _ _ _ level := ⟨rfl, nofun, level_of_same level rfl rfl⟩
  bind {α β act act' next next'} first rest f s level := by
    obtain ⟨same, ended, further⟩ := first f s level
    rw [run_bind, run_bind, same]
    rcases ran : act f s with ⟨⟨halt | x, g⟩, t⟩ <;> rw [ran] at ended further
    · exact ⟨rfl, fun cut => ended (by cases cut; rfl), further⟩
    · exact rest x g t further
  with_dyn_var var value inside f s level := by
    obtain ⟨same, ended, further⟩ := inside { f with dynVars := f.dynVars.set var value } s level
    unfold withDynVar
    rw [same]
    exact ⟨rfl, ended, further⟩
  call _ _ _ _ := settles_session (machine.call _ _ _ _)
  search _ _ _ _ := settles_session (machine.search _ _ _ _)
  solve e dynVars := settles_session (EvalM.solve_settles machine e dynVars)

/-- An expression is evaluated to the end. -/
theorem eval_settles (e : Expr) (frame : Frame) :
    SessionM.Settles (Level envs depth) (runIn frame (eval S m e))
      (runIn frame (eval S m' e)) := by
  intro s level
  obtain ⟨same, ended, further⟩ := (settles_congruence machine).eval_related e frame s level
  unfold runIn
  rw [same]
  exact ⟨rfl, ended, further⟩

end FrameM
end Evaluation

theorem internal_of_plain {l : Language} (plain : l.IsPlain) : l.IsInternal := by
  intro index i run found external
  have kept := plain index i found
  rw [external] at kept
  exact kept

/-! ## Calls, references and searches -/

section Activities
open Session
variable {S : Setting} {m m' : Machine} {envs depth limit : Nat}

namespace EvalM
open SessionM

/-- A body is run to its end by a machine that settles what is asked in it. -/
theorem body_settles (internal : S.language.IsInternal)
    (machine : m.Settles (Level envs depth) m') (kind : KindId) (index : Nat) (key : MemoKey) :
    Settles (Level envs depth) (bodyOf S m kind index key) (bodyOf S m' kind index key) := by
  rcases body_of_internal internal kind index key with ⟨fault, same⟩ | ⟨frame, e, same⟩
  · rw [same, same]
    exact settles_fail _
  · rw [same, same]
    exact FrameM.eval_settles machine e frame

/-- One call deeper there is one call less to go. -/
theorem deeper_settles {act act' : EvalM Value} (limited : 0 < limit)
    (inside : depth < limit → Settles (Level envs (depth + 1)) act act') :
    Settles (Level envs depth) (deeper limit act) (deeper limit act') := by
  intro s level
  by_cases within : depth < limit
  · have enters : s.Within limit := .inr (level.depth ▸ within)
    rw [deeper_eq enters, deeper_eq enters]
    obtain ⟨same, ended, further⟩ := inside within s.deeper
      ⟨level.size, level.direct, congrArg (· + 1) level.depth⟩
    rw [same]
    exact ⟨rfl, ended, further.size, further.direct, congrArg (· - 1) further.depth⟩
  · have refused : limit ≠ 0 ∧ limit ≤ s.depth := ⟨by omega, by rw [level.depth]; omega⟩
    unfold deeper
    rw [if_pos refused, if_pos refused]
    exact ⟨rfl, nofun, level⟩

theorem memoized_settles {act act' : EvalM Value} (name : String) (key : MemoKey)
    (inside : Settles (Level envs depth) act act') :
    Settles (Level envs depth) (memoized name key act) (memoized name key act') := by
  intro s level
  unfold memoized
  cases s.memo.done[key]? with
  | some value => exact ⟨rfl, nofun, level_of_same level rfl rfl⟩
  | none =>
    dsimp only
    split
    · exact ⟨rfl, nofun, level⟩
    · refine settles_bracket (fun _ there => ?_) inside (fun r _ there => ?_) s level
      · exact level_of_same there rfl rfl
      · cases r <;> exact level_of_same there rfl rfl

section Calls
variable (internal : S.language.IsInternal) (limited : 0 < S.config.maxCallDepth)
  (inside : depth < S.config.maxCallDepth → m.Settles (Level envs (depth + 1)) m')
include internal limited inside

theorem compute_settles (kind : KindId) (info : PropertyInfo) (index : Nat) (key : MemoKey) :
    Settles (Level envs depth) (compute S m kind info index key)
      (compute S m' kind info index key) := by
  refine settles_bind (deeper_settles limited fun within => ?_) fun value => ?_
  · exact body_settles internal (inside within) kind index key
  · exact settles_bind (settles_looks (expect_type_looks _ _ _)) fun _ => settles_pure _

/-- A call takes a machine for the calls that its body makes, if it comes to a body. -/
theorem call_with_settles (entity : Entity) (prop : PropId) (args : List Value)
    (dynVars : DynVars) :
    Settles (Level envs depth) (callWith S m entity prop args dynVars)
      (callWith S m' entity prop args dynVars) := by
  refine settles_map_error _ ?_
  unfold callUnclaimed
  refine settles_bind (settles_looks (node_looks _)) fun node => ?_
  dsimp only
  cases S.language.property? prop with
  | none => exact settles_fail _
  | some info =>
    -- Whether the call is refused is the same for both machines.
    refine settles_bind (settles_looks (check_args_looks _ _ _)) fun _ => ?_
    cases dynVars.restrict info.dynVars with
    | error var => exact settles_fail _
    | ok declared =>
      dsimp only
      cases S.language.dispatch node.kind prop with
      | none => exact settles_fail _
      | some found =>
        cases found with
        | missing => exact settles_fail _
        | runs index =>
          have computes := compute_settles internal limited inside node.kind info index
            ⟨prop, entity, args, declared⟩
          dsimp only
          split
          · exact memoized_settles _ _ computes
          · exact computes

end Calls

/-- A reference takes one call at most. -/
theorem resolve_with_settles (calls : m.SettlesCalls (Level envs depth) m') (env : EnvId)
    (index : Nat) :
    Settles (Level envs depth) (resolveWith S m env index) (resolveWith S m' env index) := by
  have forces (thunk : EnvThunk) (direct : thunk.IsDirect) :
      Settles (Level envs depth) (force S m thunk) (force S m' thunk) := by
    match thunk, direct with
    | .source (.env value), _ => exact settles_pure value
    | .source (.property entity prop), _ =>
      refine settles_bind (calls _ _ _ _) fun value => settles_map_error _ ?_
      cases value <;> first | exact settles_pure _ | exact settles_fail _
  intro s level
  rw [resolve_with_eq, resolve_with_eq]
  cases held : s.envs.reference? env index with
  | none => exact ⟨rfl, nofun, level⟩
  | some reference =>
    dsimp only
    cases reference.state with
    | resolved value => exact ⟨rfl, nofun, level⟩
    | resolving => exact ⟨rfl, nofun, level_of_same level rfl rfl⟩
    | unresolved =>
      refine settles_bracket (fun _ there => level_set_state there env index _)
        (forces reference.thunk (level.direct env index reference held)) (fun r _ there => ?_)
        s level
      cases r <;> exact level_set_state there env index _

theorem search_beyond_settles {P : Session → Prop} {q : LookupQuery} {visiting : List EnvId}
    {env : EnvId} (resolves : m.SettlesReferences P m')
    (searches : ∀ view found, Settles P (m.search q view visiting found)
      (m'.search q view visiting found)) (view : EnvValue) (found : Array Entity) :
    Settles P (searchBeyond m q view env visiting found)
      (searchBeyond m' q view env visiting found) := by
  have reads : Reads fun _ => Settles P := ⟨⟨settles_pure, settles_bind⟩, settles_read⟩
  refine settles_bind (settles_read _) fun count => ?_
  refine settles_bind (search_references_related reads m m' (resolves env) searches view count 0
    found) fun found => ?_
  split
  · exact settles_pure _
  · refine settles_bind (settles_read _) fun top => ?_
    cases top with
    | none => exact settles_pure _
    | some parent => exact searches _ found

/-- Beyond an environment that does not exist there is nothing. -/
theorem search_beyond_unknown {q : LookupQuery} {visiting : List EnvId} {env : EnvId} {s : Session}
    (unknown : s.envs.scope? env = none) (view : EnvValue) (found : Array Entity) :
    searchBeyond m q view env visiting found s = (.ok found, s) := by
  have none_ : s.envs.references env = #[] := by
    unfold EnvStore.references
    rw [unknown]
  have top : s.envs.parent env = none := by
    unfold EnvStore.parent
    rw [unknown]
    rfl
  unfold searchBeyond searchParent
  simp only [run_bind, run_read, none_, Array.size_empty, searchReferences, run_pure]
  split
  · rfl
  · rw [run_bind, run_read, top]
    rfl

/-- A search goes on in environments that exist and are not being searched yet. -/
theorem search_with_settles {q : LookupQuery} {visiting : List EnvId}
    (resolves : m.SettlesReferences (Level envs depth) m')
    (searches : ∀ env : EnvId, env.raw < envs → env ∉ visiting → ∀ view found,
      Settles (Level envs depth) (m.search q view (env :: visiting) found)
        (m'.search q view (env :: visiting) found))
    (view : EnvValue) (found : Array Entity) :
    Settles (Level envs depth) (searchWith m q view visiting found)
      (searchWith m' q view visiting found) := by
  intro s level
  rw [search_with_eq, search_with_eq]
  dsimp only
  split
  · exact ⟨rfl, nofun, level⟩
  · next goes =>
    split
    · exact ⟨rfl, nofun, level⟩
    · by_cases known : (view.rebindings.standIn view.env).raw < envs
      · have new : view.rebindings.standIn view.env ∉ visiting := by
          simp only [Bool.or_eq_true, List.contains_iff_mem, not_or] at goes
          exact goes.1.2
        exact search_beyond_settles resolves (searches _ known new) view _ s level
      · have unknown : s.envs.scope? (view.rebindings.standIn view.env) = none :=
          Array.getElem?_eq_none (by rw [← level.size] at known; exact Nat.le_of_not_lt known)
        rw [search_beyond_unknown unknown, search_beyond_unknown unknown]
        exact ⟨rfl, nofun, level⟩

end EvalM
end Activities

/-! ## The machine -/

namespace EnvStore

theorem unvisited_le (envs : EnvStore) (visiting : List EnvId) :
    envs.unvisited visiting ≤ envs.size :=
  (Finset.card_filter_le _ _).trans_eq (Finset.card_range _)

end EnvStore

/-- How deep activities are nested at most among so many environments, when so many calls
are allowed inside each other from here on. -/
def nestingBound (envs rest : Nat) : Nat := (rest + 1) * (envs + 3)

/-- What takes a machine for something that is settled from some depth of nesting on is
settled from the next one on. -/
theorem settled_one_deeper {enough : Nat} {settled : Nat → Nat → Prop}
    (step : ∀ n n', enough ≤ n → n ≤ n' → settled (n + 1) (n' + 1)) :
    ∀ n n', enough + 1 ≤ n → n ≤ n' → settled n n'
  | n + 1, n' + 1, deep, deeper =>
    step n n' (Nat.le_of_succ_le_succ deep) (Nat.le_of_succ_le_succ deeper)

section Machine
open Session EvalM
variable {S : Setting} {store : EnvStore} {depth enough : Nat}

/-- A search is nested once for each environment that is not being searched, and then takes
the resolution of a reference. -/
theorem search_settles
    (resolves : ∀ n n', enough ≤ n → n ≤ n' →
      (Machine.upTo S n).SettlesReferences (Level store.size depth) (.upTo S n'))
    (visiting : List EnvId) :
    ∀ n n', enough + store.unvisited visiting + 1 ≤ n → n ≤ n' → ∀ q view found,
      SessionM.Settles (Level store.size depth) ((Machine.upTo S n).search q view visiting found)
        ((Machine.upTo S n').search q view visiting found) := by
  refine settled_one_deeper fun n n' deep deeper q view found => ?_
  refine search_with_settles (resolves n n' (by omega) deeper) ?_ view found
  intro env known new view found
  -- The environment that the search has come to is now being searched as well.
  have fewer := EnvStore.unvisited_cons known new
  exact search_settles resolves (env :: visiting) n n' (by omega) deeper q view found
termination_by store.unvisited visiting

/-- Where calls come to an end, so does everything else that is asked of the machine. -/
theorem machine_settles_of_calls
    (calls : ∀ n n', enough ≤ n → n ≤ n' →
      (Machine.upTo S n).SettlesCalls (Level store.size depth) (.upTo S n'))
    (n n' : Nat) (deep : enough + store.size + 2 ≤ n) (deeper : n ≤ n') :
    (Machine.upTo S n).Settles (Level store.size depth) (.upTo S n') := by
  have resolves : ∀ n n', enough + 1 ≤ n → n ≤ n' →
      (Machine.upTo S n).SettlesReferences (Level store.size depth) (.upTo S n') :=
    settled_one_deeper fun n n' deep deeper => resolve_with_settles (calls n n' deep deeper)
  refine ⟨calls n n' (by omega) deeper, fun q view visiting found => ?_,
    resolves n n' (by omega) deeper⟩
  have few := store.unvisited_le visiting
  exact search_settles resolves visiting n n' (by omega) deeper q view found

/-- The induction is on how many calls are still allowed inside each other. -/
theorem machine_settles (internal : S.language.IsInternal) (limited : 0 < S.config.maxCallDepth)
    (store : EnvStore) (depth n n' : Nat)
    (deep : nestingBound store.size (S.config.maxCallDepth - depth) ≤ n) (deeper : n ≤ n') :
    (Machine.upTo S n).Settles (Level store.size depth) (.upTo S n') := by
  have calls : ∀ n n', (S.config.maxCallDepth - depth) * (store.size + 3) + 1 ≤ n → n ≤ n' →
      (Machine.upTo S n).SettlesCalls (Level store.size depth) (.upTo S n') := by
    refine settled_one_deeper fun n n' deep deeper => ?_
    refine call_with_settles internal limited fun within => ?_
    -- What the body asks for is settled one call deeper, where one call less is allowed.
    have less : S.config.maxCallDepth - depth = S.config.maxCallDepth - (depth + 1) + 1 := by omega
    rw [less] at deep
    exact machine_settles internal limited store (depth + 1) n n' deep deeper
  unfold nestingBound at deep
  rw [Nat.succ_mul] at deep
  exact machine_settles_of_calls calls n n' (by omega) deeper
termination_by S.config.maxCallDepth - depth

end Machine

/-! ## How many bodies are running -/

/-- Each body that is running was begun below the limit. -/
theorem bodies_within_limit {S : Setting} (limited : 0 < S.config.maxCallDepth)
    (point : Point S home running s) :
    running.countP (·.isBody) ≤ S.config.maxCallDepth := by
  induction point with
  | start pool bag => exact Nat.zero_le _
  | carried _ _ _ ih => exact ih
  | changed _ _ ih => exact ih
  | body before _ _ allowed _ | memoized before _ _ _ _ allowed _ =>
    have running := (point_mirrors before).depth
    rw [List.countP_cons_of_pos rfl]
    omega
  | thunk _ _ _ ih | load _ _ ih =>
    rw [List.countP_cons_of_neg Bool.false_ne_true]
    exact ih

/-! ## What is promised -/

/-- What a machine does from a session on comes to an end: one that goes so deep is not cut
short, all that go deeper do the same, and the session that it ends in is again of the kind. -/
def Setting.Finishes (S : Setting) (bound : Nat) (s : Session) (act : Machine → EvalM α) : Prop :=
  ∃ r t, r ≠ .error .exhausted ∧ t.Level s.envs.size s.depth ∧
    ∀ n, bound ≤ n → act (.upTo S n) s = (r, t)

theorem finishes_of_settles {S : Setting} {act : Machine → EvalM α} (direct : s.envs.IsDirect)
    (settles : ∀ n, bound ≤ n → SessionM.Settles (Session.Level s.envs.size s.depth)
      (act (.upTo S bound)) (act (.upTo S n))) :
    S.Finishes bound s act := by
  have level : s.Level s.envs.size s.depth := ⟨rfl, direct, rfl⟩
  obtain ⟨-, ended, further⟩ := settles bound (Nat.le_refl _) s level
  exact ⟨_, _, ended, further, fun n deep => (settles n deep s level).1⟩

/-- **Evaluation ends under a limit on the depth of calls.** Where all bodies are expressions
and all references are to environments that are given or the values of properties, every
call, lookup and solve comes to an end, whatever the limit and the budget of a solve. It is
nested no deeper than the number of environments and of the calls that are left allow. At
no point of any run are more bodies running than the limit says, and bodies are begun at
points only. -/
theorem evaluation_ends_under_limit {S : Setting} (internal : S.language.IsInternal)
    (limited : 0 < S.config.maxCallDepth) :
    (∀ s : Session, s.envs.IsDirect →
      let bound := nestingBound s.envs.size (S.config.maxCallDepth - s.depth)
      (∀ entity prop args dynVars, S.Finishes bound s (·.call entity prop args dynVars)) ∧
      (∀ view symbol require, S.Finishes bound s (·.lookup view symbol require)) ∧
      (∀ view symbol require, S.Finishes bound s (·.lookupFirst view symbol require)) ∧
      ∀ e dynVars, S.Finishes bound s (EvalM.solve S · e dynVars)) ∧
    ∀ home running s, Point S home running s →
      running.countP (·.isBody) ≤ S.config.maxCallDepth ∧
        ∀ m m', BeginsAtPoints S home running s m m' := by
  refine ⟨fun s direct => ?_, fun home running s point =>
    ⟨bodies_within_limit limited point, point_begins point⟩⟩
  intro bound
  have machine (n : Nat) (deep : bound ≤ n) :
      (Machine.upTo S bound).Settles (Session.Level s.envs.size s.depth) (.upTo S n) :=
    machine_settles internal limited s.envs s.depth bound n (Nat.le_refl _) deep
  refine ⟨fun entity prop args dynVars => ?_, fun view symbol require => ?_,
    fun view symbol require => ?_, fun e dynVars => ?_⟩
  · exact finishes_of_settles direct fun n deep => (machine n deep).call entity prop args dynVars
  · exact finishes_of_settles direct fun n deep => (machine n deep).search _ view [] #[]
  · exact finishes_of_settles direct fun n deep =>
      (machine n deep).lookup_first view symbol require
  · exact finishes_of_settles direct fun n deep => EvalM.solve_settles (machine n deep) e dynVars

/-- A symbol is looked up in an environment with a reference to what a property gives that
looks up the symbol there; and in a run a body is running that looks it up. -/
theorem evaluation_ends_under_limit_of_looped :
    let S : Setting := .probing ⟨1⟩ ⟨1⟩ ⟨2⟩ #[] .standard
    let limit := S.config.maxCallDepth
    let running : List Activity := [.body (some (.first ⟨0⟩))]
    S.language.IsInternal ∧ 0 < limit ∧ Session.looped.envs.IsDirect ∧
      S.Finishes (nestingBound 3 limit) .looped (·.lookup (.plain ⟨1⟩) ⟨1⟩ .empty) ∧
      ∃ s, Point S .ready running s ∧ running.countP (·.isBody) ≤ limit := by
  intro S limit running
  have internal : S.language.IsInternal := internal_of_plain plain_probing
  have limited : 0 < limit := by decide
  have direct : Session.looped.envs.IsDirect := by
    rintro ⟨_ | _ | _ | env⟩ (_ | index) r held <;> cases held
    trivial
  obtain ⟨ends, points⟩ := evaluation_ends_under_limit internal limited
  obtain ⟨-, looks, -⟩ := ends .looped direct
  let s := [Operation.newUnit "", .addNode ⟨0⟩ ⟨0⟩ [] .empty .dummy].foldl
    (Operation.run S (.upTo S 0)) (.new (.new none) .standard .ready)
  have start : Point S .ready [] (.new (.new none) .standard .ready) := .start _ _
  have made : Point S .ready [] s :=
    (start.carried (.newUnit "") 0).carried (.addNode ⟨0⟩ ⟨0⟩ [] .empty .dummy) 0
  obtain ⟨info, -, memoized_, called⟩ :=
    called_unbound ⟨1⟩ ⟨2⟩ ⟨1⟩ #[] .standard (s := s) rfl rfl
  have kept : (S.config.memoize && info.memoized) = true := by rw [memoized_]; rfl
  have point : Point S .ready running (s.enter (some (.first ⟨0⟩))) :=
    .memoized made called kept Std.HashMap.getElem?_empty Std.HashSet.not_mem_empty
      (.inr (by decide))
  exact ⟨internal, limited, direct, looks _ _ _, _, point, (points _ _ _ point).1⟩

end Trellis
