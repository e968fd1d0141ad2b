import Trellis.Proofs.Session.Typing
import Trellis.Proofs.Session.Visits
import Trellis.Proofs.Solver.Renaming

/-! Where failures come from. A failure leaves the calls that were entered and had not
returned when it arose, the innermost first, and nothing else on its way out touches it. To
say so it is left open what a call makes of a failure that it passes on: whatever that is, the
calls that the failure leaves are the same, and it has become what these calls have made of
it, one after the other. -/
namespace Trellis

/-! ## Calls that pass failures on -/

/-- What a call makes of a failure that it passes on. -/
abbrev Passing := NodeId × PropId → PropertyError → PropertyError

namespace Passing

/-- A call claims the failure, unless a call further in has done so. -/
def claiming : Passing := fun call e => e.claimedBy call.1 call.2

/-- What has become of a failure that has left these calls, the innermost first. -/
def along (g : Passing) (fault : Fault) (calls : List (NodeId × PropId)) : PropertyError :=
  calls.foldl (fun e call => g call e) (.of fault)

/-- A failure belongs to the first call that it has left. -/
theorem along_claiming (fault : Fault) (calls : List (NodeId × PropId)) :
    claiming.along fault calls = ⟨fault, calls.head?⟩ := by
  have claimed (site : NodeId × PropId) (outer : List (NodeId × PropId)) :
      outer.foldl (fun e call => claiming call e) ⟨fault, some site⟩ = ⟨fault, some site⟩ := by
    induction outer with
    | nil => rfl
    | cons _ outer ih => exact ih
  cases calls with
  | nil => rfl
  | cons call outer => exact claimed call outer

end Passing

/-- Call a property on an entity; a failure is passed on as `g` says. -/
def EvalM.callPassing (S : Setting) (g : Passing) (m : Machine) (entity : Entity) (prop : PropId)
    (args : List Value) (dynVars : DynVars) : EvalM Value :=
  (callUnclaimed S m entity prop args dynVars).mapError (g (entity.node, prop))

/-- The machine that follows activities nested up to a depth, and whose calls pass failures on
as `g` says. -/
def Machine.passing (S : Setting) (g : Passing) : (depth : Nat) → Machine
  | 0 => .exhausted
  | n + 1 =>
    let m := Machine.passing S g n
    ⟨EvalM.callPassing S g m, EvalM.searchWith m, EvalM.resolveWith S m⟩

/-- Where calls claim the failures that they pass on, the machine is the usual one. -/
theorem passing_claiming (S : Setting) (depth : Nat) :
    Machine.passing S .claiming depth = .upTo S depth := by
  induction depth with
  | zero => rfl
  | succ n ih =>
    rw [Machine.passing, ih]
    rfl

/-! ## Taking notes

A failure has room for one call only. So that the calls it has left can be compared, all of
them are written down there in one number. -/

instance (a : Arena) : Encodable (Handle a) := .ofLeftInverse Handle.raw (⟨·⟩) fun _ => rfl

/-- The calls that are written down in a failure. -/
def PropertyError.noted (e : PropertyError) : List (NodeId × PropId) :=
  (e.site.bind fun site => Encodable.decode site.1.raw).getD []

namespace Passing

/-- A call writes itself down after those that the failure has left already. -/
def noting : Passing := fun call e =>
  { e with site := some (⟨Encodable.encode (e.noted ++ [call])⟩, ⟨0⟩) }

theorem noted_noting (call : NodeId × PropId) (e : PropertyError) :
    (noting call e).noted = e.noted ++ [call] := by
  simp [PropertyError.noted, noting]

/-- What the calls that are written down would have made of the failure. -/
def read (g : Passing) (e : PropertyError) : PropertyError := g.along e.fault e.noted

theorem read_noting (g : Passing) (call : NodeId × PropId) (e : PropertyError) :
    g.read (noting call e) = g call (g.read e) := by
  unfold read
  rw [noted_noting, along, List.foldl_append]
  rfl

end Passing

/-! ## Sessions that evaluation does not leave -/

/-- A property that gives environments, if it is one at all. -/
def Language.GivesEnv (l : Language) (p : PropId) : Prop :=
  ∀ info, l.property? p = some info → info.returns = .env

/-- What may be a value of the property: if it gives environments, they alone. -/
def Language.MayGive (l : Language) (p : PropId) (v : Value) : Prop :=
  l.GivesEnv p → ∃ env, v = .env env

/-- The environment is given, or a property gives it that gives nothing else. -/
def EnvThunk.Refers (l : Language) : EnvThunk → Prop
  | .source (.env _) => True
  | .source (.property _ p) => l.GivesEnv p
  | .source (.unit _) | .custom _ => False

/-- A session in which references are to environments: what they refer to is given or the value
of a property that gives environments, and only environments are remembered of these. -/
structure Session.Referring (l : Language) (s : Session) : Prop where
  refers : ∀ env index r, s.envs.reference? env index = some r → r.thunk.Refers l
  remembered : ∀ (key : MemoKey) v, s.memo.done[key]? = some v → l.MayGive key.prop v

namespace Session
variable {l : Language} {s t : Session}

theorem referring_of_same (referring : s.Referring l) (envs : t.envs = s.envs)
    (memo : t.memo.done = s.memo.done) : t.Referring l where
  refers := envs ▸ referring.refers
  remembered := memo ▸ referring.remembered

theorem referring_set_state (referring : s.Referring l) (env : EnvId) (index : Nat)
    (state : RefState) : Referring l { s with envs := s.envs.setState env index state } where
  refers e i r held := by
    obtain ⟨old, there, same⟩ := EnvStore.thunk_of_set_state held
    exact same ▸ referring.refers e i old there
  remembered := referring.remembered

/-- A value that has passed the check of its type may be given. -/
theorem may_give_of_conforms (known : l.property? p = some info)
    (fits : s.conforms l info.returns v = true) : l.MayGive p v := by
  intro gives
  rw [gives info known] at fits
  cases v <;> first | exact ⟨_, rfl⟩ | cases fits

/-- What is remembered from now on is right. -/
theorem referring_finish (referring : s.Referring l) {key : MemoKey} {v : Value}
    (gives : l.MayGive key.prop v) :
    Referring l { s with memo := s.memo.finish key v } where
  refers := referring.refers
  remembered k x kept := by
    change (s.memo.done.insert key v)[k]? = some x at kept
    rw [Std.HashMap.getElem?_insert] at kept
    split at kept
    · next same =>
      cases kept
      exact eq_of_beq same ▸ gives
    · exact referring.remembered k x kept

end Session

/-! ## What two ways of passing failures on have in common -/

/-- The same interruption, with its failure under another name. -/
def Interrupt.map (f : ε → δ) : Interrupt ε → Interrupt δ
  | .failure cause => .failure (f cause)
  | .exhausted => .exhausted

/-- Wherever `P` holds, the second action does what the first one does and makes of its failure
what the calls written down there do according to `g`; `P` still holds afterwards, and what is
given is as `post` says. -/
def SessionM.Relays (P : Session → Prop) (g : Passing) (post : α → Prop) (act act' : EvalM α) :
    Prop :=
  ∀ s, P s → act' s = ((act s).1.mapError (Interrupt.map g.read), (act s).2) ∧ P (act s).2 ∧
    ∀ x, (act s).1 = .ok x → post x

/-- The same in whatever frame the actions run. -/
def FrameM.Relays (P : Session → Prop) (g : Passing) (act act' : FrameM α) : Prop :=
  ∀ f s, P s →
    act' f s = (((act f s).1.1.mapError (Interrupt.map g.read), (act f s).1.2), (act f s).2) ∧
      P (act f s).2

/-- The same of all that machines are asked for. A property that gives environments gives
nothing else. -/
structure Machine.Relays (l : Language) (g : Passing) (m m' : Machine) : Prop where
  call : ∀ entity prop args dynVars, SessionM.Relays (Session.Referring l) g
    (l.MayGive prop) (m.call entity prop args dynVars) (m'.call entity prop args dynVars)
  search : ∀ q view visiting found, SessionM.Relays (Session.Referring l) g (fun _ => True)
    (m.search q view visiting found) (m'.search q view visiting found)
  resolve : ∀ env index, SessionM.Relays (Session.Referring l) g (fun _ => True)
    (m.resolve env index) (m'.resolve env index)

namespace SessionM
variable {P Q : Session → Prop} {g : Passing} {post : α → Prop}

theorem relays_looks {act : EvalM α} (looks : act.Looks) :
    Relays P g (fun _ => True) act act := by
  intro s there
  obtain ⟨r, same⟩ := looks s
  rw [same]
  exact ⟨by cases r <;> rfl, there, fun _ _ => trivial⟩

theorem relays_pure {x : α} (held : post x) : Relays P g post (pure x) (pure x) := by
  rintro s there
  refine ⟨rfl, there, ?_⟩
  rintro _ ⟨⟩
  exact held

theorem relays_fail (fault : Fault) :
    Relays P g post (EvalM.fail fault : EvalM α) (EvalM.fail fault) :=
  fun _ there => ⟨rfl, there, nofun⟩

theorem relays_read (f : Session → α) :
    Relays P g (fun _ => True) (read f) (read f) :=
  relays_looks fun s => ⟨.ok (f s), rfl⟩

theorem relays_bind {after : β → Prop} {act act' : EvalM α} {next next' : α → EvalM β}
    (first : Relays P g post act act')
    (rest : ∀ x, post x → Relays P g after (next x) (next' x)) :
    Relays P g after (act >>= next) (act' >>= next') := by
  intro s there
  obtain ⟨same, further, gives⟩ := first s there
  rw [run_bind, run_bind, same]
  rcases ran : act s with ⟨halt | x, t⟩ <;> rw [ran] at further gives
  · exact ⟨rfl, further, nofun⟩
  · exact rest x (gives x rfl) t further

/-- What is done at the end does not depend on how the failure is called. -/
theorem relays_bracket {act act' : EvalM α} {before : Session → Session}
    {after : Except (Interrupt PropertyError) α → Session → Session}
    (enter : ∀ s, P s → Q (before s)) (inside : Relays Q g post act act')
    (leave : ∀ r s, Q s → (∀ x, r = .ok x → post x) → P (after r s))
    (unnamed : ∀ cause cause', after (.error cause) = after (.error cause')) :
    Relays P g post (bracket before act after) (bracket before act' after) := by
  intro s there
  obtain ⟨same, further, gives⟩ := inside (before s) (enter s there)
  have left := leave _ _ further gives
  unfold bracket
  rw [same]
  rcases ran : act (before s) with ⟨halt | x, t⟩ <;> rw [ran] at left gives
  · exact ⟨congrArg _ (congrFun (unnamed _ _) t), left, nofun⟩
  · exact ⟨rfl, left, gives⟩

/-- A call that passes its failures on. -/
theorem relays_passed {act act' : EvalM α} (call : NodeId × PropId)
    (inside : Relays P g post act act') :
    Relays P g post (act.mapError (Passing.noting call)) (act'.mapError (g call)) := by
  intro s there
  obtain ⟨same, further, gives⟩ := inside s there
  unfold mapError
  rw [same]
  rcases ran : act s with ⟨(cause | _) | x, t⟩ <;> rw [ran] at further gives
  · refine ⟨?_, further, nofun⟩
    show (Except.error (Interrupt.failure (g call (g.read cause))), t) =
      (Except.error (.failure (g.read (Passing.noting call cause))), t)
    rw [Passing.read_noting]
  · exact ⟨rfl, further, nofun⟩
  · exact ⟨rfl, further, gives⟩

end SessionM

/-! ## Solving and evaluation -/

section Evaluation
variable {S : Setting} {g : Passing} {m m' : Machine} (machine : m.Relays S.language g m')
include machine

namespace EvalM
open SessionM

/-- A question is a call whose answer has to be yes or no. -/
theorem oracle_relays (dynVars : DynVars) (q : Solver.Query Entity) :
    Relays (Session.Referring S.language) g (fun _ => True) (m.oracle dynVars q)
      (m'.oracle dynVars q) := by
  cases q with
  | unary p x =>
    refine relays_bind (machine.call x p.prop [] dynVars) fun v _ => ?_
    cases v <;> first | exact relays_pure trivial | exact relays_fail _
  | binary p x y =>
    refine relays_bind (machine.call x p.prop [.entity y] dynVars) fun v _ => ?_
    cases v <;> first | exact relays_pure trivial | exact relays_fail _

omit machine in
theorem interrupt_of_renamed (halt : Solver.Halt (Interrupt PropertyError)) :
    (halt.map (Interrupt.map g.read)).toInterrupt = halt.toInterrupt.map g.read := by
  cases halt <;> rfl

/-- A solve fails as one of its questions does, or because there are too many branches. -/
theorem solve_relays (e : Equation Entity) (dynVars : DynVars) :
    Relays (Session.Referring S.language) g (fun _ => True) (solve S m e dynVars)
      (solve S m' e dynVars) := by
  intro s referring
  obtain ⟨same, further⟩ := e.solve_renamed S.config.solver (s.boundVars e) referring
    fun q t there => ⟨(oracle_relays machine dynVars q t there).1,
      (oracle_relays machine dynVars q t there).2.1⟩
  unfold solve
  rw [same]
  rcases ran : e.solve (m.oracle dynVars) S.config.solver (s.boundVars e) s with
    ⟨halt | values | why, t⟩ <;> rw [ran] at further
  · refine ⟨?_, further, nofun⟩
    show (Except.error (halt.map (Interrupt.map g.read)).toInterrupt, t) = _
    rw [interrupt_of_renamed]
    rfl
  · exact ⟨rfl, Session.referring_of_same further rfl rfl, fun _ _ => trivial⟩
  · exact ⟨rfl, Session.referring_of_same further rfl rfl, fun _ _ => trivial⟩

end EvalM

namespace FrameM

omit machine in
theorem relays_session {P : Session → Prop} {post : α → Prop} {act act' : EvalM α}
    (inside : SessionM.Relays P g post act act') : Relays P g (session act) (session act') := by
  intro f s there
  obtain ⟨same, further, -⟩ := inside s there
  rw [run_session, run_session, same]
  exact ⟨rfl, further⟩

/-- What these machines evaluate is related part by part. -/
theorem relays_congruence :
    Congruence S m m' fun _ => Relays (Session.Referring S.language) g where
  pure _ _ _ there := ⟨rfl, there⟩
  read _ _ _ there := ⟨rfl, there⟩
  look looks := relays_session (SessionM.relays_looks looks)
  set_local _ _ _ _ there := ⟨rfl, there⟩
  equation _ _ _ there := ⟨rfl, Session.referring_of_same there rfl rfl⟩
  bind {α β act act' next next'} first rest f s there := by
    obtain ⟨same, further⟩ := first f s there
    rw [run_bind, run_bind, same]
    rcases ran : act f s with ⟨⟨halt | x, g⟩, t⟩ <;> rw [ran] at further
    · exact ⟨rfl, further⟩
    · exact rest x g t further
  with_dyn_var var value inside f s there := by
    obtain ⟨same, further⟩ := inside { f with dynVars := f.dynVars.set var value } s there
    unfold withDynVar
    rw [same]
    exact ⟨rfl, further⟩
  call _ _ _ _ := relays_session (machine.call _ _ _ _)
  search _ _ _ _ := relays_session (machine.search _ _ _ _)
  solve e dynVars := relays_session (EvalM.solve_relays machine e dynVars)

/-- An expression hands on the failures of what it asks for, and its own before any call claims
them. -/
theorem eval_relays (e : Expr) (frame : Frame) :
    SessionM.Relays (Session.Referring S.language) g (fun _ => True)
      (runIn frame (eval S m e)) (runIn frame (eval S m' e)) := by
  intro s there
  obtain ⟨same, further⟩ := (relays_congruence machine).eval_related e frame s there
  unfold runIn
  rw [same]
  exact ⟨rfl, further, fun _ _ => trivial⟩

end FrameM
end Evaluation

/-! ## Calls, references and searches -/

section Activities
variable {S : Setting} {g : Passing} {m m' : Machine}

namespace EvalM
open SessionM

theorem deeper_relays {post : Value → Prop} {l : Language} {act act' : EvalM Value} (limit : Nat)
    (inside : Relays (Session.Referring l) g post act act') :
    Relays (Session.Referring l) g post (deeper limit act) (deeper limit act') := by
  intro s there
  unfold deeper
  split
  · exact ⟨rfl, there, nofun⟩
  · refine relays_bracket (fun _ there => ?_) inside (fun _ _ there _ => ?_) (fun _ _ => rfl)
      s there
    · exact Session.referring_of_same there rfl rfl
    · exact Session.referring_of_same there rfl rfl

theorem memoized_relays {l : Language} {act act' : EvalM Value} (name : String) (key : MemoKey)
    (inside : Relays (Session.Referring l) g (l.MayGive key.prop) act act') :
    Relays (Session.Referring l) g (l.MayGive key.prop) (memoized name key act)
      (memoized name key act') := by
  intro s there
  unfold memoized
  cases known : s.memo.done[key]? with
  | some value =>
    refine ⟨rfl, Session.referring_of_same there rfl rfl, ?_⟩
    rintro _ ⟨⟩
    exact there.remembered key value known
  | none =>
    dsimp only
    split
    · exact ⟨rfl, there, nofun⟩
    · refine relays_bracket (fun _ there => ?_) inside (fun r _ there gives => ?_)
        (fun _ _ => rfl) s there
      · exact Session.referring_of_same there rfl rfl
      · cases r with
        | error halt => exact Session.referring_of_same there rfl rfl
        | ok value => exact Session.referring_finish there (gives value rfl)

section Calls
variable (internal : S.language.IsInternal) (machine : m.Relays S.language g m')
include internal machine

theorem body_relays (kind : KindId) (index : Nat) (key : MemoKey) :
    Relays (Session.Referring S.language) g (fun _ => True) (bodyOf S m kind index key)
      (bodyOf S m' kind index key) := by
  rcases body_of_internal internal kind index key with ⟨fault, same⟩ | ⟨frame, e, same⟩
  · rw [same, same]
    exact relays_fail fault
  · rw [same, same]
    exact FrameM.eval_relays machine e frame

/-- What is computed has passed the check of its type. -/
theorem compute_relays (kind : KindId) (info : PropertyInfo) (index : Nat) (key : MemoKey)
    (known : S.language.property? key.prop = some info) :
    Relays (Session.Referring S.language) g (S.language.MayGive key.prop)
      (compute S m kind info index key) (compute S m' kind info index key) := by
  refine relays_bind (deeper_relays _ (body_relays internal machine kind index key)) ?_
  intro value _ s there
  simp only [run_bind, expect_type_eq]
  cases fits : s.conforms S.language info.returns value with
  | false => exact ⟨rfl, there, nofun⟩
  | true =>
    refine ⟨rfl, there, ?_⟩
    rintro _ ⟨⟩
    exact Session.may_give_of_conforms known fits

/-- Whatever refuses a call and whatever fails in it leaves it. -/
theorem call_passing_relays (entity : Entity) (prop : PropId) (args : List Value)
    (dynVars : DynVars) :
    Relays (Session.Referring S.language) g (S.language.MayGive prop)
      (callPassing S .noting m entity prop args dynVars)
      (callPassing S g m' entity prop args dynVars) := by
  refine relays_passed _ ?_
  unfold callUnclaimed
  refine relays_bind (relays_looks (node_looks _)) fun node _ => ?_
  dsimp only
  cases known : S.language.property? prop with
  | none => exact relays_fail _
  | some info =>
    refine relays_bind (relays_looks (check_args_looks _ _ _)) fun _ _ => ?_
    cases dynVars.restrict info.dynVars with
    | error var => exact relays_fail _
    | ok declared =>
      dsimp only
      cases S.language.dispatch node.kind prop with
      | none => exact relays_fail _
      | some found =>
        cases found with
        | missing => exact relays_fail _
        | runs index =>
          have computes := compute_relays internal machine node.kind info index
            ⟨prop, entity, args, declared⟩ known
          dsimp only
          split
          · exact memoized_relays _ _ computes
          · exact computes

end Calls

section Rest
variable (machine : m.Relays S.language g m')
include machine

/-- The value of the property is an environment, so it is not refused after the call has
returned. -/
theorem force_relays {thunk : EnvThunk} (refers : thunk.Refers S.language) :
    Relays (Session.Referring S.language) g (fun _ => True) (force S m thunk)
      (force S m' thunk) := by
  match thunk, refers with
  | .source (.env value), _ => exact relays_pure trivial
  | .source (.property entity prop), gives =>
    refine relays_bind (machine.call _ _ _ _) fun value may => ?_
    obtain ⟨env, rfl⟩ := may gives
    exact relays_pure trivial

theorem resolve_with_relays (env : EnvId) (index : Nat) :
    Relays (Session.Referring S.language) g (fun _ => True) (resolveWith S m env index)
      (resolveWith S m' env index) := by
  intro s there
  rw [resolve_with_eq, resolve_with_eq]
  cases held : s.envs.reference? env index with
  | none => exact ⟨rfl, there, fun _ _ => trivial⟩
  | some reference =>
    dsimp only
    cases reference.state with
    | resolved value => exact ⟨rfl, there, fun _ _ => trivial⟩
    | resolving => exact ⟨rfl, Session.referring_of_same there rfl rfl, fun _ _ => trivial⟩
    | unresolved =>
      refine relays_bracket (fun _ there => Session.referring_set_state there env index _)
        (force_relays machine (there.refers env index reference held)) (fun r _ there _ => ?_)
        (fun _ _ => rfl) s there
      cases r <;> exact Session.referring_set_state there env index _

theorem search_with_relays (q : LookupQuery) (view : EnvValue) (visiting : List EnvId)
    (found : Array Entity) :
    Relays (Session.Referring S.language) g (fun _ => True) (searchWith m q view visiting found)
      (searchWith m' q view visiting found) := by
  have reads : Reads fun _ => Relays (Session.Referring S.language) g fun _ => True :=
    ⟨⟨fun _ => relays_pure trivial, fun first rest => relays_bind first fun x _ => rest x⟩,
      relays_read⟩
  exact search_with_related reads m m' machine.resolve (machine.search q) view visiting found

end Rest
end EvalM
end Activities

/-- However deeply activities are nested, what becomes of a failure is what the calls that it
has left make of it. The induction is on the depth; calls, searches and resolutions one level
further in are what the machine of that level is asked for. -/
theorem machine_relays (internal : S.language.IsInternal) (g : Passing) (depth : Nat) :
    (Machine.passing S .noting depth).Relays S.language g (.passing S g depth) := by
  induction depth with
  | zero =>
    exact ⟨fun _ _ _ _ _ there => ⟨rfl, there, nofun⟩, fun _ _ _ _ _ there => ⟨rfl, there, nofun⟩,
      fun _ _ _ there => ⟨rfl, there, nofun⟩⟩
  | succ n ih =>
    exact ⟨EvalM.call_passing_relays internal ih, EvalM.search_with_relays ih,
      EvalM.resolve_with_relays ih⟩

/-! ## Where a failure comes from -/

/-- The environment is given, or it is the value of a property that an environment
specification refers through. -/
def EnvThunk.IsSpecified (l : Language) : EnvThunk → Prop
  | .source (.env _) => True
  | .source (.property _ p) => ∃ spec ∈ l.envSpecs, ∃ nodes metadata rebind,
      .reference nodes p metadata rebind ∈ spec.spec.actions
  | .source (.unit _) | .custom _ => False

section Built
variable {S : Setting} {declarations : List Declaration}
  (built : (Builder.declare declarations).build = .ok S.language)
include built

/-- A language that is built refers through properties that give environments. -/
theorem refers_of_specified {thunk : EnvThunk} (specified : thunk.IsSpecified S.language) :
    thunk.Refers S.language := by
  match thunk, specified with
  | .source (.env _), _ => trivial
  | .source (.property _ p), specified =>
    obtain ⟨spec, listed, nodes, metadata, rebind, mem⟩ := specified
    have clean := ((Report.clean_append _ _).1 (Builder.built_action built listed mem)).2
    obtain ⟨info, known, -, gives, -⟩ := CheckContext.clean_reference_shape _ clean
    intro other same
    cases same.symm.trans known
    exact gives

theorem referring_of_point (point : Point S home running s)
    (specified : ∀ env index r, s.envs.reference? env index = some r →
      r.thunk.IsSpecified S.language) : s.Referring S.language where
  refers env index r held := refers_of_specified built (specified env index r held)
  remembered key v kept := by
    obtain ⟨info, known, fits⟩ := staged_typed (staged_of_point point) kept
    exact Session.may_give_of_conforms known fits

end Built

/-- A leaf refers to the environment of its scope, which cannot be told, and asks for that when
it looks something up. -/
def Builder.scopeless : Builder := .declare [
  .kind ⟨"Leaf", none, [], [], false, false, true, .caller⟩,
  .property ⟨⟨0⟩, "scope", [], .env, [], false, true, .expr (.raise "no scope"), .caller⟩,
  .property ⟨⟨0⟩, "found", [], .array (.entity ⟨0⟩), [], false, true,
    .expr (.envGet (.nodeEnv .self) (.text .self) false .empty), .caller⟩,
  .envSpec ⟨0⟩ ⟨[.reference .self ⟨0⟩ .empty none], .caller⟩]

/-- The setting of these declarations. -/
def Setting.scopeless : Setting where
  language := {
    kinds := #[⟨⟨0⟩, "Leaf", none, false, [], false, true, [], [⟨0⟩], .caller⟩]
    properties := #[
      ⟨⟨0⟩, "scope", ⟨0⟩, [], .env, [], false, true, [0], .caller⟩,
      ⟨⟨1⟩, "found", ⟨0⟩, [], .array (.entity ⟨0⟩), [], false, true, [1], .caller⟩]
    implementations := #[⟨⟨0⟩, ⟨0⟩, .expr (.raise "no scope"), .caller⟩,
      ⟨⟨1⟩, ⟨0⟩, .expr (.envGet (.nodeEnv .self) (.text .self) false .empty), .caller⟩]
    dynVars := #[]
    envSpecs := #[⟨⟨0⟩, ⟨[.reference .self ⟨0⟩ .empty none], .caller⟩⟩]
    metadata := none
    table := #[#[some (.runs 0), some (.runs 1)]]
    warnings := [] }
  config := .standard

/-- A session over one leaf, whose text is not empty. -/
def Session.scopelessLeaf : Session :=
  [Operation.newUnit "", .addNode ⟨0⟩ ⟨0⟩ [] ⟨1⟩ .dummy].foldl
    (Operation.run .scopeless .exhausted) (.new (.new none) .standard .ready)

/-- The session in which it is populated. -/
def Session.scopelessReady : Session := { Session.scopelessLeaf with
  tree := { Session.scopelessLeaf.tree with
    nodes := #[⟨⟨0⟩, [], none, ⟨0⟩, ⟨1⟩, .dummy, [], some ⟨⟨1⟩, ⟨1⟩⟩⟩]
    descending := by
      intro i n held c mem
      rcases i with _ | i <;> simp at held
      subst held
      exact (List.not_mem_nil mem).elim }
  envs := ⟨#[.opened none none, (Scope.opened none (some ⟨0⟩)).refer
    ⟨.source (.property (.bare ⟨0⟩) ⟨0⟩), .none, .unresolved⟩]⟩ }

theorem scopeless_populated :
    Operation.run .scopeless (.upTo .scopeless 0) .scopelessLeaf (.request (.populate ⟨0⟩)) =
      .scopelessReady := by
  have populated : populateWith .scopeless (.upTo .scopeless 0) ⟨0⟩ .scopelessLeaf =
      (.ok (), .scopelessReady) := by
    rw [populate_single _ _ rfl rfl rfl rfl, populate_node_eq]
    rfl
  show (EvalM.perform _ _ (.populate ⟨0⟩) _).2 = _
  rw [EvalM.perform, SessionM.run_bind, SessionM.map_error_of_ok populated]
  rfl

end Trellis
