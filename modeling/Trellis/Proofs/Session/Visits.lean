import Trellis.Proofs.Session.Frames
import Trellis.Proofs.Session.Ledger

/-! Which visits the activities of a session make, and how many of them they break off. In a
language whose bodies are expressions nothing goes on after a failure, so an activity that
succeeds has broken off no visit. One that fails has broken off at most the visit that it
makes itself and, where it was loading a unit, the visit of a node of that unit. -/
namespace Trellis

/-- How many visits are broken off. -/
def brokenOff (log : List Visit) : Nat := log.countP (!·.complete)

/-- How many visits may be broken off: none if all goes well, else `own` of the activity itself
and one of a unit that is loaded meanwhile. -/
def LoaderState.allowance (loader : LoaderState) (own : Nat) (ok : Bool) : Nat :=
  if ok then 0 else if loader = .ready then own + 1 else own

theorem LoaderState.allowance_mono (loader : LoaderState) (ok : Bool) :
    loader.allowance 0 ok ≤ loader.allowance 1 ok := by
  cases ok <;> cases loader <;> decide

theorem LoaderState.allowance_le (loader : LoaderState) (ok : Bool) :
    loader.allowance 1 ok ≤ 2 := by
  cases ok <;> cases loader <;> decide

/-- A failure leaves room for one more visit that is broken off. -/
theorem LoaderState.allowance_succ (loader : LoaderState) (ok : Bool) :
    loader.allowance 0 ok + 1 ≤ loader.allowance 1 false := by
  cases ok <;> cases loader <;> decide

/-- Between two histories nothing was added but by visits, and only so many of them were
broken off. -/
def Visits (S : Setting) (own : Nat) (ok : Bool) (h k : History) : Prop :=
  h.now.envs.Sourced → ∃ log, h.now.Ledger S k.now [] log ∧
    brokenOff log ≤ h.now.loader.allowance own ok

variable {S : Setting} {own depth : Nat}

theorem broken_off_append (first rest : List Visit) :
    brokenOff (first ++ rest) = brokenOff first + brokenOff rest := List.countP_append

theorem visits_of_eventless (quiet : Eventless S h k) : Visits S own ok h k :=
  fun _ => ⟨[], quiet, Nat.zero_le _⟩

/-- Eventless steps can follow whether or not there was a failure. -/
theorem visits_eventless (first : Visits S own ok h k) (quiet : Eventless S k l) :
    Visits S own ok h l := by
  intro sourced
  obtain ⟨log, ledger, few⟩ := first sourced
  refine ⟨log, ?_, few⟩
  simpa using Session.ledger_trans ledger quiet

instance : Trail (Visits S own) where
  refl _ h := visits_of_eventless (Track.refl h)
  trans first rest sourced := by
    obtain ⟨log, ledger, few⟩ := first sourced
    obtain ⟨later, ledger', few'⟩ := rest (ledger.sourced sourced)
    refine ⟨log ++ later, Session.ledger_trans ledger ledger', ?_⟩
    rw [broken_off_append, Nat.le_zero.1 few, Nat.zero_add, ← ledger.loader]
    exact few'

instance : Concludes (Visits S own) where
  equation _ _ _ := visits_of_eventless (Session.ledger_of_same rfl rfl rfl)
  solved S' _ e dynVars machine := EvalM.solve_ends machine
    (fun _ _ _ _ => visits_of_eventless
      (Session.ledger_of_tree ⟨(Tree.later_refl _).1, (Tree.later_refl _).2⟩ (fun _ => rfl) rfl
        rfl))
    (fun s _ code message location =>
      visits_of_eventless (Session.ledger_report s code message location)) S' e dynVars

namespace SessionM

theorem ends_of_eventless {act : SessionM ε α}
    (quiet : ∀ s : Session, s.Ledger S (act s).2 [] []) : Ends (Visits S own) act :=
  fun h => ⟨h.populated, visits_of_eventless (quiet h.now)⟩

theorem ends_between {act : SessionM ε α} {before : Session → Session}
    {after : Except (Interrupt ε) α → Session → Session}
    (enter : ∀ s : Session, s.Ledger S (before s) [] [])
    (leave : ∀ r (s : Session), s.Ledger S (after r s) [] [])
    (inside : Ends (Visits S own) act) : Ends (Visits S own) (bracket before act after) := by
  intro h
  have entered : Eventless S h ⟨before h.now, h.populated⟩ := enter h.now
  obtain ⟨populated, there⟩ := inside ⟨before h.now, h.populated⟩
  exact ⟨populated, visits_eventless (Trail.trans (visits_of_eventless entered) there) (leave _ _)⟩

theorem ends_more {act : SessionM ε α} (inside : Ends (Visits S 0) act) :
    Ends (Visits S 1) act := by
  intro h
  obtain ⟨populated, there⟩ := inside h
  refine ⟨populated, fun sourced => ?_⟩
  obtain ⟨log, ledger, few⟩ := there sourced
  exact ⟨log, ledger, Nat.le_trans few (LoaderState.allowance_mono _ _)⟩

end SessionM

/-! ## Running actions -/

namespace FrameM

/-- In a frame of the node `n` an operation adds what `P` says by whether it succeeds.
Everything else is added by visits. -/
def Supplies (S : Setting) (n : NodeId) (P : Bool → List Addition → Prop) (act : FrameM α) :
    Prop :=
  ∀ (f : Frame) (s : Session), f.entity = .bare n → s.envs.Sourced → ∃ own log,
    s.Ledger S (act f s).2 own log ∧ brokenOff log ≤ s.loader.allowance 0 (act f s).1.1.isOk ∧
    P (act f s).1.1.isOk own ∧ (act f s).1.2.entity = .bare n

/-- Nothing is added outside of visits. -/
def Nothing (_ : Bool) (own : List Addition) : Prop := own = []

/-- One thing is added, unless the operation fails. -/
def Just (a : Addition) (ok : Bool) (own : List Addition) : Prop := own = if ok then [a] else []

/-- The actions were run in their order, as far as that went, and what was added is what each
of them adds. -/
def InOrder (S : Setting) (n : NodeId) (actions : List EnvAction) (ok : Bool)
    (own : List Addition) : Prop :=
  ∃ ran added, ran <+: actions ∧ List.Forall₂ (EnvAction.Adds S n) ran added ∧
    own = added.flatten ∧ (ok = true → ran = actions)

variable {n : NodeId} {P P₁ P₂ : Bool → List Addition → Prop}

theorem supplies_of_ends {act : FrameM α} (ends : Ends (Visits S 0) act)
    (kept : ∀ f s, (act f s).1.2.entity = f.entity) : Supplies S n Nothing act := by
  intro f s own sourced
  obtain ⟨_, there⟩ := ends f ⟨s, []⟩
  obtain ⟨log, ledger, few⟩ := there sourced
  exact ⟨[], log, ledger, few, rfl, (kept f s).trans own⟩

/-- What is added by the second operation comes after what is added by the first one. -/
theorem supplies_bind {act : FrameM α} {next : α → FrameM β} (first : Supplies S n P₁ act)
    (rest : ∀ {f g s t x}, f.entity = .bare n → act f s = ((.ok x, g), t) →
      Supplies S n P₂ (next x))
    (stop : ∀ own, P₁ false own → P false own)
    (go : ∀ ok own more, P₁ true own → P₂ ok more → P ok (own ++ more)) :
    Supplies S n P (act >>= next) := by
  intro f s own sourced
  obtain ⟨added, log, ledger, few, holds, kept⟩ := first f s own sourced
  rw [run_bind]
  rcases ran : act f s with ⟨⟨halt | x, g⟩, t⟩ <;> simp only [ran] at ledger few holds kept ⊢
  · exact ⟨added, log, ledger, few, stop added holds, kept⟩
  · obtain ⟨more, later, ledger', few', holds', kept'⟩ :=
      rest own ran g t kept (ledger.sourced sourced)
    refine ⟨added ++ more, log ++ later, Session.ledger_trans ledger ledger', ?_,
      go _ added more holds holds', kept'⟩
    rw [broken_off_append, Nat.le_zero.1 few, Nat.zero_add, ← ledger.loader]
    exact few'

/-- An operation after one that adds nothing. -/
theorem supplies_after {act : FrameM α} {next : α → FrameM β} (first : Supplies S n Nothing act)
    (rest : ∀ {f g s t x}, f.entity = .bare n → act f s = ((.ok x, g), t) →
      Supplies S n P (next x)) (none_ : P false []) : Supplies S n P (act >>= next) := by
  refine supplies_bind first rest (fun own same => same ▸ none_) fun ok own more same holds => ?_
  rw [show own = [] from same]
  exact holds

theorem supplies_pure (x : α) : Supplies S n Nothing (pure x : FrameM α) :=
  supplies_of_ends (ends_pure x) fun _ _ => rfl

/-- The result can be put another way. -/
theorem supplies_map {act : FrameM α} (inside : Supplies S n P act) (g : α → β) :
    Supplies S n P (act >>= fun x => pure (g x)) := by
  intro f s own sourced
  have there := inside f s own sourced
  rw [run_bind]
  rcases ran : act f s with ⟨⟨halt | x, g⟩, t⟩ <;> rw [ran] at there <;> exact there

theorem supplies_weaken {act : FrameM α} (inside : Supplies S n P₁ act)
    (weaker : ∀ ok own, P₁ ok own → P ok own) : Supplies S n P act := by
  intro f s own sourced
  obtain ⟨added, log, ledger, few, holds, kept⟩ := inside f s own sourced
  exact ⟨added, log, ledger, few, weaker _ _ holds, kept⟩

theorem supplies_change {change : EnvStore → Except EnvError α × EnvStore} {a : Addition}
    (adds : ∀ s : EnvStore, s.Adds a (change s)) :
    Supplies S n (Just a) (session (EvalM.changeEnvs change)) :=
  fun _ s own _ => ⟨_, [], Session.ledger_change s (adds s.envs), Nat.zero_le _, rfl, own⟩

theorem supplies_reference (env : EnvId) (source : EnvSource) (crossing : Crossing) :
    Supplies S n (Just ⟨env, .reference source crossing⟩) (addReference env source crossing) :=
  supplies_map (supplies_change fun s => s.adds_reference env source crossing) _

/-! ## What each action adds -/

section Actions
variable (machine : (Machine.upTo S depth).Ends (Visits S 0))
include machine

theorem supplies_eval (e : Expr) : Supplies S n Nothing (eval S (.upTo S depth) e) :=
  supplies_of_ends (eval_ends S machine e) fun f s =>
    (eval_alters S _ e (List.Subset.refl _) f s).entity

theorem supplies_eval_env (e : Expr) : Supplies S n Nothing (evalEnv S (.upTo S depth) e) := by
  refine supplies_after (supplies_eval machine e) (fun {_ _ _ _ v} _ _ => supplies_map ?_ _) rfl
  exact supplies_of_ends (ends_expect_env v) fun _ _ => by cases v <;> rfl

theorem supplies_initial_env (ambient : EnvId) (actions : List EnvAction) :
    Supplies S n Nothing (initialEnv S (.upTo S depth) ambient actions) := by
  induction actions generalizing ambient with
  | nil => exact supplies_pure _
  | cons action rest ih =>
    cases action with
    | setInitialEnv e =>
      exact supplies_after (supplies_eval_env machine e) (fun _ _ => ih _) rfl
    | _ => exact ih ambient

theorem supplies_add_to_env (ambient : EnvId) (key value : Expr) (metadata : Metadata)
    (dest : Option Expr) :
    Supplies S n (fun _ => EnvAction.Adds S n (.addToEnv key value metadata dest))
      (addToEnv S (.upTo S depth) n ambient key value metadata dest) := by
  -- what is evaluated first adds nothing, and neither does a report or a failure
  have nothing {act : FrameM Unit} (quiet : Supplies S n Nothing act) :
      Supplies S n (fun _ => EnvAction.Adds S n (.addToEnv key value metadata dest)) act :=
    supplies_weaken quiet fun _ own none_ => (show own = [] from none_) ▸ .nothing
  have fails (expected : String) (found : Value) :
      Supplies S n Nothing (mismatch expected found : FrameM Unit) :=
    supplies_of_ends (ends_mismatch _ _) fun _ _ => rfl
  have noKey : Supplies S n Nothing (session (modify (Session.reportNullKey · n))) :=
    supplies_of_ends (ends_session (SessionM.ends_of_eventless fun s =>
      Session.ledger_report s _ _ _)) fun _ _ => rfl
  have bind (target : EnvId) (symbol : Symbol) (e : Entity) :
      Supplies S n (fun _ => EnvAction.Adds S n (.addToEnv key value metadata dest))
        (session (EvalM.changeEnvs (·.addBinding target symbol e metadata))) := by
    refine supplies_weaken (supplies_change fun s => s.adds_binding target symbol e metadata)
      fun ok own same => ?_
    rw [show own = _ from same]
    split
    · exact .binding target symbol e
    · exact .nothing
  unfold addToEnv
  refine supplies_after (supplies_eval machine key) (fun {_ _ _ _ k} _ _ => ?_) .nothing
  cases k with
  | null => exact nothing noKey
  | symbol symbol =>
    dsimp only
    split
    · exact nothing noKey
    · refine supplies_after (supplies_eval machine value) (fun {_ _ _ _ v} _ _ => ?_) .nothing
      cases v with
      | null => exact nothing (supplies_pure _)
      | entity e =>
        cases dest with
        | none => exact bind ambient symbol e
        | some dest =>
          refine supplies_after (supplies_eval machine dest) (fun {_ _ _ _ d} _ _ => ?_) .nothing
          cases d with
          | env target => exact bind target.env symbol e
          | _ => exact nothing (fails _ _)
      | _ => exact nothing (fails _ _)
  | _ => exact nothing (fails _ _)

omit machine in
/-- References are made to one target after the other. -/
theorem supplies_references (env : EnvId) (through : PropId) (crossing : Crossing)
    (targets : List Entity) :
    Supplies S n (fun _ own => ∃ i, own = (targets.take i).map fun e =>
        ⟨env, .reference (.property e through) crossing⟩)
      (targets.forM fun e => addReference env (.property e through) crossing) := by
  induction targets with
  | nil => exact supplies_weaken (supplies_pure _) fun _ own none_ => ⟨0, none_⟩
  | cons e rest ih =>
    refine supplies_bind (supplies_reference env (.property e through) crossing)
      (fun _ _ => ih) (fun own none_ => ⟨0, none_⟩) ?_
    rintro ok own more one ⟨i, rfl⟩
    rw [show own = _ from one]
    exact ⟨i + 1, rfl⟩

theorem supplies_run_action (ambient : EnvId) (action : EnvAction) :
    Supplies S n (fun _ => EnvAction.Adds S n action)
      (runAction S (.upTo S depth) n ambient action) := by
  have nothing {act : FrameM EnvId} (quiet : Supplies S n Nothing act) :
      Supplies S n (fun _ => EnvAction.Adds S n action) act :=
    supplies_weaken quiet fun _ own none_ => (show own = [] from none_) ▸ .nothing
  cases action with
  | setInitialEnv e => exact nothing (supplies_pure _)
  | addToEnv key value metadata dest =>
    exact supplies_map (supplies_add_to_env machine ambient key value metadata dest) _
  | addEnv =>
    exact nothing (supplies_of_ends (ends_session (SessionM.ends_of_eventless fun s =>
      Session.ledger_create s _ _)) fun _ _ => rfl)
  | reference nodes through metadata rebind =>
    have targets (v : Value) : Supplies S n Nothing (referenceTargets v) :=
      supplies_of_ends (by cases v <;> first | exact ends_pure _ | exact ends_fail _)
        fun _ _ => by cases v <;> rfl
    have refer {f g : Frame} {s t : Session} {found : List Entity} (own : f.entity = .bare n)
        (ran : (eval S (.upTo S depth) nodes >>= referenceTargets) f s = ((.ok found, g), t))
        (crossed : Option (EnvId × EnvId)) :
        Supplies S n (fun _ => EnvAction.Adds S n (.reference nodes through metadata rebind))
          (found.forM fun e => addReference ambient (.property e through) ⟨metadata, crossed⟩) :=
      supplies_weaken (supplies_references ambient through ⟨metadata, crossed⟩ found)
        fun _ _ ⟨i, same⟩ => same ▸ .references ambient crossed i own ran
    unfold runAction
    dsimp only
    -- the targets are what the expression gives, so the two steps belong together
    rw [← bind_assoc]
    refine supplies_after (supplies_after (supplies_eval machine nodes) (fun _ _ => targets _) rfl)
      (fun own ran => ?_) .nothing
    cases rebind with
    | none => exact supplies_map (refer own ran none) _
    | some pair =>
      refine supplies_after (supplies_eval_env machine pair.1) (fun _ _ => ?_) .nothing
      refine supplies_after (supplies_eval_env machine pair.2) (fun _ _ => ?_) .nothing
      exact supplies_map (refer own ran _) _
  | referenceUnit name =>
    refine supplies_map (supplies_weaken (supplies_reference ambient (.unit name) .none)
      fun ok own one => ?_) _
    rw [show own = _ from one]
    split
    · exact .unit ambient
    · exact .nothing

theorem supplies_run_actions (ambient : EnvId) (actions : List EnvAction) :
    Supplies S n (InOrder S n actions)
      (actions.foldlM (runAction S (.upTo S depth) n) ambient) := by
  induction actions generalizing ambient with
  | nil =>
    exact supplies_weaken (supplies_pure _) fun _ own none_ =>
      ⟨[], [], List.nil_prefix, .nil, none_, fun _ => rfl⟩
  | cons action rest ih =>
    rw [List.foldlM_cons]
    refine supplies_bind (supplies_run_action machine ambient action) (fun _ _ => ih _)
      (fun own adds => ⟨[action], [own], ?_, .cons adds .nil, by simp, nofun⟩) ?_
    · exact List.cons_prefix_cons.2 ⟨rfl, List.nil_prefix⟩
    · rintro ok own more adds ⟨ran, added, part, each, rfl, whole⟩
      exact ⟨action :: ran, own :: added, List.cons_prefix_cons.2 ⟨rfl, part⟩, .cons adds each, rfl,
        fun ok => by rw [whole ok]⟩

end Actions
end FrameM

/-! ## Visiting nodes -/

section Nodes
open SessionM
variable (machine : (Machine.upTo S depth).Ends (Visits S 0))
include machine

/-- The actions of a node, as a visit that is not finished yet. -/
theorem envs_from_supplies (n : NodeId) (kind : KindId) (ambient : EnvId) (s : Session)
    (sourced : s.envs.Sourced) : ∃ ran added log,
      s.Ledger S (envsFrom S (.upTo S depth) n kind ambient s).2 added.flatten log ∧
      brokenOff log ≤
        s.loader.allowance 0 (envsFrom S (.upTo S depth) n kind ambient s).1.isOk ∧
      ran <+: S.actions kind ∧ List.Forall₂ (EnvAction.Adds S n) ran added ∧
      ((envsFrom S (.upTo S depth) n kind ambient s).1.isOk → ran = S.actions kind) := by
  unfold envsFrom Setting.actions
  cases S.language.envSpec kind with
  | none =>
    exact ⟨[], [], [], Session.ledger_refl s, Nat.zero_le _, List.nil_prefix, .nil, fun _ => rfl⟩
  | some spec =>
    dsimp only
    unfold PopulateM.ofEval
    rw [map_error_state, map_error_is_ok]
    have supplies : FrameM.Supplies S n (FrameM.InOrder S n spec.spec.actions) (do
        let own ← initialEnv S (.upTo S depth) ambient spec.spec.actions
        let inner ← spec.spec.actions.foldlM (runAction S (.upTo S depth) n) own
        return (⟨own, inner⟩ : NodeEnvs)) :=
      FrameM.supplies_after (FrameM.supplies_initial_env machine ambient _)
        (fun _ _ => FrameM.supplies_map (FrameM.supplies_run_actions machine _ _) _)
        ⟨[], [], List.nil_prefix, .nil, rfl, nofun⟩
    obtain ⟨own, log, ledger, few, ⟨ran, added, part, each, same, whole⟩, -⟩ :=
      supplies (.new (.bare n) [] .none spec.spec.frameSize) s rfl sourced
    exact ⟨ran, added, log, same ▸ ledger, few, part, each, whole⟩

/-- The visit of a node that is broken off, by one of its actions or because the node has
received its environments in the meantime. -/
theorem visits_broken {h : History} {node : Node} (held : h.now.tree.node? n = some node)
    (ran : envsFrom S (.upTo S depth) n node.kind ambient h.now = (r, t)) :
    Visits S 1 false h ⟨t, populated⟩ := by
  intro sourced
  obtain ⟨acts, added, log, ledger, few, part, each, -⟩ :=
    envs_from_supplies machine n node.kind ambient h.now sourced
  rw [ran] at ledger few
  obtain ⟨after, still, same⟩ := ledger.tree.nodes n.raw node held
  let visit : Visit := ⟨n, added, false⟩
  have fits : visit.Fits S t.tree := ⟨after, acts, still, same.kind ▸ part, each, nofun⟩
  refine ⟨log ++ [visit], Session.ledger_broken ledger fits rfl, ?_⟩
  have one : brokenOff [visit] = 1 := rfl
  rw [broken_off_append, one]
  exact Nat.le_trans (Nat.succ_le_succ few) (LoaderState.allowance_succ _ _)

/-- The visit of a node that is given its environments. -/
theorem visits_complete {h : History} {node : Node} (held : h.now.tree.node? n = some node)
    (ran : envsFrom S (.upTo S depth) n node.kind ambient h.now = (.ok found, t))
    (given : t.tree.setEnvs n found = .ok tree) :
    Visits S 1 true h ⟨{ t with tree }, populated⟩ := by
  intro sourced
  obtain ⟨acts, added, log, ledger, few, part, each, whole⟩ :=
    envs_from_supplies machine n node.kind ambient h.now sourced
  rw [ran] at ledger few whole
  obtain ⟨after, still, same⟩ := ledger.tree.nodes n.raw node held
  let visit : Visit := ⟨n, added, true⟩
  have fits : visit.Fits S t.tree :=
    ⟨after, acts, still, same.kind ▸ part, each, fun _ => same.kind ▸ whole rfl⟩
  refine ⟨log ++ [visit], Session.ledger_complete ledger fits rfl given, ?_⟩
  rw [broken_off_append]
  exact few

theorem populate_node_ends (n : NodeId) (ambient : EnvId) :
    Ends (Visits S 1) (populateNode S (.upTo S depth) n ambient) := by
  intro h
  rw [populate_node_eq]
  cases found : h.now.tree.node n with
  | error e => exact ⟨h.populated, Trail.refl _ h⟩
  | ok node =>
    have held : h.now.tree.node? n = some node := by
      unfold Tree.node at found
      cases held : h.now.tree.node? n <;> rw [held] at found <;> cases found
      rfl
    dsimp only
    rcases ran : envsFrom S (.upTo S depth) n node.kind ambient h.now with ⟨halt | envs, t⟩
    · exact ⟨h.populated, visits_broken machine held ran⟩
    · dsimp only
      cases given : t.tree.setEnvs n envs with
      | error e => exact ⟨h.populated, visits_broken machine held ran⟩
      | ok tree =>
        have children : Ends (Visits S 1) ((h.now.tree.childrenOf n).forM
            fun c => populateNode S (.upTo S depth) c.1 envs.inner) :=
          ends_for fun c _ => populate_node_ends c.1 envs.inner
        obtain ⟨populated, there⟩ := children ⟨{ t with tree }, h.populated⟩
        exact ⟨populated, Trail.trans (visits_complete machine held ran given) there⟩
termination_by n.raw
decreasing_by exact c.2

theorem populate_with_ends (root : NodeId) :
    Ends (Visits S 1) (populateWith S (.upTo S depth) root) := by
  intro h
  rw [populate_with_eq]
  rcases h.now.tree.firstPopulated root with e | (_ | n)
  · exact ⟨h.populated, Trail.refl _ h⟩
  · dsimp only
    cases h.now.tree.node root with
    | error e => exact ⟨h.populated, Trail.refl _ h⟩
    | ok node =>
      dsimp only
      cases h.now.tree.aroundEnv node with
      | some env => exact populate_node_ends machine root env h
      | none =>
        obtain ⟨populated, there⟩ := populate_node_ends machine root
          (h.now.openTop root node.unit).1 ⟨(h.now.openTop root node.unit).2, h.populated⟩
        have opened : Eventless S h ⟨(h.now.openTop root node.unit).2, h.populated⟩ :=
          Session.ledger_open_top h.now root node.unit
        exact ⟨populated, Trail.trans (visits_of_eventless opened) there⟩
  · exact ⟨h.populated, visits_of_eventless (Session.ledger_report _ _ _ _)⟩

end Nodes

/-! ## The machine -/

/-- A language in which no body is external code. -/
def Language.IsInternal (l : Language) : Prop :=
  ∀ index i run, l.implementation? index = some i → i.body ≠ .external run

/-- Then a body is an expression, or there is none to run. -/
theorem EvalM.body_of_internal {S : Setting} (internal : S.language.IsInternal) (kind : KindId)
    (index : Nat) (key : MemoKey) :
    (∃ fault, ∀ m, bodyOf S m kind index key = fail fault) ∨
      ∃ frame e, ∀ m, bodyOf S m kind index key = FrameM.runIn frame (eval S m e) := by
  unfold bodyOf
  cases found : S.language.implementation? index with
  | none => exact .inl ⟨_, fun _ => rfl⟩
  | some i =>
    dsimp only
    unfold runBody
    cases body : i.body with
    | expr e => exact .inr ⟨_, e, fun _ => rfl⟩
    | external run => exact (internal index i run found body).elim
    | abstract _ => exact .inl ⟨_, fun _ => rfl⟩
    | pending => exact .inl ⟨_, fun _ => rfl⟩

namespace EvalM
open SessionM

theorem deeper_ends {act : EvalM Value} (limit : Nat) (inside : Ends (Visits S own) act) :
    Ends (Visits S own) (deeper limit act) := by
  intro h
  unfold deeper
  split
  · exact ⟨h.populated, Trail.refl _ h⟩
  · refine ends_between ?_ ?_ inside h
    · exact fun _ => Session.ledger_of_same rfl rfl rfl
    · exact fun _ _ => Session.ledger_of_same rfl rfl rfl

theorem memoized_ends {act : EvalM Value} (name : String) (key : MemoKey)
    (inside : Ends (Visits S own) act) : Ends (Visits S own) (memoized name key act) := by
  intro h
  unfold memoized
  split
  · exact ⟨h.populated, visits_of_eventless (Session.ledger_of_same rfl rfl rfl)⟩
  · split
    · exact ⟨h.populated, Trail.refl _ h⟩
    · refine ends_between ?_ (fun r s => ?_) inside h
      · exact fun _ => Session.ledger_of_same rfl rfl rfl
      · cases r <;> exact Session.ledger_of_same rfl rfl rfl

theorem resolving_ends {act : EvalM EnvValue} (env : EnvId) (index : Nat)
    (inside : Ends (Visits S own) act) : Ends (Visits S own) (resolving env index act) := by
  refine ends_between (fun s => Session.ledger_set_state s env index _) (fun r s => ?_) inside
  cases r <;> exact Session.ledger_set_state s env index _

/-- While a unit is loaded no other one is, so that what breaks off there is the one visit that
is allowed to the activity that loads it. -/
theorem loading_ends {act : EvalM UnitId} (inside : Ends (Visits S 1) act) (h : History)
    (ready : h.now.loader = .ready) :
    ∃ populated, Visits S 0 (loading act h.now).1.isOk h ⟨(loading act h.now).2, populated⟩ := by
  have room (ok : Bool) :
      LoaderState.loading.allowance 1 ok ≤ LoaderState.ready.allowance 0 ok := by
    cases ok <;> decide
  obtain ⟨populated, there⟩ := inside ⟨{ h.now with loader := .loading }, h.populated⟩
  refine ⟨populated, fun sourced => ?_⟩
  obtain ⟨log, ledger, few⟩ := there sourced
  refine ⟨log, ⟨ledger.tree, ready.symm, ledger.sourced, ledger.tally, ledger.populations,
    ledger.fits⟩, Nat.le_trans few ?_⟩
  rw [ready]
  exact room _

section Activities
variable (internal : S.language.IsInternal) (machine : (Machine.upTo S depth).Ends (Visits S 0))
include machine

theorem make_unit_ends (name : Symbol) : Ends (Visits S 1) (makeUnit S (.upTo S depth) name) := by
  rw [make_unit_eq]
  refine ends_bind (fun h => ⟨h.populated, visits_of_eventless (prepare_builds name h.now)⟩)
    fun (u, root) => ?_
  refine ends_bind (ends_node root) fun node => ?_
  split
  · exact ends_bind (ends_map_error _ (populate_with_ends machine root)) fun _ => ends_pure _
  · exact ends_pure _

theorem load_unit_ends (name : Symbol) : Ends (Visits S 0) (loadUnit S (.upTo S depth) name) := by
  unfold loadUnit
  refine ends_bind (ends_read _) fun found => ?_
  split
  · exact ends_pure _
  · intro h
    rw [run_bind, run_read]
    dsimp only
    cases state : h.now.loader with
    | ready => exact loading_ends (make_unit_ends machine name) h state
    | _ => exact ends_bind (ends_read _) (fun _ => ends_fail _) h

theorem force_ends (source : EnvSource) :
    Ends (Visits S 0) (force S (.upTo S depth) (.source source)) := by
  have environment (v : Value) : Ends (Visits S 0) (expectEnv v) := by
    cases v <;> first | exact ends_pure _ | exact ends_fail _
  cases source with
  | env value => exact ends_pure _
  | property entity prop =>
    exact ends_bind (machine.call _ _ _ _) fun v => ends_map_error _ (environment v)
  | unit name =>
    exact ends_bind (load_unit_ends machine name) fun _ =>
      ends_bind (ends_read _) fun v => environment v

theorem resolve_with_ends (env : EnvId) (index : Nat) :
    Ends (Visits S 0) (resolveWith S (.upTo S depth) env index) := by
  intro h
  rw [resolve_with_eq]
  cases held : h.now.envs.reference? env index with
  | none => exact ⟨h.populated, Trail.refl _ h⟩
  | some reference =>
    dsimp only
    cases state : reference.state with
    | unresolved =>
      refine ⟨h.populated, fun sourced => ?_⟩
      obtain ⟨source, same⟩ := sourced env index reference held
      dsimp only
      rw [same]
      obtain ⟨_, there⟩ := resolving_ends env index (force_ends machine source) h
      exact there sourced
    | resolving => exact ⟨h.populated, visits_of_eventless (Session.ledger_report _ _ _ _)⟩
    | resolved value => exact ⟨h.populated, Trail.refl _ h⟩

include internal

theorem body_of_ends (kind : KindId) (index : Nat) (key : MemoKey) :
    Ends (Visits S 0) (bodyOf S (.upTo S depth) kind index key) := by
  rcases body_of_internal internal kind index key with ⟨fault, same⟩ | ⟨frame, e, same⟩
  · rw [same]
    exact ends_fail _
  · rw [same]
    exact FrameM.ends_run_in frame (FrameM.eval_ends S machine e)

theorem compute_ends (kind : KindId) (info : PropertyInfo) (index : Nat) (key : MemoKey) :
    Ends (Visits S 0) (compute S (.upTo S depth) kind info index key) := by
  refine ends_bind (deeper_ends _ (body_of_ends internal machine kind index key)) fun value => ?_
  refine ends_bind (ends_still fun s => ?_) fun _ => ends_pure _
  rw [expect_type_eq]
  split <;> rfl

theorem call_with_ends (entity : Entity) (prop : PropId) (args : List Value) (dynVars : DynVars) :
    Ends (Visits S 0) (callWith S (.upTo S depth) entity prop args dynVars) := by
  intro h
  rcases call_with_cases S (.upTo S depth) entity prop args dynVars h.now with ⟨e, ran⟩ | found
  · exact ⟨h.populated, by rw [ran]; exact Trail.refl _ h⟩
  · obtain ⟨declared, node, info, index, -, ran⟩ := found
    rw [ran]
    refine ends_map_error _ ?_ h
    unfold answer
    split
    · exact memoized_ends _ _ (compute_ends internal machine _ _ _ _)
    · exact compute_ends internal machine _ _ _ _

end Activities
end EvalM

/-- However deeply its activities are nested, the machine breaks off no visit if it succeeds. -/
theorem machine_ends (internal : S.language.IsInternal) (depth : Nat) :
    (Machine.upTo S depth).Ends (Visits S 0) := by
  induction depth with
  | zero =>
    exact ⟨fun _ _ _ _ => SessionM.ends_exhausted, fun _ _ _ _ => SessionM.ends_exhausted,
      fun _ _ => SessionM.ends_exhausted⟩
  | succ depth ih =>
    exact ⟨EvalM.call_with_ends internal ih, EvalM.search_with_ends ih, EvalM.resolve_with_ends ih⟩

end Trellis
