import Trellis.Proofs.Session.Onward
import Trellis.Proofs.Session.Uncached

/-! A run looked back upon. A result was remembered in the middle of a run; here it is
held against an evaluation without memory at the end of the run. Between the two,
environments can have received bindings and references, and a reference that was taken
for empty because it depended on itself can have been resolved. What is said here is
what a run has to keep for the results that it remembers to be right in the end. -/
namespace Trellis

open Filter

/-- Whether a search for a symbol finds the same in an environment of two stores, and is
led on to the same environments. -/
def EnvStore.agrees (s t : EnvStore) (env : EnvId) (symbol : Symbol) : Bool :=
  t.newestFirst env symbol = s.newestFirst env symbol &&
    (t.references env).size = (s.references env).size && t.parent env = s.parent env

theorem EnvStore.agrees_iff {s t : EnvStore} {env : EnvId} {symbol : Symbol} :
    s.agrees t env symbol = true ↔ t.newestFirst env symbol = s.newestFirst env symbol ∧
      (t.references env).size = (s.references env).size ∧ t.parent env = s.parent env := by
  simp [agrees, and_assoc]

/-- What did not change from one store to a later one did not change on the way. -/
theorem EnvStore.agrees_between {r s t : EnvStore} (before : r.Later s) (after : s.Later t)
    (agrees : r.agrees t env symbol = true) : s.agrees t env symbol = true := by
  obtain ⟨bindings, count, parent⟩ := agrees_iff.1 agrees
  refine agrees_iff.2 ⟨?_, ?_, ?_⟩
  · have up := (newest_first_later before env symbol).length_le
    have further := newest_first_later after env symbol
    have most := further.length_le
    refine (further.eq_of_length ?_).symm
    rw [bindings] at most ⊢
    exact Nat.le_antisymm most up
  · have up := references_later before env
    have further := references_later after env
    omega
  · cases known : s.parent env with
    | some p => exact parent_later after known
    | none =>
      cases end_ : t.parent env with
      | none => rfl
      | some p =>
        rw [end_] at parent
        rw [parent_later before parent.symm] at known
        cases known

/-- The message about a reference that depends on itself. -/
def cycleMessage (env : EnvId) (index : Nat) : String :=
  "referenced environment " ++ toString index ++ " of " ++ env.text ++ " depends on itself"

namespace Session

/-- Whether it can be that between `s` and `t` a reference was found to depend on
itself: that is reported, or some report was dropped. -/
def cycled (s t : Session) (env : EnvId) (index : Nat) : Bool :=
  s.bag.dropped < t.bag.dropped ||
    t.bag.kept.any fun d => d.code = .K2002 && d.message = cycleMessage env index

/-- Whether whoever asked for the environment behind a reference between `s` and `t`
was given the one that is behind it at `t`. -/
def lasting (s t : Session) (env : EnvId) (index : Nat) : Bool :=
  match t.envs.state? env index with
  | none => true
  | some (.resolved value) =>
    s.envs.state? env index = some (.resolved value) || value = .empty || !s.cycled t env index
  | some _ => false

end Session

/-- Some lookups are allowed, and references whose environments are lasting. -/
def Confinement.lasting (s t : Session) (search : EnvId → Symbol → Bool) : Confinement where
  search _ env symbol := search env symbol
  resolve _ env index := s.lasting t env index

theorem settled_lasting (s t : Session) (search : EnvId → Symbol → Bool) :
    (Confinement.lasting s t search).Settled t := by
  intro env index reference allowed held
  have known : t.envs.state? env index = some reference.state := by rw [EnvStore.state?, held]; rfl
  simp only [Confinement.lasting, Session.lasting, known] at allowed
  cases state : reference.state with
  | resolved value => exact ⟨value, rfl⟩
  | _ => simp [state] at allowed

/-- A run looked back upon: where it began and where it ended, what it could look up
and when, the lookups that evaluations in the end may make, and the fault by which they
give up when they come to others. -/
structure Review where
  setting : Setting
  first : Session
  last : Session
  watch : Confinement
  search : EnvId → Symbol → Bool
  fault : Fault

namespace Review
variable (V : Review)

/-- The machine of the run. -/
def run (n : Nat) : Machine := .confined V.setting V.watch .exhausted n

/-- The machine that evaluates without memory, and looks only at what lasts. -/
def machine (k : Nat) : Machine :=
  .confined (V.setting.uncached 0) (.lasting V.first V.last V.search) (.failure (.of V.fault)) k

/-- The end of the run, with some number of calls running. -/
def atEnd (depth : Nat) : Session := { V.last with depth }

/-- In the end evaluations come to a result and change nothing, or they give up. -/
def Gives (acts : ℕ → EvalM α) (x : α) (depth : Nat) : Prop :=
  (∀ᶠ k in atTop, acts k (V.atEnd depth) = (.ok x, V.atEnd depth)) ∨
    ∀ᶠ k in atTop, ∃ e z, e.fault = V.fault ∧ acts k (V.atEnd depth) = (.error (.failure e), z)

/-- In the end evaluations without memory come to the value, or they give up. -/
def Confirms (key : MemoKey) (value : Value) : Prop :=
  ∀ depth, V.Gives (fun k => (V.machine k).ask key) value depth

/-- Every result that a session remembers is confirmed in the end. -/
def Sound (u : Session) : Prop :=
  ∀ key value, u.memo.done[key]? = some value → V.Confirms key value

/-- Sessions on the way: the later one has the same marks, and if all that was
remembered before is confirmed, so is all that is remembered now. -/
structure Keeps (u v : Session) : Prop where
  marks : u.SameMarks v
  onward : u.Onward v
  sound : V.first.Onward u → v.Onward V.last → V.Sound u → V.Sound v

variable {V} {u v w : Session}

/-- What moves on without remembering anything keeps results sound. -/
theorem keeps_of_frame (marks : u.SameMarks v) (onward : u.Onward v)
    (done : v.memo.done = u.memo.done) : V.Keeps u v :=
  ⟨marks, onward, fun _ _ sound key value held => sound key value (by rwa [done] at held)⟩

theorem keeps_refl (u : Session) : V.Keeps u u :=
  keeps_of_frame (Session.same_marks_refl u) (Session.onward_refl u) rfl

theorem keeps_trans (one : V.Keeps u v) (two : V.Keeps v w) : V.Keeps u w where
  marks := Session.same_marks_trans one.marks two.marks
  onward := Session.onward_trans one.onward two.onward
  sound before after sound := two.sound (Session.onward_trans before one.onward) after
    (one.sound before (Session.onward_trans two.onward after) sound)

/-- What is done between two changes that remember nothing. -/
theorem keeps_between (before after : Session) (marks : u.SameMarks v) (enter : u.Onward before)
    (asked : before.memo.done = u.memo.done) (inside : V.Keeps before after)
    (leave : after.Onward v) (left : v.memo.done = after.memo.done) : V.Keeps u v := by
  refine ⟨marks, Session.onward_trans enter (Session.onward_trans inside.onward leave), ?_⟩
  intro first last sound key value held
  rw [left] at held
  refine inside.sound (Session.onward_trans first enter) (Session.onward_trans leave last) ?_
    key value held
  intro key value held
  rw [asked] at held
  exact sound key value held

theorem deeper_keeps {act : EvalM Value} (limit : Nat) (inside : ∀ s, V.Keeps s (act s).2)
    (s : Session) : V.Keeps s (EvalM.deeper limit act s).2 := by
  have marks := EvalM.deeper_marks limit (fun s => (inside s).marks) s
  by_cases within : s.Within limit
  · rw [EvalM.deeper_eq within] at marks ⊢
    exact keeps_between s.deeper _ marks (Session.onward_deeper s) rfl (inside s.deeper)
      (Session.onward_shallower _) rfl
  · unfold EvalM.deeper
    rw [if_pos (by unfold Session.Within at within; omega)]
    exact keeps_refl s

theorem loading_keeps {act : EvalM UnitId} (inside : ∀ s, V.Keeps s (act s).2) {s : Session}
    (ready : s.loader = .ready) : V.Keeps s (EvalM.loading act s).2 :=
  keeps_between { s with loader := .loading } _
    (EvalM.loading_marks (fun s => (inside s).marks) ready)
    (Session.onward_of_same rfl rfl rfl rfl rfl) rfl (inside _)
    (Session.onward_of_same rfl rfl rfl rfl rfl) rfl

/-- While the environment behind a reference is produced, the reference is marked. -/
theorem resolving_marked {act : EvalM EnvValue} (inside : ∀ s, Session.SameMarks s (act s).2)
    {s : Session} (held : s.envs.reference? env index = some reference) :
    ∃ still, (act (s.mark env index)).2.envs.reference? env index = some still ∧
      still.state = .resolving := by
  have marked := ((inside (s.mark env index)).references env index).2
    ((EnvStore.resolving_setState held .resolving env index).2 (by simp))
  obtain ⟨still, found, resolving⟩ := Option.map_eq_some_iff.1 marked
  exact ⟨still, found, resolving⟩

theorem resolving_keeps {act : EvalM EnvValue} (inside : ∀ s, V.Keeps s (act s).2) {s : Session}
    (held : s.envs.reference? env index = some reference) (state : reference.state = .unresolved) :
    V.Keeps s (EvalM.resolving env index act s).2 := by
  have marks := EvalM.resolving_marks (fun s => (inside s).marks) held state
  have enter : s.Onward (s.mark env index) :=
    Session.onward_envs (EnvStore.set_state_later held (by simp [state]) .resolving)
  have there := inside (s.mark env index)
  obtain ⟨still, found, resolving⟩ := resolving_marked (fun s => (inside s).marks) held
  rw [EvalM.resolving_eq] at marks ⊢
  rcases ran : act (s.mark env index) with ⟨halt | value, t⟩ <;> rw [ran] at marks there found
  all_goals
    exact keeps_between _ t marks enter rfl there (Session.onward_envs
      (EnvStore.set_state_later found (by simp [resolving]) _)) rfl

/-- A result that is remembered has to be right in the end. -/
theorem memoized_keeps {act : EvalM Value} (name : String) (key : MemoKey)
    (inside : ∀ s, V.Keeps s (act s).2) (s : Session)
    (confirmed : ∀ v t, act { s with memo := s.memo.start key } = (.ok v, t) → V.first.Onward s →
      t.Onward V.last → V.Sound s → V.Confirms key v) :
    V.Keeps s (EvalM.memoized name key act s).2 := by
  have marks := EvalM.memoized_marks name key (fun s => (inside s).marks) s
  have there := inside { s with memo := s.memo.start key }
  have enter := Session.onward_memo s (s.memo.start key)
  unfold EvalM.memoized at marks ⊢
  split at marks
  · exact keeps_of_frame marks (Session.onward_memo s _) rfl
  · split at marks
    · next known => rw [if_pos known]; exact keeps_refl s
    · next idle =>
      rw [if_neg idle]
      unfold SessionM.bracket at marks ⊢
      rcases ran : act { s with memo := s.memo.start key } with ⟨halt | v, t⟩ <;>
        rw [ran] at there marks
      · exact keeps_between _ t marks enter rfl there (Session.onward_memo t _) rfl
      · have leave := Session.onward_memo t (t.memo.finish key v)
        refine ⟨marks, Session.onward_trans enter (Session.onward_trans there.onward leave), ?_⟩
        intro first last sound other value held
        have ahead : t.Onward V.last := Session.onward_trans leave last
        -- the entry that is new, and those that were there
        rcases Decidable.em (key = other) with rfl | old
        · obtain rfl : v = value := by simpa [Memo.finish] using held
          exact confirmed v t ran first ahead sound
        · refine there.sound (Session.onward_trans first enter) ahead sound other value ?_
          simpa [Memo.finish, Std.HashMap.getElem?_insert, old] using held

/-! ## What operations keep -/

theorem keeps_step (marks : Along Session.SameMarks ⟨u, before⟩ ⟨v, after⟩) (onward : u.Onward v)
    (done : v.memo.done = u.memo.done) : Along V.Keeps ⟨u, before⟩ ⟨v, after⟩ :=
  ⟨keeps_of_frame marks.1 onward done, marks.2⟩

instance (V : Review) : Track (Along V.Keeps) where
  refl _ := ⟨keeps_refl _, List.suffix_refl _⟩
  trans first rest := ⟨keeps_trans first.1 rest.1, first.2.trans rest.2⟩

instance (V : Review) : Populates (Along V.Keeps) where
  recorded moved := moved.2
  equation s p e :=
    keeps_step (Evaluates.equation s p e) (Session.onward_of_same rfl rfl rfl rfl rfl) rfl
  solved S _ e dynVars machine := EvalM.solve_moves machine
    (fun _ _ _ _ => keeps_step ⟨⟨fun _ => Iff.rfl, fun _ _ => Iff.rfl, rfl, rfl⟩,
      List.suffix_refl _⟩ (Session.onward_of_same rfl rfl rfl rfl rfl) rfl)
    (fun s p code message location => keeps_step (Evaluates.reported s p code message location)
      (Session.onward_report _ _ _ _) rfl) S e dynVars
  reported s p code message location :=
    keeps_step (Evaluates.reported s p code message location) (Session.onward_report _ _ _ _) rfl
  created s p parent owner := keeps_step (Populates.created s p parent owner)
    (Session.onward_envs (EnvStore.create_later _ _ _)) rfl
  bound s p env symbol entity metadata :=
    keeps_step (Populates.bound s p env symbol entity metadata)
      (Session.onward_envs (EnvStore.add_binding_later _ _ _ _ _)) rfl
  referred s p env thunk crossing := keeps_step (Populates.referred s p env thunk crossing)
    (Session.onward_envs (EnvStore.add_reference_later _ _ _ _)) rfl
  opened s p root node held fresh outermost := by
    refine keeps_step (Populates.opened s p root node held fresh outermost)
      (Session.onward_open_top _ _ _) ?_
    obtain ⟨unitEnvs, eq⟩ := open_top_eq s root node.unit
    rw [eq]

instance (S : Setting) (V : Review) : Operates S (Along V.Keeps) where
  unit s p name provided unnamed := keeps_step (Builds.unit S s p name provided unnamed)
    (Session.onward_new_unit _ _) rfl
  carried s p u name plan known := keeps_step (Builds.carried s p u name plan known)
    (Session.onward_carry_out known u) (by rw [(Session.extends_carry_out S s u plan).memo])
  rooted s p u root t given := by
    refine keeps_step (Builds.rooted S s p u root t given) (Session.onward_set_root given) ?_
    obtain ⟨tree, -, rfl⟩ := Session.set_root_ok given
    rfl
  counted s p n :=
    keeps_step (Acts.counted S s p n) (Session.onward_of_same rfl rfl rfl rfl rfl) rfl
  deeper limit inside := along_moves_iff.2 (deeper_keeps limit (along_moves_iff.1 inside))
  loading inside h ready :=
    ⟨h.populated, loading_keeps (along_moves_iff.1 inside) ready, List.suffix_refl _⟩
  resolving inside h _ _ _ held state :=
    ⟨h.populated, resolving_keeps (along_moves_iff.1 inside) held state, List.suffix_refl _⟩

instance (S : Setting) (m : Machine) (V : Review) : Fills S m (Along V.Keeps) where
  filled before n node ambient envs s tree p held computed given :=
    keeps_step (Fills.filled before n node ambient envs s tree p held computed given)
      (Session.onward_set_envs given) rfl

end Review
end Trellis
