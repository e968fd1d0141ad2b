import Trellis.Session.Populate

/-! How operations move a session along. Whether an operation succeeds or not,
it leaves the session somewhere; what can be said about that place in general
is said by a relation between earlier and later histories. The rules here take
an operation apart into steps and put the moves of the steps together. -/
namespace Trellis

/-- A session, and what was populated on the way to it: each node that was given
its environments, with the environment that its own actions started from. The
latest one comes first. -/
structure History where
  now : Session
  populated : List (NodeId × EnvId)

/-- Standing still is a move, and moves can follow each other. -/
class Track (R : History → History → Prop) : Prop where
  refl : ∀ h, R h h
  trans : ∀ {h k l}, R h k → R k l → R h l

/-- From every session an operation moves along, however it ends. -/
def SessionM.Moves (R : History → History → Prop) (act : SessionM ε α) : Prop :=
  ∀ h : History, ∃ populated, R h ⟨(act h.now).2, populated⟩

/-- The same in whatever frame the operation runs. -/
def FrameM.Moves (R : History → History → Prop) (act : FrameM α) : Prop :=
  ∀ (f : Frame) (h : History), ∃ populated, R h ⟨(act f h.now).2, populated⟩

/-- Where operations that succeed lead, by `R true`, and where those lead that do not, by
`R false`. The latter can follow the former. -/
class Trail (R : Bool → History → History → Prop) : Prop where
  refl : ∀ ok h, R ok h h
  trans : ∀ {ok h k l}, R true h k → R ok k l → R ok h l

/-- From every session an operation leads where `R` says by whether it succeeds. -/
def SessionM.Ends (R : Bool → History → History → Prop) (act : SessionM ε α) : Prop :=
  ∀ h : History, ∃ populated, R (act h.now).1.isOk h ⟨(act h.now).2, populated⟩

def FrameM.Ends (R : Bool → History → History → Prop) (act : FrameM α) : Prop :=
  ∀ (f : Frame) (h : History), ∃ populated, R (act f h.now).1.1.isOk h ⟨(act f h.now).2, populated⟩

/-- A move does not ask whether the operation succeeded. -/
instance [Track R] : Trail fun _ => R where
  refl _ := Track.refl
  trans := Track.trans

variable {R : History → History → Prop}

namespace SessionM

/-- An operation that fails is not followed by another one. -/
theorem run_bind (act : SessionM ε α) (next : α → SessionM ε β) (s : Session) :
    (act >>= next) s = match act s with
      | (.ok x, s') => next x s'
      | (.error halt, s') => (.error halt, s') := by
  simp only [bind, ExceptT.bind, ExceptT.mk, StateT.bind, ExceptT.bindCont]
  rcases act s with ⟨x | halt, s'⟩ <;> rfl

theorem run_pure (x : α) (s : Session) : (pure x : SessionM ε α) s = (.ok x, s) := rfl

theorem run_read (f : Session → α) (s : Session) :
    (SessionM.read f : SessionM ε α) s = (.ok (f s), s) := rfl

theorem run_of_tree (r : Except TreeError α) (s : Session) :
    PopulateM.ofTree r s = (r.mapError fun e => .failure (.tree e), s) := by
  cases r <;> rfl

/-- Operations one after the other succeed only if each of them does. -/
theorem bind_ok {act : SessionM ε α} {next : α → SessionM ε β}
    (ran : (act >>= next) s = (.ok y, t)) :
    ∃ x s', act s = (.ok x, s') ∧ next x s' = (.ok y, t) := by
  rw [run_bind] at ran
  rcases first : act s with ⟨halt | x, s'⟩ <;> rw [first] at ran
  · cases ran
  · exact ⟨x, s', rfl, ran⟩

theorem map_error_ok {act : SessionM ε α} {f : ε → δ} (ran : act.mapError f s = (.ok x, t)) :
    act s = (.ok x, t) := by
  unfold mapError at ran
  rcases inside : act s with ⟨(cause | _) | y, s'⟩ <;> rw [inside] at ran <;> cases ran
  rfl

theorem map_error_of_ok {act : SessionM ε α} {f : ε → δ} (ran : act s = (.ok x, t)) :
    act.mapError f s = (.ok x, t) := by
  unfold mapError
  rw [ran]

theorem map_error_of_failure {act : SessionM ε α} {f : ε → δ}
    (failed : act s = (.error (.failure e), t)) :
    act.mapError f s = (.error (.failure (f e)), t) := by
  unfold mapError
  rw [failed]

theorem map_error_failure {act : SessionM ε α} {f : ε → δ}
    (failed : act.mapError f s = (.error (.failure e), t)) :
    ∃ cause, act s = (.error (.failure cause), t) ∧ e = f cause := by
  unfold mapError at failed
  rcases inside : act s with ⟨(cause | _) | y, s'⟩ <;> rw [inside] at failed <;> cases failed
  exact ⟨cause, rfl, rfl⟩

theorem error_of_map_error {act : SessionM ε α} {f : ε → δ}
    (failed : (act.mapError f s).1 = .error halt) : ∃ cause, (act s).1 = .error cause := by
  unfold mapError at failed
  rcases inside : act s with ⟨cause | y, s'⟩
  · exact ⟨cause, rfl⟩
  · rw [inside] at failed
    cases failed

/-- Where an operation leads does not depend on the name of its failure. -/
theorem map_error_state (act : SessionM ε α) (f : ε → δ) (s : Session) :
    (act.mapError f s).2 = (act s).2 := by
  unfold mapError
  rcases act s with ⟨(cause | _) | x, t⟩ <;> rfl

theorem bracket_ok {act : SessionM ε α} {before : Session → Session}
    {after : Except (Interrupt ε) α → Session → Session}
    (ran : bracket before act after s = (.ok x, t)) :
    ∃ s', act (before s) = (.ok x, s') ∧ t = after (.ok x) s' := by
  unfold bracket at ran
  rcases inside : act (before s) with ⟨r, s'⟩
  rw [inside] at ran
  cases ran
  exact ⟨s', rfl, rfl⟩

theorem read_ok {f : Session → α} (ran : (read f : SessionM ε α) s = (.ok x, t)) :
    f s = x ∧ s = t := by
  cases ran
  exact ⟨rfl, rfl⟩

theorem node_ok (ran : EvalM.node n s = (.ok x, t)) : s.tree.node? n = some x ∧ s = t := by
  unfold EvalM.node Tree.node at ran
  cases held : s.tree.node? n with
  | none => rw [held] at ran; cases ran
  | some found => rw [held] at ran; cases ran; exact ⟨rfl, rfl⟩

theorem moves_of_primitive {act : SessionM ε α}
    (step : ∀ s populated, R ⟨s, populated⟩ ⟨(act s).2, populated⟩) : Moves R act :=
  fun h => ⟨h.populated, step h.now h.populated⟩

section Ends
variable {R : Bool → History → History → Prop}

theorem map_error_is_ok (act : SessionM ε α) (f : ε → δ) (s : Session) :
    (act.mapError f s).1.isOk = (act s).1.isOk := by
  unfold mapError
  rcases act s with ⟨(cause | _) | x, t⟩ <;> rfl

theorem ends_map_error {act : SessionM ε α} (f : ε → δ) (inside : Ends R act) :
    Ends R (act.mapError f) := by
  intro h
  obtain ⟨populated, there⟩ := inside h
  exact ⟨populated, by rw [map_error_is_ok, map_error_state]; exact there⟩

variable [Trail R]

theorem ends_still {act : SessionM ε α} (still : ∀ s, (act s).2 = s) : Ends R act :=
  fun h => ⟨h.populated, by rw [still h.now]; exact Trail.refl _ _⟩

theorem ends_pure (x : α) : Ends R (pure x : SessionM ε α) := ends_still fun _ => rfl

theorem ends_fail (e : ε) : Ends R (SessionM.fail e : SessionM ε α) := ends_still fun _ => rfl

theorem ends_exhausted : Ends R (throw .exhausted : SessionM ε α) := ends_still fun _ => rfl

theorem ends_read (f : Session → α) : Ends R (read f : SessionM ε α) := ends_still fun _ => rfl

theorem ends_read_e (f : Session → Except ε α) : Ends R (readE f) := by
  refine ends_still fun s => ?_
  unfold readE
  cases f s <;> rfl

theorem ends_node (n : NodeId) : Ends R (EvalM.node n) := by
  refine ends_still fun s => ?_
  unfold EvalM.node
  cases s.tree.node n <;> rfl

theorem ends_bind {act : SessionM ε α} {next : α → SessionM ε β} (first : Ends R act)
    (rest : ∀ x, Ends R (next x)) : Ends R (act >>= next) := by
  intro h
  obtain ⟨populated, there⟩ := first h
  rw [run_bind]
  rcases ran : act h.now with ⟨halt | x, s⟩ <;> simp only [ran] at there ⊢
  · exact ⟨populated, there⟩
  · obtain ⟨later, further⟩ := rest x ⟨s, populated⟩
    exact ⟨later, Trail.trans there further⟩

theorem ends_for {act : α → SessionM ε PUnit} {xs : List α}
    (each : ∀ x ∈ xs, Ends R (act x)) : Ends R (xs.forM act) := by
  induction xs with
  | nil => exact ends_pure _
  | cons x xs ih =>
    exact ends_bind (each x List.mem_cons_self) fun _ =>
      ih fun y mem => each y (List.mem_cons_of_mem x mem)

end Ends

section
variable [Track R]

theorem moves_still {act : SessionM ε α} (still : ∀ s, (act s).2 = s) : Moves R act :=
  ends_still (R := fun _ => R) still

theorem moves_pure (x : α) : Moves R (pure x : SessionM ε α) := moves_still fun _ => rfl

theorem moves_fail (e : ε) : Moves R (SessionM.fail e : SessionM ε α) :=
  moves_still fun _ => rfl

theorem moves_exhausted : Moves R (throw .exhausted : SessionM ε α) :=
  moves_still fun _ => rfl

theorem moves_of_except (r : Except ε α) : Moves R (ofExcept r) := by
  cases r with
  | ok x => exact moves_pure x
  | error e => exact moves_fail e

theorem moves_read (f : Session → α) : Moves R (read f : SessionM ε α) :=
  moves_still fun _ => rfl

theorem moves_read_e (f : Session → Except ε α) : Moves R (readE f) :=
  ends_read_e (R := fun _ => R) f

theorem moves_bind {act : SessionM ε α} {next : α → SessionM ε β} (first : Moves R act)
    (rest : ∀ x, Moves R (next x)) : Moves R (act >>= next) :=
  ends_bind (R := fun _ => R) first rest

theorem moves_bracket {act : SessionM ε α} {before : Session → Session}
    {after : Except (Interrupt ε) α → Session → Session}
    (enter : ∀ s populated, R ⟨s, populated⟩ ⟨before s, populated⟩) (inside : Moves R act)
    (leave : ∀ r s populated, R ⟨s, populated⟩ ⟨after r s, populated⟩) :
    Moves R (bracket before act after) := by
  intro h
  obtain ⟨populated, there⟩ := inside ⟨before h.now, h.populated⟩
  exact ⟨populated, Track.trans (enter h.now h.populated) (Track.trans there (leave _ _ _))⟩

theorem moves_for {act : α → SessionM ε PUnit} {xs : List α}
    (each : ∀ x ∈ xs, Moves R (act x)) : Moves R (xs.forM act) :=
  ends_for (R := fun _ => R) each

theorem moves_node (n : NodeId) : Moves R (EvalM.node n) := ends_node (R := fun _ => R) n

end

theorem moves_map_error {act : SessionM ε α} (f : ε → δ) (inside : Moves R act) :
    Moves R (act.mapError f) :=
  ends_map_error (R := fun _ => R) f inside

theorem moves_attempt {act : SessionM ε α} (inside : Moves R act) : Moves R act.attempt := by
  intro h
  obtain ⟨populated, there⟩ := inside h
  refine ⟨populated, ?_⟩
  unfold attempt
  rcases ran : act h.now with ⟨(cause | _) | x, s⟩ <;> simp only [ran] at there ⊢ <;> exact there

end SessionM

namespace FrameM

theorem run_bind (act : FrameM α) (next : α → FrameM β) (f : Frame) (s : Session) :
    (act >>= next) f s = match act f s with
      | ((.ok x, g), s') => next x g s'
      | ((.error halt, g), s') => ((.error halt, g), s') := by
  simp only [bind, ExceptT.bind, ExceptT.mk, StateT.bind, ExceptT.bindCont]
  rcases act f s with ⟨⟨x | halt, g⟩, s'⟩ <;> rfl

theorem run_pure (x : α) (f : Frame) (s : Session) :
    (pure x : FrameM α) f s = ((.ok x, f), s) := rfl

theorem run_read (g : Frame → α) (f : Frame) (s : Session) : read g f s = ((.ok (g f), f), s) := rfl

theorem run_session (act : EvalM α) (f : Frame) (s : Session) :
    session act f s = (((act s).1, f), (act s).2) := rfl

section Ends
variable {R : Bool → History → History → Prop}

theorem ends_session {act : EvalM α} (inside : SessionM.Ends R act) : Ends R (session act) :=
  fun _ h => inside h

theorem ends_run_in {act : FrameM α} (frame : Frame) (inside : Ends R act) :
    SessionM.Ends R (runIn frame act) := fun h => inside frame h

theorem ends_with_dyn_var {act : FrameM α} (var : DynVarId) (value : Value)
    (inside : Ends R act) : Ends R (withDynVar var value act) := fun _ h => inside _ h

variable [Trail R]

theorem ends_still {act : FrameM α} (still : ∀ f s, (act f s).2 = s) : Ends R act :=
  fun f h => ⟨h.populated, by rw [still f h.now]; exact Trail.refl _ _⟩

theorem ends_pure (x : α) : Ends R (pure x : FrameM α) := ends_still fun _ _ => rfl

theorem ends_fail (fault : Fault) : Ends R (FrameM.fail fault : FrameM α) :=
  ends_session (SessionM.ends_fail _)

theorem ends_mismatch (expected : String) (found : Value) :
    Ends R (mismatch expected found : FrameM α) := ends_fail _

theorem ends_read (g : Frame → α) : Ends R (FrameM.read g) := ends_still fun _ _ => rfl

theorem ends_set_local (slot : Nat) (value : Value) : Ends R (setLocal slot value) :=
  ends_still fun _ _ => rfl

theorem ends_bind {act : FrameM α} {next : α → FrameM β} (first : Ends R act)
    (rest : ∀ x, Ends R (next x)) : Ends R (act >>= next) := by
  intro f h
  obtain ⟨populated, there⟩ := first f h
  rw [run_bind]
  rcases ran : act f h.now with ⟨⟨halt | x, g⟩, s⟩ <;> simp only [ran] at there ⊢
  · exact ⟨populated, there⟩
  · obtain ⟨later, further⟩ := rest x g ⟨s, populated⟩
    exact ⟨later, Trail.trans there further⟩

end Ends

theorem moves_session {act : EvalM α} (inside : SessionM.Moves R act) :
    Moves R (session act) := fun _ h => inside h

theorem moves_run_in {act : FrameM α} (frame : Frame) (inside : Moves R act) :
    SessionM.Moves R (runIn frame act) := fun h => inside frame h

section
variable [Track R]

theorem moves_pure (x : α) : Moves R (pure x : FrameM α) := ends_pure (R := fun _ => R) x

theorem moves_mismatch (expected : String) (found : Value) :
    Moves R (mismatch expected found : FrameM α) := ends_mismatch (R := fun _ => R) expected found

theorem moves_bind {act : FrameM α} {next : α → FrameM β} (first : Moves R act)
    (rest : ∀ x, Moves R (next x)) : Moves R (act >>= next) :=
  ends_bind (R := fun _ => R) first rest

theorem moves_for {act : α → FrameM PUnit} (each : ∀ x, Moves R (act x)) (xs : List α) :
    Moves R (xs.forM act) := by
  induction xs with
  | nil => exact moves_pure _
  | cons x xs ih => exact moves_bind (each x) fun _ => ih

theorem moves_fold {act : β → α → FrameM β} (each : ∀ acc x, Moves R (act acc x)) (xs : List α)
    (acc : β) : Moves R (xs.foldlM act acc) := by
  induction xs generalizing acc with
  | nil => exact moves_pure _
  | cons x xs ih => rw [List.foldlM_cons]; exact moves_bind (each acc x) fun acc => ih acc

end

end FrameM
end Trellis
