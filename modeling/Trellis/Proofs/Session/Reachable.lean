import Trellis.Proofs.Session.Growth
import Trellis.Proofs.Session.Operations

/-! The sessions a host can get to. A host starts with a session over nothing and
asks for one operation after the other, whether or not the earlier ones failed. -/
namespace Trellis

/-- What a host can ask of a session. A request is what external code can ask for
as well. -/
inductive Operation where
  | intern (text : String)
  | enterEquation (e : Equation Entity)
  | newUnit (name : String)
  | addNode (u : UnitId) (kind : KindId) (children : List NodeId) (text : Symbol) (span : Span)
  | newToken (u : UnitId) (kind : KindId) (text : String)
  | setRoot (u : UnitId) (root : NodeId)
  | registerPlan (name : Symbol) (plan : UnitPlan)
  | request (r : Request)
  | refer (env : EnvId) (thunk : EnvThunk) (crossing : Crossing)
  | solve (e : Equation Entity) (dynVars : DynVars)
  | satisfiable (e : Equation Entity) (dynVars : DynVars)
  | populateUnit (u : UnitId) (root : NodeId)
  | callPublic (n : NodeId) (name : String) (args : List Value) (dynVars : DynVars)
  | loadUnit (name : String)
  | takeDiagnostics

/-- The session after an operation, however it ended. -/
def Operation.run (S : Setting) (m : Machine) (s : Session) : Operation → Session
  | intern text => { s with pool := (s.pool.intern text).2 }
  | enterEquation e => { s with pool := (s.pool.addEquation e).2 }
  | newUnit name => (s.newUnit name).2
  | addNode u kind children text span =>
    match s.addNode S u kind children text span with
    | .ok (_, s) => s
    | .error _ => s
  | newToken u kind text => (s.newToken S u kind text).2
  | setRoot u root =>
    match s.setRoot u root with
    | .ok s => s
    | .error _ => s
  | registerPlan name plan => s.registerPlan name plan
  | request r => (EvalM.perform S m r s).2
  | refer env thunk crossing =>
    (EvalM.changeEnvs (·.addReference env thunk crossing) s).2
  | solve e dynVars => (EvalM.solve S m e dynVars s).2
  | satisfiable e dynVars => (EvalM.satisfiable S m e dynVars s).2
  | populateUnit u root => (Host.populateUnit S m u root s).2
  | callPublic n name args dynVars => (Host.callPublic S m n name args dynVars s).2
  | loadUnit name => (Host.loadUnit S m name s).2
  | takeDiagnostics => { s with bag := s.bag.take.2 }

/-- The points that a session gets to from nothing, between the operations of its
host and within them. -/
def Reachable (S : Setting) (h : History) : Prop :=
  ∃ (pool : Pool) (bag : BagConfig) (loader : LoaderState), Path S ⟨.new pool bag loader, []⟩ h

/-- Moves that include what only a host does. -/
class Hosts (S : Setting) (R : History → History → Prop) : Prop extends Acts S R where
  begun : ∀ s populated name, R ⟨s, populated⟩ ⟨(s.newUnit name).2, populated⟩
  registered : ∀ s populated name plan,
    R ⟨s, populated⟩ ⟨s.registerPlan name plan, populated⟩

instance : Hosts S (Path S) where
  begun _ _ name := .single (.unit name)
  registered _ _ name plan := .single (.aside (.registered name plan))

open SessionM in
/-- To call a public property is to look for it and to leave the rest to the machine. -/
theorem Host.call_public_ends {S : Setting} {m : Machine} {R : Bool → History → History → Prop}
    [Trail R] (machine : m.Ends R) (n : NodeId) (name : String) (args : List Value)
    (dynVars : DynVars) : Ends R (callPublic S m n name args dynVars) := by
  unfold callPublic
  refine ends_bind (ends_read _) fun node => ?_
  split
  · exact ends_fail _
  · split
    · exact ends_fail _
    · split
      · exact ends_map_error _ (machine.call _ _ _ _)
      · exact ends_fail _

/-- What a host alone can do besides building trees: open a unit under any name, register a
plan, and take the reports. -/
def Operation.isHosted : Operation → Bool
  | newUnit _ | registerPlan _ _ | takeDiagnostics => true
  | _ => false

section Moves
variable {S : Setting} {m : Machine} {R : History → History → Prop} [Acts S R] [Adds S R]
  [Fills S m R] (machine : m.Moves R)
include machine

namespace Host
open SessionM

omit [Adds S R] in
theorem populate_unit_moves (u : UnitId) (root : NodeId) :
    Moves R (populateUnit S m u root) := by
  intro h
  unfold populateUnit
  rw [run_bind, run_read]
  cases given : h.now.setRoot u root with
  | error e => exact ⟨h.populated, Track.refl h⟩
  | ok t =>
    obtain ⟨populated, there⟩ := moves_map_error AnalysisError.populate
      (populate_with_moves (S := S) machine root) ⟨t, h.populated⟩
    exact ⟨populated, Track.trans (Builds.rooted S _ _ _ _ _ given) there⟩

omit [Adds S R] [Fills S m R] in
theorem call_public_moves (n : NodeId) (name : String) (args : List Value) (dynVars : DynVars) :
    Moves R (callPublic S m n name args dynVars) :=
  call_public_ends (Machine.ends_of_moves machine) n name args dynVars

theorem load_unit_moves (name : String) : Moves R (loadUnit S m name) := by
  unfold loadUnit
  refine moves_bind (moves_of_primitive fun _ _ => Adds.named S _ _ name) fun name => ?_
  exact EvalM.load_unit_moves machine name

end Host

/-- Whatever a host asks for, the session moves along if it does so where only the host acts. -/
theorem operation_moves_by (o : Operation) (h : History)
    (hosted : o.isHosted → R h ⟨o.run S m h.now, h.populated⟩) :
    ∃ populated, R h ⟨o.run S m h.now, populated⟩ := by
  cases o with
  | newUnit name | registerPlan name plan | takeDiagnostics => exact ⟨h.populated, hosted rfl⟩
  | intern text => exact ⟨h.populated, Adds.named S _ _ text⟩
  | enterEquation e => exact ⟨h.populated, Evaluates.equation _ _ e⟩
  | addNode u kind children text span =>
    refine ⟨h.populated, ?_⟩
    unfold Operation.run
    dsimp only
    split
    · next made => exact Adds.added _ made
    · exact Track.refl h
  | newToken u kind text => exact ⟨h.populated, new_token_makes h.now u kind text⟩
  | setRoot u root =>
    refine ⟨h.populated, ?_⟩
    unfold Operation.run
    dsimp only
    split
    · next given => exact Builds.rooted S _ _ _ _ _ given
    · exact Track.refl h
  | request r => exact EvalM.perform_moves machine r h
  | refer env thunk crossing => exact ⟨h.populated, Populates.referred _ _ env thunk crossing⟩
  | solve e dynVars => exact Evaluates.solved S e dynVars machine h
  | satisfiable e dynVars => exact EvalM.satisfiable_moves machine S e dynVars h
  | populateUnit u root => exact Host.populate_unit_moves machine u root h
  | callPublic n name args dynVars => exact Host.call_public_moves machine n name args dynVars h
  | loadUnit name => exact Host.load_unit_moves machine name h

end Moves

theorem operation_moves {S : Setting} {m : Machine} {R : History → History → Prop} [Hosts S R]
    [Adds S R] [Fills S m R] (machine : m.Moves R) (o : Operation) (h : History)
    (taken : o = .takeDiagnostics → R h ⟨{ h.now with bag := h.now.bag.take.2 }, h.populated⟩) :
    ∃ populated, R h ⟨o.run S m h.now, populated⟩ := by
  refine operation_moves_by machine o h fun hosted => ?_
  cases o with
  | newUnit name => exact Hosts.begun S _ _ name
  | registerPlan name plan => exact Hosts.registered S _ _ name plan
  | takeDiagnostics => exact taken rfl
  | _ => cases hosted

section Reached
variable {S : Setting}

theorem reachable_of_path (reached : Reachable S h) (path : Path S h k) : Reachable S k := by
  obtain ⟨pool, bag, loader, start⟩ := reached
  exact ⟨pool, bag, loader, start.trans path⟩

/-- Every sequence of operations is a path. -/
theorem path_of_run (h : History) (os : List Operation) (depth : Nat) :
    ∃ populated, Path S h ⟨os.foldl (Operation.run S (.upTo S depth)) h.now, populated⟩ := by
  induction os generalizing h with
  | nil => exact ⟨h.populated, .refl⟩
  | cons o rest ih =>
    obtain ⟨populated, first⟩ := operation_moves (S := S) (machine_steady S depth) o h
      fun _ => .single (.aside .taken)
    obtain ⟨populated, path⟩ := ih ⟨_, populated⟩
    exact ⟨populated, first.trans path⟩

/-- Every sequence of operations leads to a reachable session. -/
theorem reachable_of_run (reached : Reachable S h) (os : List Operation) (depth : Nat) :
    ∃ populated, Reachable S ⟨os.foldl (Operation.run S (.upTo S depth)) h.now, populated⟩ := by
  obtain ⟨populated, path⟩ := path_of_run h os depth
  exact ⟨populated, reachable_of_path reached path⟩

theorem reachable_own_roots (reached : Reachable S h) : h.now.OwnRoots := by
  obtain ⟨pool, bag, loader, path⟩ := reached
  exact path_own_roots path fun u e known => by cases known

theorem reachable_recorded (reached : Reachable S h) : h.Recorded := by
  obtain ⟨pool, bag, loader, path⟩ := reached
  exact path_recorded path fun n e mem => by cases mem

end Reached
end Trellis
