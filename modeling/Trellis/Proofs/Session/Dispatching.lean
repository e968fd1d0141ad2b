import Trellis.Proofs.Language.Lineage
import Trellis.Proofs.Session.Shapes

/-! Calls and dispatch. A node that there is is of a concrete kind, so what was resolved
when the language was built is what a call of it finds: the implementation that is
declared closest to the kind of the node runs, and the failure that there is none can only
come of a property that asked for it. -/
namespace Trellis

/-- Whether a failure says that a property has no implementation. -/
def Fault.isDispatch : Fault → Bool
  | .dispatch .. => true
  | _ => false

namespace EvalM
open SessionM

/-- An argument that does not fit is no failure of dispatch. -/
theorem checks_fault {l : Language} {ps : List (Value × ValueType)} {s t : Session}
    (failed : (ps.forM fun p => expectType l p.2 p.1) s = (.error (.failure e), t)) :
    e.fault.isDispatch = false := by
  induction ps with
  | nil => cases failed
  | cons p rest ih =>
    have eq : ((p :: rest).forM fun p => expectType l p.2 p.1) s =
        (expectType l p.2 p.1 >>= fun _ => rest.forM fun p => expectType l p.2 p.1) s := rfl
    rw [eq, run_bind, expect_type_eq] at failed
    by_cases fits : s.conforms l p.2 p.1 = true
    · rw [if_pos fits] at failed
      exact ih failed
    · rw [if_neg fits] at failed
      cases failed
      rfl

theorem check_args_fault {l : Language} {info : PropertyInfo} {args : List Value} {s t : Session}
    (failed : checkArgs l info args s = (.error (.failure e), t)) : e.fault.isDispatch = false := by
  unfold checkArgs at failed
  by_cases same : args.length = info.params.length
  · rw [if_neg (by simp [same])] at failed
    exact checks_fault failed
  · rw [if_pos (bne_iff_ne.2 same)] at failed
    cases failed
    rfl

/-- The failure of a call that finds no implementation. -/
def unanswered (l : Language) (kind : KindId) (n : NodeId) (p : PropId) : PropertyError :=
  (PropertyError.of (.dispatch (l.kindName kind) (l.propertyName p))).claimedBy n p

/-- A call is refused over its arguments or its dynamic variables, or it goes where
dispatch leads. -/
theorem call_with_dispatch (S : Setting) (m : Machine) {s : Session} {entity : Entity} {p : PropId}
    {node : Node} {info : PropertyInfo} (args : List Value) (dynVars : DynVars)
    (held : s.tree.node? entity.node = some node) (asked : S.language.property? p = some info) :
    (∃ e, callWith S m entity p args dynVars s = (.error (.failure e), s) ∧
      e.fault.isDispatch = false) ∨
    ∃ declared, args.length = info.params.length ∧
      (∀ p ∈ args.zip info.paramTypes, s.conforms S.language p.2 p.1 = true) ∧
      dynVars.restrict info.dynVars = .ok declared ∧
      callWith S m entity p args dynVars s =
        match S.language.dispatch node.kind p with
        | some (.runs index) =>
          (answer S m node.kind info index ⟨p, entity, args, declared⟩).mapError
            (·.claimedBy entity.node p) s
        | none | some .missing =>
          (.error (.failure (unanswered S.language node.kind entity.node p)), s) := by
  unfold callWith mapError callUnclaimed
  rw [run_bind, node_eq, held]
  simp only [asked, run_bind]
  rcases check_args_cases S.language info args s with ⟨arity, fitting⟩ | ⟨e, checked⟩
  · rw [check_args_pass arity fitting]
    dsimp only
    cases declared : dynVars.restrict info.dynVars with
    | error var => exact .inl ⟨_, rfl, rfl⟩
    | ok cut =>
      refine .inr ⟨cut, arity, fitting, rfl, ?_⟩
      rcases S.language.dispatch node.kind p with _ | index | _ <;> rfl
  · rw [checked]
    have other := check_args_fault checked
    exact .inl ⟨_, rfl, other⟩

end EvalM

open EvalM in
/-- **Dispatch is to the most derived implementation.** In a language that is built, a
concrete kind answers a property that does not come down to it with nothing, and another
one with the implementation on the closest kind that declares one, of which there is one
only: it runs, unless it is abstract and to be found missing by the call. So wherever a
run of a session calls a property that comes down to the kind of a node, the call is
refused for another reason, or that implementation answers it, or that implementation
asked for the failure. -/
theorem build_dispatches_most_derived {S : Setting} {declarations : List Declaration}
    (built : (Builder.declare declarations).build = .ok S.language) :
    let l := S.language
    (∀ k kind p info, l.kind? k = some kind → kind.isAbstract = false → l.property? p = some info →
      (¬ l.Derives k info.owner → l.dispatch k p = none) ∧
      (l.Derives k info.owner → ∃ index i, l.MeantFor k p index i ∧
        (l.dispatch k p = some (.runs index) ∧ i.body.Runs ∨
          l.dispatch k p = some .missing ∧ i.body = .abstract true))) ∧
    ∀ home running s, Point S home running s →
      ∀ (entity : Entity) p node info, s.tree.node? entity.node = some node →
        l.property? p = some info → l.Derives node.kind info.owner →
      ∃ index i, l.MeantFor node.kind p index i ∧ ∀ (m : Machine) args dynVars,
        let call := callWith S m entity p args dynVars s
        (∃ e, call = (.error (.failure e), s) ∧ e.fault.isDispatch = false) ∨
        (∃ declared, i.body.Runs ∧
          Called S s ⟨p, entity, args, declared⟩ dynVars node info index ∧
          call = (answer S m node.kind info index ⟨p, entity, args, declared⟩).mapError
            (·.claimedBy entity.node p) s) ∨
        i.body = .abstract true ∧ call =
          (.error (.failure (unanswered l node.kind entity.node p)), s) := by
  intro l
  refine ⟨fun k kind p info known concrete asked =>
    Builder.built_dispatch built known concrete asked, ?_⟩
  intro home running s point entity p node info held asked derives
  obtain ⟨kind, shaped⟩ := point_shaped point entity.node node held
  obtain ⟨index, i, meant, leads⟩ :=
    (Builder.built_dispatch built shaped.known shaped.concrete asked).2 derives
  refine ⟨index, i, meant, fun m args dynVars => ?_⟩
  rcases call_with_dispatch S m args dynVars held asked with refused | found
  · exact .inl refused
  · obtain ⟨declared, arity, fitting, cut, goes⟩ := found
    rcases leads with ⟨dispatched, runs⟩ | ⟨dispatched, missing⟩
    · rw [dispatched] at goes
      exact .inr (.inl ⟨declared, runs, ⟨held, asked, arity, fitting, cut, dispatched⟩, goes⟩)
    · rw [dispatched] at goes
      exact .inr (.inr ⟨missing, goes⟩)

open EvalM in
/-- A property is overridden on a kind before it is on the parent of the kind; another
kind leaves it to its calls to find out that there is no implementation. -/
theorem build_dispatches_most_derived_of_overrides :
    let size (owner : KindId) (body : Body) : Declaration :=
      .property ⟨owner, "size", [], .int, [], false, true, body, .caller⟩
    let declarations : List Declaration := [
      .kind ⟨"Base", none, [], [], true, false, false, .caller⟩,
      .kind ⟨"Middle", some ⟨0⟩, [], [], false, false, false, .caller⟩,
      .kind ⟨"Leaf", some ⟨1⟩, [], [], false, false, false, .caller⟩,
      .kind ⟨"Other", some ⟨0⟩, [], [], false, false, false, .caller⟩,
      size ⟨0⟩ (.abstract true), size ⟨2⟩ (.expr (.lit (.int 2))), size ⟨1⟩ (.expr (.lit (.int 1)))]
    let l := (Builder.declare declarations).language
    let S : Setting := ⟨l, .standard⟩
    let s := [Operation.newUnit "", .addNode ⟨0⟩ ⟨2⟩ [] .empty .dummy].foldl
      (Operation.run S (.upTo S 0)) (.new (.new none) .standard .ready)
    (l.dispatch ⟨2⟩ ⟨0⟩ = some (.runs 1) ∧ ∃ i, l.MeantFor ⟨2⟩ ⟨0⟩ 1 i ∧ i.body.Runs) ∧
      (l.dispatch ⟨3⟩ ⟨0⟩ = some .missing ∧
        ∃ index i, l.MeantFor ⟨3⟩ ⟨0⟩ index i ∧ i.body = .abstract true) ∧
      ∃ index i, l.MeantFor ⟨2⟩ ⟨0⟩ index i ∧ ∀ m args dynVars,
        let call := callWith S m (.bare ⟨0⟩) ⟨0⟩ args dynVars s
        (∃ e, call = (.error (.failure e), s) ∧ e.fault.isDispatch = false) ∨
        (i.body.Runs ∧ ∃ key node info, Called S s key dynVars node info index ∧
          call = (answer S m node.kind info index key).mapError (·.claimedBy ⟨0⟩ ⟨0⟩) s) ∨
        i.body = .abstract true ∧ call = (.error (.failure (unanswered l ⟨2⟩ ⟨0⟩ ⟨0⟩)), s) := by
  intro size declarations l S s
  have built : (Builder.declare declarations).build = .ok S.language :=
    (Builder.build_ok_iff (by decide +kernel)).2 ⟨by decide +kernel, rfl⟩
  have middle : l.kind? ⟨1⟩ = some ⟨⟨1⟩, "Middle", some ⟨0⟩, false, [], false, false, [],
    [⟨1⟩, ⟨0⟩], .caller⟩ := by decide +kernel
  have leaf : l.kind? ⟨2⟩ = some ⟨⟨2⟩, "Leaf", some ⟨1⟩, false, [], false, false, [],
    [⟨2⟩, ⟨1⟩, ⟨0⟩], .caller⟩ := by decide +kernel
  have other : l.kind? ⟨3⟩ = some ⟨⟨3⟩, "Other", some ⟨0⟩, false, [], false, false, [],
    [⟨3⟩, ⟨0⟩], .caller⟩ := by decide +kernel
  have asked : l.property? ⟨0⟩ = some ⟨⟨0⟩, "size", ⟨0⟩, [], .int, [], false, true, [0, 1, 2],
    .caller⟩ := by decide +kernel
  have below : l.Derives ⟨2⟩ ⟨0⟩ :=
    .head ⟨_, leaf, rfl⟩ (.head ⟨_, middle, rfl⟩ .refl)
  have beside : l.Derives ⟨3⟩ ⟨0⟩ := .head ⟨_, other, rfl⟩ .refl
  have runs : l.dispatch ⟨2⟩ ⟨0⟩ = some (.runs 1) := by decide +kernel
  have lacks : l.dispatch ⟨3⟩ ⟨0⟩ = some .missing := by decide +kernel
  obtain ⟨resolved, calls⟩ := build_dispatches_most_derived built
  refine ⟨⟨runs, ?_⟩, ⟨lacks, ?_⟩, ?_⟩
  · obtain ⟨index, i, meant, leads⟩ := (resolved _ _ _ _ leaf rfl asked).2 below
    rw [runs] at leads
    rcases leads with ⟨same, body⟩ | ⟨never, -⟩
    · cases same
      exact ⟨i, meant, body⟩
    · cases never
  · obtain ⟨index, i, meant, leads⟩ := (resolved _ _ _ _ other rfl asked).2 beside
    rw [lacks] at leads
    rcases leads with ⟨never, -⟩ | ⟨-, body⟩
    · cases never
    · exact ⟨index, i, meant, body⟩
  · have start : Point S .ready [] (.new (.new none) .standard .ready) := .start _ _
    have point : Point S .ready [] s :=
      (start.carried (.newUnit "") 0).carried (.addNode ⟨0⟩ ⟨2⟩ [] .empty .dummy) 0
    have kind : (s.tree.node? ⟨0⟩).map (·.kind) = some ⟨2⟩ := by decide +kernel
    obtain ⟨node, held, same⟩ := Option.map_eq_some_iff.1 kind
    obtain ⟨index, i, meant, goes⟩ :=
      calls .ready [] s point (.bare ⟨0⟩) ⟨0⟩ node _ held asked (same ▸ below)
    rw [same] at meant goes
    refine ⟨index, i, meant, fun m args dynVars => ?_⟩
    rcases goes m args dynVars with refused | ⟨declared, body, called, eq⟩ | missing
    · exact .inl refused
    · exact .inr (.inl ⟨body, _, node, _, called, by rw [same]; exact eq⟩)
    · exact .inr (.inr missing)

end Trellis
