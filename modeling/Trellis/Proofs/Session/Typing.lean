import Mathlib
import Trellis.Proofs.Language.Naming
import Trellis.Proofs.Session.Completions
import Trellis.Proofs.Session.Readings

/-! Types of results. What a call gives is checked where it is computed, and the check holds
good from then on, since nodes keep their kinds: so what is remembered is of its type in
every later session. What a body is given is checked too, at the call, and the body runs
before anything else happens to the tree. -/
namespace Trellis

/-- What is of a type stays so. -/
theorem Session.conforms_later {s t : Session} (l : Language) (later : s.Later t)
    (type : ValueType) (v : Value) (fits : s.conforms l type v = true) :
    t.conforms l type v = true := by
  refine conforms_of_kinds (fun n a held => ?_) type v fits
  obtain ⟨b, there, same⟩ := later.tree.nodes _ _ held
  exact ⟨b, there, same.kind⟩

/-- What is remembered does not count for that. -/
theorem Session.conforms_memo {s : Session} (l : Language) (memo : Memo) {type : ValueType}
    {v : Value} (fits : s.conforms l type v = true) :
    ({ s with memo } : Session).conforms l type v = true :=
  conforms_later l (later_of_tree (t := { s with memo }) (Tree.later_refl s.tree) rfl) type v fits

/-- Only the tree counts for that. -/
theorem Session.conforms_of_tree {s t : Session} (l : Language) (same : t.tree = s.tree)
    (type : ValueType) (v : Value) (fits : s.conforms l type v = true) :
    t.conforms l type v = true :=
  conforms_of_kinds (fun n a held => ⟨a, by rw [same]; exact held, rfl⟩) type v fits

/-! ## Remembered results -/

namespace Stage

/-- What was completed is of the type that its property declares, and the calls under way
are of the properties they are said to be of. -/
structure Typed (S : Setting) (m : Stage) : Prop where
  completed : ∀ key v, (key, v) ∈ m.completed → ∃ info, S.language.property? key.prop = some info ∧
    m.now.conforms S.language info.returns v = true
  underway : ∀ b ∈ m.underway, S.language.property? b.key.prop = some b.info

section Typed
variable {S : Setting} {m n : Stage} {bs : List Begun} {done : List (MemoKey × Value)}
  {s t : Session}

theorem typed_start (pool : Pool) (bag : BagConfig) (home : LoaderState) :
    (start pool bag home).Typed S where
  completed _ _ mem := (List.not_mem_nil mem).elim
  underway _ mem := (List.not_mem_nil mem).elim

/-- To grow is no harm. -/
theorem typed_changed (typed : Typed S ⟨bs, done, s⟩) (later : s.Later t) :
    Typed S ⟨bs, done, t⟩ where
  completed key v mem := by
    obtain ⟨info, known, fits⟩ := typed.completed key v mem
    exact ⟨info, known, s.conforms_later _ later _ _ fits⟩
  underway := typed.underway

theorem typed_memo (typed : Typed S ⟨bs, done, s⟩) (memo : Memo) :
    Typed S ⟨bs, done, { s with memo }⟩ :=
  typed_changed typed (Session.later_of_tree (Tree.later_refl s.tree) rfl)

theorem typed_step (step : Step S m n) (typed : m.Typed S) : n.Typed S := by
  cases step with
  | changed later => exact typed_changed typed later
  | recalled => exact typed_memo typed _
  | begun called =>
    refine ⟨(typed_memo typed _).completed, fun b mem => ?_⟩
    rcases List.mem_cons.1 mem with rfl | under
    · exact called.known
    · exact typed.underway b under
  | @completed depth bs done b v t ran =>
    obtain ⟨-, inner, -, fits, rfl⟩ := EvalM.compute_ok ran
    have known := typed.underway b List.mem_cons_self
    have before : Typed S ⟨bs, done, _⟩ :=
      ⟨typed.completed, fun b mem => typed.underway b (List.mem_cons_of_mem _ mem)⟩
    refine ⟨fun key x mem => ?_, before.underway⟩
    rcases List.mem_append.1 mem with earlier | last
    · exact (typed_memo before _).completed key x earlier
    · cases List.mem_singleton.1 last
      exact ⟨b.info, known, Session.conforms_memo _ _ fits⟩
  | @abandoned depth halt bs done b t ran =>
    have before : Typed S ⟨bs, done, t⟩ :=
      ⟨typed.completed, fun b mem => typed.underway b (List.mem_cons_of_mem _ mem)⟩
    exact typed_memo before _

theorem typed_later (later : Later S m n) (typed : m.Typed S) : n.Typed S := by
  induction later with
  | refl => exact typed
  | tail _ step ih => exact typed_step step ih

end Typed
end Stage

/-- A session at some stage of a run. -/
def Staged (S : Setting) (s : Session) : Prop :=
  ∃ home pool bag bs done, Stage.Later S (.start pool bag home) ⟨bs, done, s⟩

theorem staged_of_point {S : Setting} (point : Point S home running s) : Staged S s :=
  ⟨home, Stage.point_staged point⟩

theorem staged_leads {S : Setting} (staged : Staged S s) (leads : Stage.Leads S s t) :
    Staged S t := by
  obtain ⟨home, pool, bag, bs, done, later⟩ := staged
  obtain ⟨more, leads⟩ := leads
  exact ⟨home, pool, bag, bs, done ++ more, later.trans (leads bs done)⟩

open Stage in
/-- At every stage of a run what is remembered is of its type. -/
theorem staged_typed {S : Setting} {key : MemoKey} (staged : Staged S s)
    (remembered : s.memo.done[key]? = some v) :
    ∃ info, S.language.property? key.prop = some info ∧
      s.conforms S.language info.returns v = true := by
  obtain ⟨home, pool, bag, bs, done, later⟩ := staged
  have sound := sound_later later (sound_start pool bag home)
  have typed := typed_later later (typed_start pool bag home)
  exact typed.completed key v ((sound.known key v).1 remembered)

/-! ## What bodies are given -/

/-- Whether a body gets what its property declares: it is of the property, there are as many
arguments as parameters, each of the type of its parameter, and the receiver is of a kind
that comes from the owner. -/
def Session.feeds (l : Language) (s : Session) (index : Nat) (key : MemoKey) : Bool :=
  (l.implementation? index).any (·.prop = key.prop) && (l.property? key.prop).any fun info =>
    key.args.length == info.params.length &&
    (key.args.zip info.paramTypes).all (fun (v, type) => s.conforms l type v) &&
    (s.tree.node? key.entity.node).any fun node => l.isSubkind node.kind info.owner

namespace EvalM

/-- The body that answers a call, or something else if it does not get what its property
declares. -/
def bodyFed (S : Setting) (stray : KindId → Nat → MemoKey → EvalM Value) (m : Machine)
    (kind : KindId) (index : Nat) (key : MemoKey) : EvalM Value := fun s =>
  if s.feeds S.language index key then bodyOf S m kind index key s else stray kind index key s

end EvalM

/-- The machine that follows activities nested up to a depth, and does something else where a
body does not get what its property declares. -/
def Machine.feeding (S : Setting) (stray : KindId → Nat → MemoKey → EvalM Value) :
    (depth : Nat) → Machine
  | 0 => .exhausted
  | n + 1 =>
    let m := Machine.feeding S stray n
    ⟨EvalM.callBy S (EvalM.bodyFed S stray m), EvalM.searchWith m, EvalM.resolveWith S m⟩

section Built
variable {S : Setting} {declarations : List Declaration}
  (built : (Builder.declare declarations).build = .ok S.language)
include built

/-- A body answers only kinds that come from the owner of its property. -/
theorem called_derives (called : Called S s key dynVars node info index) :
    S.language.Derives node.kind info.owner := by
  have answers := Option.isSome_of_mem called.dispatched
  obtain ⟨_, other, -, -, visible⟩ := (Builder.built_dispatch_iff built).1 answers
  cases called.known.symm.trans visible.asked
  exact visible.derives

/-- A body that answers a call gets what its property declares. -/
theorem called_fed {s t : Session} (called : Called S s key dynVars node info index)
    (tree : t.tree = s.tree) :
    t.feeds S.language index key = true := by
  obtain ⟨same, resolved, -⟩ := Builder.build_ok built
  have lineage : S.language.Lineage := same ▸ Builder.declare_lineage declarations
  have named : S.language.Named := same ▸ Builder.declare_named declarations
  have indexed : S.language.Indexed := same ▸ Builder.declare_indexed declarations
  obtain ⟨i, found, its⟩ := Language.dispatch_runs indexed resolved called.dispatched
  have visible : S.language.Visible node.kind info.name key.prop info :=
    ⟨called.known, rfl, called_derives built called⟩
  unfold Session.feeds Definition.isSubkind
  rw [found, called.known, tree, called.held]
  simp only [Option.any_some, Bool.and_eq_true, decide_eq_true_eq, beq_iff_eq, List.all_eq_true]
  refine ⟨its, ⟨called.arity, fun p mem => ?_⟩, ?_⟩
  · exact Session.conforms_of_tree _ tree _ _ (called.fitting p mem)
  · exact List.contains_iff_mem.2 (visible.mem_ancestors lineage named)

/-- No body goes without what its property declares. -/
theorem feeding_eq (stray : KindId → Nat → MemoKey → EvalM Value) (depth : Nat) :
    Machine.feeding S stray depth = .upTo S depth := by
  induction depth with
  | zero => rfl
  | succ n ih =>
    have bodies : EvalM.callBy S (EvalM.bodyFed S stray (.upTo S n)) =
        EvalM.callBy S (EvalM.bodyOf S (.upTo S n)) :=
      EvalM.call_by_congr_at fun s key dynVars node info index called t tree =>
        if_pos (called_fed built called tree)
    rw [Machine.feeding, ih, bodies, EvalM.call_by_body_of]
    rfl

end Built

/-- A call that gives a value gives one of the type that its property declares. -/
theorem call_typed {S : Setting} (staged : Staged S s)
    (ran : EvalM.callWith S m entity p args dynVars s = (.ok v, t)) :
    ∃ declared node info index, Called S s ⟨p, entity, args, declared⟩ dynVars node info index ∧
      t.conforms S.language info.returns v = true := by
  rcases EvalM.call_with_cases S m entity p args dynVars s with ⟨e, refused⟩ | answered
  · rw [refused] at ran
    cases ran
  · obtain ⟨declared, node, info, index, called, eq⟩ := answered
    refine ⟨declared, node, info, index, called, ?_⟩
    have gives := SessionM.map_error_ok (eq.symm.trans ran)
    unfold EvalM.answer at gives
    split at gives
    · rcases EvalM.memoized_ok gives with ⟨remembered, rfl⟩ | ⟨-, -, inner, computed, rfl⟩
      · obtain ⟨other, known, fits⟩ := staged_typed staged remembered
        cases called.known.symm.trans known
        exact Session.conforms_memo _ _ fits
      · obtain ⟨-, _, -, fits, rfl⟩ := EvalM.compute_ok computed
        exact Session.conforms_memo _ _ fits
    · obtain ⟨-, _, -, fits, rfl⟩ := EvalM.compute_ok gives
      exact fits

/-- **Results are of their types.** In a language that is built no body runs without what its
property declares: as many arguments as parameters, each of its type, and a receiver whose
kind comes from the owner. Wherever a run of a session is, what is remembered is of the type
that its property declares, and so is what a call gives, in the session it leads to, whether
it was remembered or not; the call itself was given what the property declares. -/
theorem results_are_typed {S : Setting} {declarations : List Declaration}
    (built : (Builder.declare declarations).build = .ok S.language) :
    let l := S.language
    (∀ stray depth, Machine.feeding S stray depth = .upTo S depth) ∧
    ∀ home running s, Point S home running s →
      (∀ (key : MemoKey) v, s.memo.done[key]? = some v → ∃ info, l.property? key.prop = some info ∧
        s.conforms l info.returns v = true) ∧
      ∀ depth (entity : Entity) p args dynVars v t,
        (Machine.upTo S depth).call entity p args dynVars s = (.ok v, t) →
        ∃ node info, s.tree.node? entity.node = some node ∧ l.property? p = some info ∧
          t.conforms l info.returns v = true ∧ args.length = info.params.length ∧
          (∀ a ∈ args.zip info.paramTypes, s.conforms l a.2 a.1 = true) ∧
          l.Derives node.kind info.owner := by
  intro l
  refine ⟨feeding_eq built, fun home running s point =>
    ⟨fun key v => staged_typed (staged_of_point point), fun depth entity p args dynVars v t ran => ?_⟩⟩
  cases depth with
  | zero => cases ran
  | succ n =>
    obtain ⟨declared, node, info, index, called, fits⟩ := call_typed (staged_of_point point) ran
    exact ⟨node, info, called.held, called.known, fits, called.arity, called.fitting,
      called_derives built called⟩

/-- A leaf makes a pair of itself and what it is given, and this is remembered. -/
def Builder.pairing : Builder := .declare [
  .kind ⟨"Base", none, [], [], true, false, false, .caller⟩,
  .kind ⟨"Leaf", some ⟨0⟩, [], [], false, false, false, .caller⟩,
  .property ⟨⟨0⟩, "pair", [("other", .entity ⟨0⟩)], .array (.entity ⟨0⟩), [], true, true,
    .expr (.array [.self, .arg 0]), .caller⟩]

/-- The setting of these declarations. -/
def Setting.pairing : Setting where
  language := {
    kinds := #[⟨⟨0⟩, "Base", none, true, [], false, false, [], [⟨0⟩], .caller⟩,
      ⟨⟨1⟩, "Leaf", some ⟨0⟩, false, [], false, false, [], [⟨1⟩, ⟨0⟩], .caller⟩]
    properties := #[⟨⟨0⟩, "pair", ⟨0⟩, [("other", .entity ⟨0⟩)], .array (.entity ⟨0⟩), [], true,
      true, [0], .caller⟩]
    implementations := #[⟨⟨0⟩, ⟨0⟩, .expr (.array [.self, .arg 0]), .caller⟩]
    dynVars := #[]
    envSpecs := #[]
    metadata := none
    table := #[#[none], #[some (.runs 0)]]
    warnings := [] }
  config := .standard

/-- The session in which one more leaf was made. -/
def Session.leafAdded (s : Session) : Session :=
  Operation.run .pairing .exhausted s (.addNode ⟨0⟩ ⟨1⟩ [] .empty .dummy)

/-- A session over two leaves. -/
def Session.overLeaves : Session :=
  (Operation.run .pairing .exhausted (.new (.new none) .standard .ready) (.newUnit ""))
    |>.leafAdded |>.leafAdded

/-- The call of the first leaf with the second one. -/
def MemoKey.pairing : MemoKey := ⟨⟨0⟩, .bare ⟨0⟩, [.entity (.bare ⟨1⟩)], .none⟩

/-- What it gives. -/
def Value.leaves : Value := .array ⟨[.entity (.bare ⟨0⟩), .entity (.bare ⟨1⟩)]⟩

/-- The session in which that is remembered. -/
def Session.paired : Session := { Session.overLeaves with
  memo := (Session.overLeaves.memo.start .pairing).finish .pairing .leaves }

theorem pairing_computed :
    (Machine.upTo .pairing 1).call (.bare ⟨0⟩) ⟨0⟩ [.entity (.bare ⟨1⟩)] .none .overLeaves =
      (.ok .leaves, .paired) := by
  have called : Called .pairing .overLeaves .pairing .none _ _ 0 :=
    ⟨rfl, rfl, rfl, by decide +kernel, rfl, rfl⟩
  let begun : Session := { Session.overLeaves with memo := Session.overLeaves.memo.start .pairing }
  have ran : EvalM.bodyOf .pairing (.upTo .pairing 0) ⟨1⟩ 0 .pairing begun.deeper =
      (.ok .leaves, begun.deeper) := rfl
  have fits : Session.overLeaves.conforms Setting.pairing.language (.array (.entity ⟨0⟩))
      .leaves = true := by decide +kernel
  have computed : EvalM.compute .pairing (.upTo .pairing 0) ⟨1⟩
      Setting.pairing.language.properties[0] 0 .pairing begun = (.ok .leaves, begun) :=
    EvalM.compute_of_body (.inr (by decide)) ran (Session.conforms_memo _ begun.memo fits)
  exact (called_eq called (.upTo .pairing 0)).trans <| SessionM.map_error_of_ok <|
    EvalM.memoized_of_computed Std.HashMap.getElem?_empty Std.HashSet.not_mem_empty computed

/-- A remembered result is of its type in a tree that has grown. -/
theorem results_are_typed_of_remembered :
    let S := Setting.pairing
    let ask := (Machine.upTo S 1).call (.bare ⟨0⟩) ⟨0⟩ [.entity (.bare ⟨1⟩)] .none
    let t := (ask .overLeaves).2.leafAdded
    Builder.pairing.build = .ok S.language ∧ t.tree.size = Session.overLeaves.tree.size + 1 ∧
      ∃ v u, t.memo.done[MemoKey.pairing]? = some v ∧ ask t = (.ok v, u) ∧
        t.conforms S.language (.array (.entity ⟨0⟩)) v = true ∧
        u.conforms S.language (.array (.entity ⟨0⟩)) v = true ∧ S.language.Derives ⟨1⟩ ⟨0⟩ := by
  intro S ask t
  have built : Builder.pairing.build = .ok S.language := by
    unfold Builder.pairing S Setting.pairing
    cbv
  have point : Point S .ready [] t := by
    have start : Point S .ready [] .overLeaves :=
      (((Point.start _ _).carried (.newUnit "") 0).carried (.addNode ⟨0⟩ ⟨1⟩ [] .empty .dummy)
        0).carried (.addNode ⟨0⟩ ⟨1⟩ [] .empty .dummy) 0
    exact (start.carried (.request (.call (.bare ⟨0⟩) ⟨0⟩ [.entity (.bare ⟨1⟩)] .none)) 1).carried
      (.addNode ⟨0⟩ ⟨1⟩ [] .empty .dummy) 0
  have grown : t = Session.paired.leafAdded := congrArg Session.leafAdded
    (congrArg Prod.snd pairing_computed)
  clear_value t
  have remembered : t.memo.done[MemoKey.pairing]? = some .leaves := by
    rw [grown]
    exact Std.HashMap.getElem?_insert_self
  obtain ⟨node, info, called, kept, kind⟩ : ∃ node info, Called S t .pairing .none node info 0 ∧
      (S.config.memoize && info.memoized) = true ∧ node.kind = ⟨1⟩ := by
    rw [grown]
    exact ⟨_, _, ⟨rfl, rfl, rfl, by decide +kernel, rfl, rfl⟩, rfl, rfl⟩
  have recalled : EvalM.answer S (.upTo S 0) node.kind info 0 .pairing t =
      (.ok .leaves, { t with memo := t.memo.hit }) := by
    unfold EvalM.answer
    rw [if_pos kept]
    exact EvalM.memoized_of_known remembered
  have again : ask t = (.ok .leaves, { t with memo := t.memo.hit }) :=
    (called_eq called (.upTo S 0)).trans (SessionM.map_error_of_ok recalled)
  obtain ⟨-, points⟩ := results_are_typed built
  obtain ⟨typed, calls⟩ := points .ready [] t point
  obtain ⟨_, known, fits⟩ := typed _ _ remembered
  cases known
  obtain ⟨_, _, held, known, gives, -, -, derives⟩ := calls 1 _ _ _ _ _ _ again
  cases known
  cases called.held.symm.trans held
  refine ⟨built, ?_, .leaves, _, remembered, again, fits, gives, kind ▸ derives⟩
  rw [grown]
  rfl

end Trellis
