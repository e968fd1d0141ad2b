import Trellis.Proofs.Session.Plain

/-! Calls in two sessions. Where a call on the left is answered by a body, it is
answered by the same body on the right; so the calls agree if the bodies do, one
call deeper. -/
namespace Trellis

variable {K K' : Pairing} {S S' : Setting} {m : Machine} {ms : ℕ → Machine} {u w : Session}

section Conforms
variable {l : Language}

mutual

/-- A value that is of a type stays so as long as nodes keep their kinds. -/
theorem conforms_of_kinds
    (kinds : ∀ n a, u.tree.node? n = some a → ∃ b, w.tree.node? n = some b ∧ b.kind = a.kind) :
    (type : ValueType) → (v : Value) → u.conforms l type v = true → w.conforms l type v = true
  | type, .array ⟨items⟩, fits => by
    cases type with
    | array element =>
      rw [Session.conforms] at fits ⊢
      exact conforms_all_of_kinds kinds element items fits
    | _ => exact fits
  | type, .entity e, fits => by
    cases type with
    | entity kind =>
      rw [Session.conforms] at fits ⊢
      cases held : u.tree.node? e.node with
      | none => rw [held] at fits; cases fits
      | some a =>
        obtain ⟨b, there, same⟩ := kinds e.node a held
        rw [held, Option.any_some] at fits
        rwa [there, Option.any_some, same]
    | _ => exact fits
  | type, .null, fits => by cases type <;> exact fits
  | type, .unit, fits => by cases type <;> exact fits
  | type, .bool _, fits => by cases type <;> exact fits
  | type, .int _, fits => by cases type <;> exact fits
  | type, .symbol _, fits => by cases type <;> exact fits
  | type, .env _, fits => by cases type <;> exact fits
  | type, .logicVar _, fits => by cases type <;> exact fits
  | type, .equation _, fits => by cases type <;> exact fits

theorem conforms_all_of_kinds
    (kinds : ∀ n a, u.tree.node? n = some a → ∃ b, w.tree.node? n = some b ∧ b.kind = a.kind)
    (type : ValueType) : (vs : List Value) → u.conformsAll l type vs = true →
    w.conformsAll l type vs = true
  | [], _ => by rw [Session.conformsAll]
  | v :: rest, fit => by
    rw [Session.conformsAll, Bool.and_eq_true] at fit ⊢
    exact ⟨conforms_of_kinds kinds type v fit.1, conforms_all_of_kinds kinds type rest fit.2⟩

end

end Conforms

/-- Nodes on the left have the same kinds on the right. -/
theorem paired_kinds (paired : K.paired u w) (ahead : K.ahead u) (n : NodeId) (a : Node)
    (held : u.tree.node? n = some a) : ∃ b, w.tree.node? n = some b ∧ b.kind = a.kind := by
  obtain ⟨b, there, later, -⟩ := K.nodes paired ahead held
  exact ⟨b, there, later.kind⟩

/-- Which body answers a call depends on the language and on the kinds of nodes only. -/
theorem called_of_kinds (same : S'.language = S.language)
    (kinds : ∀ n a, u.tree.node? n = some a → ∃ b, w.tree.node? n = some b ∧ b.kind = a.kind)
    (called : Called S u key dynVars node info index) :
    ∃ b, Called S' w key dynVars b info index ∧ b.kind = node.kind := by
  obtain ⟨b, there, kind⟩ := kinds _ _ called.held
  refine ⟨b, ⟨there, same ▸ called.known, called.arity, fun p mem => ?_, called.declared, ?_⟩, kind⟩
  · rw [same]
    exact conforms_of_kinds kinds _ _ (called.fitting p mem)
  · rw [same, kind, called.dispatched]

/-- What a body answers on the left it answers on the right. -/
theorem called_paired (same : S'.language = S.language) (paired : K.paired u w) (ahead : K.ahead u)
    (called : Called S u key dynVars node info index) :
    ∃ b, Called S' w key dynVars b info index ∧ b.kind = node.kind :=
  called_of_kinds same (paired_kinds paired ahead) called

/-- What a body answers it answers in a later session too. -/
theorem called_later (later : u.Later w) (called : Called S u key dynVars node info index) :
    ∃ b, Called S w key dynVars b info index ∧ b.kind = node.kind := by
  refine called_of_kinds rfl (fun n a held => ?_) called
  obtain ⟨b, there, same⟩ := later.tree.nodes _ _ held
  exact ⟨b, there, same.kind⟩

/-- Where trees are the same, the node that is called is the same as well. -/
theorem called_of_tree (same : S'.language = S.language) (tree : w.tree = u.tree)
    (called : Called S u key dynVars node info index) :
    Called S' w key dynVars node info index := by
  obtain ⟨b, there, -⟩ :=
    called_of_kinds same (fun n a held => ⟨a, by rw [tree]; exact held, rfl⟩) called
  have here := there.held
  rw [tree, called.held] at here
  cases here
  exact there

/-- How a pairing is related to the one of a call deeper. -/
structure Pairing.Nests (K K' : Pairing) (limit limit' : Nat) : Prop where
  course : ∀ {u v}, K'.course u.deeper v → K.course u v.shallower
  ahead : ∀ {v}, K.ahead v.shallower → K'.ahead v
  enter : ∀ {u w}, K.paired u w → K'.paired u.deeper w.deeper
  leave : ∀ {v z}, K'.paired v z → K.paired v.shallower z.shallower
  excused : ∀ {fault}, K'.excused fault → K.excused fault
  limit : ∀ {u w}, K.paired u w → u.Within limit → ¬ w.Within limit' →
    K.excused (.depthExceeded limit')

namespace EvalM
open SessionM

/-- The bodies of a plain language follow each other as the machines do. -/
theorem body_of_follows (plain : S.language.IsPlain) (same : S'.language = S.language)
    (machine : m.Follows K ms) (kind : KindId) (index : Nat) (key : MemoKey) :
    Follows K (bodyOf S m kind index key) (fun k => bodyOf S' (ms k) kind index key) := by
  obtain ⟨l, c⟩ := S
  obtain ⟨l', c'⟩ := S'
  cases same
  unfold bodyOf
  dsimp only
  cases found : l.implementation? index with
  | none => exact follows_fail _
  | some i =>
    have isPlain := plain index i found
    unfold runBody
    dsimp only
    cases body : i.body with
    | expr e =>
      rw [body] at isPlain
      exact FrameM.follows_run_in _ (FrameM.eval_follows l c c' machine e isPlain)
    | external run => rw [body] at isPlain; exact isPlain.elim
    | abstract check => exact follows_fail _
    | pending => exact follows_fail _

theorem compute_follows (info : PropertyInfo) (same : S'.language = S.language)
    (nests : K.Nests K' S.config.maxCallDepth S'.config.maxCallDepth)
    (body : Follows K' (bodyOf S m kind index key) (fun k => bodyOf S' (ms k) kind index key)) :
    Follows K (compute S m kind info index key)
      (fun k => compute S' (ms k) kind info index key) := by
  intro u
  obtain ⟨inside, followed⟩ := body u.deeper
  refine ⟨?_, fun w x v paired ran ahead => ?_⟩
  · by_cases within : u.Within S.config.maxCallDepth
    · rw [compute_state within]
      exact nests.course inside
    · rw [compute_too_deep within]
      exact K.course_refl u
  · obtain ⟨within, v', body, fits, rfl⟩ := compute_ok ran
    by_cases within' : w.Within S'.config.maxCallDepth
    · rcases followed w.deeper x v' (nests.enter paired) body (nests.ahead ahead) with
        ⟨z, paired, reached⟩ | excused
      · have back := nests.leave paired
        refine .inl ⟨z.shallower, back, reached.mono fun k ran => compute_of_body within' ran ?_⟩
        rw [same]
        exact conforms_of_kinds (paired_kinds back ahead) _ _ fits
      · exact .inr (excused.mono fun k ⟨e, z, allowed, failed⟩ =>
          ⟨e, z.shallower, nests.excused allowed, compute_of_failure within' failed⟩)
    · exact .inr (.of_forall fun k =>
        ⟨_, w, nests.limit paired within within', compute_too_deep within'⟩)

theorem call_with_follows (same : S'.language = S.language)
    (answers : ∀ {u key dynVars node info index}, Called S u key dynVars node info index →
      FollowsAt K (answer S m node.kind info index key)
        (fun k => answer S' (ms k) node.kind info index key) u)
    (entity : Entity) (prop : PropId) (args : List Value) (dynVars : DynVars) :
    Follows K (callWith S m entity prop args dynVars)
      (fun k => callWith S' (ms k) entity prop args dynVars) := by
  intro u
  rcases call_with_cases S m entity prop args dynVars u with ⟨e, refused⟩ | found
  · unfold FollowsAt
    rw [refused]
    exact ⟨K.course_refl u, fun w x v _ ran => nomatch ran⟩
  · obtain ⟨declared, node, info, index, called, eq⟩ := found
    obtain ⟨course, followed⟩ := follows_map_error entity.node prop (answers called)
    unfold FollowsAt
    rw [eq]
    refine ⟨course, fun w x v paired ran ahead => ?_⟩
    have before : K.ahead u := by
      rw [ran] at course
      exact K.ahead_back course ahead
    obtain ⟨b, there, kind⟩ := called_paired same paired before called
    have right (k : ℕ) := called_eq there (ms k)
    simp only [kind] at right
    simpa only [Excused, right] using followed w x v paired ran ahead

end EvalM
end Trellis
