import Trellis.Proofs.Session.Precedence

/-! What metadata does to a lookup. It is gathered along the way and looked at only where a
binding is found; where a search goes, what it resolves and how it ends are the same whatever
it starts with and whatever is asked for. So the metadata that a search starts with joins that
of everything it finds, and what is asked for is kept of that. -/
namespace Trellis

/-- The same entity with further metadata. -/
def Entity.tinted (x : Entity) (metadata : Metadata) : Entity :=
  ⟨x.node, ⟨x.info.metadata.combine metadata, x.info.rebindings⟩⟩

/-- A view that starts with further metadata. -/
def EnvValue.tinted (view : EnvValue) (metadata : Metadata) : EnvValue :=
  { view with metadata := view.metadata.combine metadata }

/-- Of what was found, the entities that have the metadata asked for once they are given more. -/
def sifted (metadata require : Metadata) (found : Array Entity) : Array Entity :=
  (found.map (·.tinted metadata)).filter (·.info.metadata.contains require)

section
variable (metadata require : Metadata)

theorem EnvValue.see_tinted (view : EnvValue) (b : Binding) :
    (view.tinted metadata).see b = (view.see b).tinted metadata := by
  simp only [tinted, see, Entity.tinted, EntityInfo.extend]
  congr 2
  ac_rfl

theorem EnvValue.cross_tinted (view value : EnvValue) (c : Crossing) :
    (view.tinted metadata).cross c value = (view.cross c value).tinted metadata := by
  simp only [tinted, cross]
  congr 1
  ac_rfl

theorem EnvStore.sifted_direct (envs : EnvStore) (symbol : Symbol) (view : EnvValue) (e : EnvId)
    (found : Array Entity) :
    sifted metadata require found ++ envs.direct ⟨symbol, require, false⟩ (view.tinted metadata) e =
      sifted metadata require (found ++ envs.direct ⟨symbol, .empty, false⟩ view e) := by
  have see : (view.tinted metadata).see = fun b => (view.see b).tinted metadata :=
    funext (view.see_tinted metadata)
  apply Array.ext'
  simp [direct_eq, sifted, see, Metadata.contains_empty, Function.comp_def]

namespace EvalM
variable {m : Machine} {symbol : Symbol}

theorem read_bind_congr {f : Session → α} {g : Session → β} {next : α → EvalM γ}
    {next' : β → EvalM γ} (same : ∀ s, next (f s) = next' (g s)) :
    SessionM.read f >>= next = SessionM.read g >>= next' := by
  funext s
  rw [SessionM.run_bind, SessionM.run_bind, SessionM.run_read, SessionM.run_read]
  exact congrFun (same s) s

section
variable (searches : ∀ view visiting found,
  m.search ⟨symbol, require, false⟩ (view.tinted metadata) visiting
      (sifted metadata require found) =
    sifted metadata require <$> m.search ⟨symbol, .empty, false⟩ view visiting found)
include searches

theorem search_references_tinted (view : EnvValue) (env : EnvId) (visiting : List EnvId)
    (count i : Nat) (found : Array Entity) :
    searchReferences m ⟨symbol, require, false⟩ (view.tinted metadata) env visiting count i
        (sifted metadata require found) =
      sifted metadata require <$>
        searchReferences m ⟨symbol, .empty, false⟩ view env visiting count i found := by
  induction count generalizing i found with
  | zero => simp [searchReferences]
  | succ count ih =>
    simp only [searchReferences, LookupQuery.done, Bool.false_and, map_bind]
    refine bind_congr fun referenced => bind_congr fun reference => ?_
    cases reference with
    | none => exact ih (i + 1) found
    | some reference =>
      simp only [EnvValue.cross_tinted, searches, bind_map_left, map_bind]
      exact bind_congr fun found => ih (i + 1) found

theorem search_with_tinted (view : EnvValue) (visiting : List EnvId) (found : Array Entity) :
    searchWith m ⟨symbol, require, false⟩ (view.tinted metadata) visiting
        (sifted metadata require found) =
      sifted metadata require <$> searchWith m ⟨symbol, .empty, false⟩ view visiting found := by
  have place : (view.tinted metadata).rebindings.standIn (view.tinted metadata).env =
      view.rebindings.standIn view.env := rfl
  unfold searchWith
  simp only [place, LookupQuery.done, Bool.false_and, Bool.or_false]
  split
  · rw [map_pure]
  · rw [map_bind]
    -- only what the environment itself has is sifted here, the rest by the searches beyond it
    refine read_bind_congr fun s => ?_
    simp only [Bool.false_eq_true, if_false, EnvStore.sifted_direct, map_bind]
    refine bind_congr fun count => ?_
    rw [search_references_tinted metadata require searches, bind_map_left]
    refine bind_congr fun found => bind_congr fun parent => ?_
    cases parent with
    | none => rw [map_pure]
    | some parent => exact searches { view with env := parent } _ found

end

theorem search_tinted (S : Setting) (depth : Nat) (symbol : Symbol) (view : EnvValue)
    (visiting : List EnvId) (found : Array Entity) :
    (Machine.upTo S depth).search ⟨symbol, require, false⟩ (view.tinted metadata) visiting
        (sifted metadata require found) =
      sifted metadata require <$>
        (Machine.upTo S depth).search ⟨symbol, .empty, false⟩ view visiting found := by
  induction depth generalizing view visiting found with
  | zero => rfl
  | succ depth ih => exact search_with_tinted metadata require ih view visiting found

end EvalM

/-- Metadata acts on a lookup as a filter and a map: what a view starts with joins the metadata
of every entity that the same view without metadata finds, and of these the ones that then
have what is asked for are kept, in their order. It has no say in how the lookup ends and in
what it leaves behind, whichever references it has to resolve. -/
theorem lookup_sifted (S : Setting) (depth : Nat) (env : EnvId) (R : Rebindings) (symbol : Symbol)
    (s : Session) :
    (Machine.upTo S depth).lookup ⟨env, R, metadata⟩ symbol require s =
      match (Machine.upTo S depth).lookup ⟨env, R, .empty⟩ symbol .empty s with
      | (.ok found, t) =>
        (.ok ((found.map (·.tinted metadata)).filter (·.info.metadata.contains require)), t)
      | (.error e, t) => (.error e, t) := by
  have start : sifted metadata require #[] = #[] := by simp [sifted]
  have searched := EvalM.search_tinted metadata require S depth symbol ⟨env, R, .empty⟩ [] #[]
  rw [start, EnvValue.tinted, Metadata.empty_combine] at searched
  rw [Machine.lookup, Machine.lookup, searched, map_eq_pure_bind, SessionM.run_bind]
  rcases (Machine.upTo S depth).search _ _ _ _ s with ⟨halt | found, t⟩ <;> rfl

end
end Trellis
