import Trellis.Session.Basic

/-! Searching environments. An environment answers with its own bindings, the
newest first, then with what is found through its references, in the order they
were made, and then with what its parent answers. An environment that is being
searched already answers nothing, so every cycle ends. -/
namespace Trellis

/-- A binding as it appears from a view on its environment. -/
def EnvValue.see (view : EnvValue) (b : Binding) : Entity :=
  ⟨b.entity.node, b.entity.info.extend (view.metadata.combine b.metadata) view.rebindings⟩

/-- What a binding has to offer, which is nothing when it lacks the metadata
asked for. -/
def EnvValue.offer (view : EnvValue) (q : LookupQuery) (b : Binding) : Option Entity :=
  let seen := view.see b
  if seen.info.metadata.contains q.require then some seen else none

/-- What an environment itself has to offer, the newest binding first. Where one
result is enough the older bindings are not looked at. -/
def EnvStore.direct (envs : EnvStore) (q : LookupQuery) (view : EnvValue) (env : EnvId) :
    List Entity :=
  let bindings := envs.newestFirst env q.symbol
  if q.first then (bindings.findSome? (view.offer q)).toList
  else bindings.filterMap (view.offer q)

/-- The view on an environment that is reached from `view` through a
reference. -/
def EnvValue.cross (view : EnvValue) (crossing : Crossing) (referenced : EnvValue) : EnvValue where
  env := referenced.env
  metadata := (view.metadata.combine crossing.metadata).combine referenced.metadata
  rebindings :=
    let composed := view.rebindings.compose referenced.rebindings
    match crossing.rebind with
    | some (old, new) => composed.push old new
    | none => composed

namespace EvalM

/-- Search `count` references, from the one numbered `i` on, until enough is
found. -/
def searchReferences (m : Machine) (q : LookupQuery) (view : EnvValue) (env : EnvId)
    (visiting : List EnvId) : (count : Nat) → (i : Nat) → Array Entity → EvalM (Array Entity)
  | 0, _, found => pure found
  | count + 1, i, found => do
    let referenced ← m.resolve env i
    match ← SessionM.read fun s => s.envs.reference? env i with
    | none => searchReferences m q view env visiting count (i + 1) found
    | some reference => do
      let found ← m.search q (view.cross reference.crossing referenced) visiting found
      if q.done found then return found
      searchReferences m q view env visiting count (i + 1) found

/-- Search one environment and everything beyond it. -/
def searchWith (m : Machine) (q : LookupQuery) (view : EnvValue) (visiting : List EnvId)
    (found : Array Entity) : EvalM (Array Entity) := do
  let env := view.rebindings.standIn view.env
  if env = .empty || visiting.contains env || q.done found then return found
  let visiting := env :: visiting
  let direct ← SessionM.read fun s => s.envs.direct q view env
  let found := found ++ direct
  if q.done found then return found
  let count ← SessionM.read fun s => (s.envs.references env).size
  let found ← searchReferences m q view env visiting count 0 found
  if q.done found then return found
  match ← SessionM.read fun s => s.envs.parent env with
  | some parent => m.search q { view with env := parent } visiting found
  | none => return found

end EvalM
end Trellis
