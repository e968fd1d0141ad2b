import Trellis.Language.Build

/-! What declarations make of a definition. A declaration is refused, and then the
definition is as it was, or it makes one of a few changes; so what every change
keeps holds of every definition there is. -/
namespace Trellis

/-- One declaration of a language. -/
inductive Declaration where
  | kind (decl : KindDecl)
  | dynVar (name : String) (type : ValueType) (site : Site)
  | property (decl : PropertyDecl)
  | setBody (prop : PropId) (owner : KindId) (body : Expr) (site : Site)
  | envSpec (kind : KindId) (spec : EnvSpec)
  | envMetadata (decl : MetadataDecl)

/-- Make a declaration, whether or not it is refused. -/
def Declaration.run : Declaration → Builder → Builder
  | kind decl, b => (Builder.kind decl b).2
  | dynVar name type site, b => (Builder.dynVar name type site b).2
  | property decl, b => (Builder.property decl b).2
  | setBody prop owner body site, b => (Builder.setBody prop owner body site b).2
  | envSpec k spec, b => (Builder.envSpec k spec b).2
  | envMetadata decl, b => (Builder.envMetadata decl b).2

/-- The builder after some declarations. -/
def Builder.declare (declarations : List Declaration) : Builder :=
  declarations.foldl (fun b declaration => declaration.run b) .new

/-- No property of that name has an implementation on the kind, and none is declared on a
kind below it. -/
def Definition.Clears (d : Definition) (name : String) (owner : KindId) : Prop :=
  ∀ p ∈ d.properties.toList, p.name = name →
    (∀ i ∈ p.implementations, d.implementer? i ≠ some owner) ∧ owner ∉ d.ancestors p.owner

/-- A kind has the fields and the logic variables of the one it is declared under, in
their places, and its own after them. A list adds no field, and nothing is declared under
a list. -/
structure KindInfo.CarriesOn (kind parent : KindInfo) : Prop where
  single : parent.isList = false
  fields : parent.fields <+: kind.fields
  logicVars : parent.logicVars <+: kind.logicVars
  list : kind.isList = true → kind.fields = parent.fields

/-- A kind carries on its parent; a list that has none has no fields. -/
structure Definition.Lays (d : Definition) (info : KindInfo) : Prop where
  inherits : ∀ {p parent}, info.parent = some p → d.kind? p = some parent → info.CarriesOn parent
  bare : info.parent = none → info.isList = true → info.fields = []

/-- What one accepted declaration does to a definition. -/
inductive Definition.Extends (d : Definition) : Definition → Prop
  | kind (info : KindInfo) (placed : info.id = ⟨d.kinds.size⟩)
      (fresh : d.kinds.any (·.name == info.name) = false)
      (known : ∀ p, info.parent = some p → (d.kind? p).isSome)
      (descended : info.ancestors = info.id :: info.parent.elim [] d.ancestors)
      (laid : d.Lays info) :
      Extends d { d with kinds := d.kinds.push info }
  | dynVar (info : DynVarInfo) (placed : info.id = ⟨d.dynVars.size⟩)
      (fresh : d.dynVars.any (·.name == info.name) = false) :
      Extends d { d with dynVars := d.dynVars.push info }
  /-- A property of its own, with its first implementation. -/
  | property (info : PropertyInfo) (i : Implementation) (placed : info.id = ⟨d.properties.size⟩)
      (first : info.implementations = [d.implementations.size]) (same : i.prop = info.id)
      (owned : i.owner = info.owner) (known : (d.kind? info.owner).isSome)
      (clears : d.Clears info.name info.owner)
      (apart : ∀ p ∈ d.properties.toList, p.name = info.name → p.owner ∉ d.ancestors info.owner) :
      Extends d { d with
        properties := d.properties.push info, implementations := d.implementations.push i }
  /-- Another implementation of a property there is. -/
  | override (base : PropertyInfo) (i : Implementation) (listed : base ∈ d.properties.toList)
      (same : i.prop = base.id) (beneath : base.owner ∈ d.ancestors i.owner)
      (clears : d.Clears base.name i.owner) :
      Extends d { d with
        properties := d.properties.modify base.id.raw fun p =>
          { p with implementations := p.implementations ++ [d.implementations.size] },
        implementations := d.implementations.push i }
  | body (index : Nat) (body : Expr) :
      Extends d { d with
        implementations := d.implementations.modify index ({ · with body := .expr body }) }
  | envSpec (spec : KindEnvSpec) : Extends d { d with envSpecs := d.envSpecs.push spec }
  | metadata (info : MetadataInfo) : Extends d { d with metadata := some info }

namespace Builder

theorem run_bind (act : BuildM α) (next : α → BuildM β) (b : Builder) :
    (act >>= next) b = match act b with
      | (.ok x, b') => next x b'
      | (.error e, b') => (.error e, b') := by
  simp only [bind, ExceptT.bind, ExceptT.mk, StateT.bind, ExceptT.bindCont]
  rcases act b with ⟨x | e, b'⟩ <;> rfl

/-! ## Refusals, checks, and what follows them -/

/-- What a refused declaration leaves behind: one more error in the log. -/
structure Refused (before after : Builder) : Prop where
  definition : after.definition = before.definition
  context : after.log.context = before.log.context
  pending : after.log.pending = before.log.pending
  reported : ∃ e, e.severity = .error ∧ after.log.reported = before.log.reported ++ [e]

/-- What an action comes to at the definition `d`, whatever the log says: it is refused,
or it gives a result and a definition that `post` allows and leaves the log alone. -/
inductive Settles (d : Definition) (act : BuildM α) (post : α → Definition → Prop) : Prop
  | refused (fails : ∀ b, b.definition = d → ∃ e, (act b).1 = .error e ∧ Refused b (act b).2)
  | accepted (x : α) (e : Definition)
      (runs : ∀ b, b.definition = d → act b = (.ok x, { b with definition := e }))
      (allowed : post x e)

/-- At the definition `d` an action changes nothing, and what it gives is as `post`
says. -/
abbrev Looks (d : Definition) (act : BuildM α) (post : α → Prop) : Prop :=
  Settles d act fun x e => e = d ∧ post x

variable {d : Definition}

theorem settles_refuse (m : Mistake) (post : α → Definition → Prop) :
    Settles d (refuse m) post :=
  .refused fun _ _ => ⟨_, rfl, ⟨rfl, rfl, rfl, _, rfl, rfl⟩⟩

theorem looks_pure {post : α → Prop} (h : post x) : Looks d (pure x) post :=
  .accepted x d (fun b here => by subst here; rfl) ⟨rfl, h⟩

theorem looks_definition : Looks d definitionM (· = d) :=
  .accepted d d (fun b here => by subst here; rfl) ⟨rfl, rfl⟩

theorem looks_require (ok : Bool) (m : Mistake) : Looks d (require ok m) fun _ => ok = true := by
  unfold require
  cases ok with
  | true => exact looks_pure rfl
  | false => exact settles_refuse m _

/-- Checks that pass are followed by the rest. -/
theorem settles_bind {act : BuildM α} {next : α → BuildM β} {p : α → Prop}
    {post : β → Definition → Prop} (first : Looks d act p)
    (rest : ∀ x, p x → Settles d (next x) post) : Settles d (act >>= next) post := by
  rcases first with fails | ⟨x, e, runs, rfl, fits⟩
  · refine .refused fun b here => ?_
    obtain ⟨e, failed, left⟩ := fails b here
    rw [run_bind, show act b = (.error e, (act b).2) from Prod.ext failed rfl]
    exact ⟨e, rfl, left⟩
  · have goes (b : Builder) (here : b.definition = e) : (act >>= next) b = next x b := by
      rw [run_bind, runs b here, ← here]
    rcases rest x fits with fails | ⟨y, f, runs, allowed⟩
    · exact .refused fun b here => by rw [goes b here]; exact fails b here
    · exact .accepted y f (fun b here => (goes b here).trans (runs b here)) allowed

theorem settles_mono {act : BuildM α} {post weaker : α → Definition → Prop}
    (settles : Settles d act post) (implies : ∀ x e, post x e → weaker x e) :
    Settles d act weaker := by
  rcases settles with fails | ⟨x, e, runs, allowed⟩
  · exact .refused fails
  · exact .accepted x e runs (implies x e allowed)

theorem looks_for {act : α → BuildM PUnit} {p : α → Prop}
    (each : ∀ x, Looks d (act x) fun _ => p x) (xs : List α) :
    Looks d (xs.forM act) fun _ => ∀ x ∈ xs, p x := by
  induction xs with
  | nil => exact looks_pure fun x mem => (List.not_mem_nil mem).elim
  | cons x xs ih =>
    refine settles_bind (each x) fun _ holds => settles_mono ih fun _ e => ?_
    exact And.imp_right fun others => List.forall_mem_cons.2 ⟨holds, others⟩

/-- The change itself, which is one of the definition. -/
theorem settles_modify {change : Builder → Builder} {post : PUnit → Definition → Prop}
    (changed : ∀ log, change ⟨d, log⟩ = ⟨(change ⟨d, .empty⟩).definition, log⟩)
    (allowed : post ⟨⟩ (change ⟨d, .empty⟩).definition) :
    Settles d (modify change : BuildM PUnit) post := by
  refine .accepted ⟨⟩ _ (fun b here => ?_) allowed
  subst here
  exact congrArg (Prod.mk _) (changed b.log)

/-- After the change a handle is given back. -/
theorem settles_done {act : BuildM α} {post : Definition → Prop}
    (settles : Settles d act fun _ => post) (handle : α → β) :
    Settles d (act >>= fun x => pure (handle x)) fun _ => post := by
  rcases settles with fails | ⟨x, e, runs, allowed⟩
  · refine .refused fun b here => ?_
    obtain ⟨e, failed, left⟩ := fails b here
    rw [run_bind, show act b = (.error e, (act b).2) from Prod.ext failed rfl]
    exact ⟨e, rfl, left⟩
  · refine .accepted (handle x) e (fun b here => ?_) allowed
    rw [run_bind, runs b here]
    rfl

theorem settles_within {act : BuildM α} {post : α → Definition → Prop}
    (inside : Settles d act post) (message : String) (site : Site) (category : String) :
    Settles d (within message site category act) post := by
  let framed (b : Builder) : Builder := { b with log := { b.log with
    context := b.log.context.push ⟨message, some site, some category⟩ } }
  rcases inside with fails | ⟨x, e, runs, allowed⟩
  · refine .refused fun b here => ?_
    obtain ⟨e, failed, left⟩ := fails (framed b) here
    exact ⟨e, failed, left.definition, rfl, left.pending, left.reported⟩
  · refine .accepted x e (fun b here => ?_) allowed
    have ran : act (framed b) = _ := runs (framed b) here
    simp only [within]
    rw [show act _ = _ from ran]

/-! ## The declarations -/

theorem looks_extend_names (duplicate : String → Mistake) (inherited own : List String) :
    Looks d (extendNames duplicate inherited own) (· = inherited ++ own) := by
  induction own generalizing inherited with
  | nil => exact looks_pure (List.append_nil _).symm
  | cons name rest ih =>
    refine settles_bind (looks_require _ _) fun _ _ => ?_
    rw [show inherited ++ name :: rest = (inherited ++ [name]) ++ rest by simp]
    exact ih _

theorem kind_extends (decl : KindDecl) : Settles d (kind decl) fun _ => d.Extends := by
  refine settles_within ?_ _ _ _
  refine settles_bind looks_definition ?_
  rintro d rfl
  refine settles_bind (looks_require _ _) fun _ fresh => ?_
  refine settles_bind (looks_require _ _) fun _ unnamed => ?_
  dsimp only
  have fresh : d.kinds.any (·.name == decl.name) = false := by simpa using fresh
  have unnamed (list : decl.isList = true) : decl.fields = [] := by simpa [list] using unnamed
  cases derived : decl.parent with
  | none =>
    refine settles_bind (p := (· = ([], [], []))) (looks_pure rfl) ?_
    rintro _ rfl
    refine settles_bind (looks_extend_names _ _ _) ?_
    rintro _ rfl
    refine settles_bind (looks_extend_names _ _ _) ?_
    rintro _ rfl
    refine settles_done (settles_modify (fun _ => rfl) (.kind _ rfl fresh ?_ rfl ⟨?_, ?_⟩)) _
    · exact fun _ none => nomatch none
    · exact fun none => nomatch none
    · exact fun _ => unnamed
  | some parent =>
    dsimp only
    cases known : d.kind? parent with
    | none => exact settles_bind (p := fun _ => False) (settles_refuse _ _) fun _ => False.elim
    | some info =>
      refine settles_bind (looks_require _ _) fun _ single => ?_
      refine settles_bind (p := (· = (info.fields, info.logicVars, info.ancestors)))
        (looks_pure rfl) ?_
      rintro _ rfl
      refine settles_bind (looks_extend_names _ _ _) ?_
      rintro _ rfl
      refine settles_bind (looks_extend_names _ _ _) ?_
      rintro _ rfl
      refine settles_done (settles_modify (fun _ => rfl) (.kind _ rfl fresh ?_ ?_ ⟨?_, ?_⟩)) _
      · rintro _ ⟨⟩
        exact Option.isSome_of_mem known
      · simp [Definition.ancestors, known]
      · rintro _ _ ⟨⟩ found
        cases known.symm.trans found
        refine ⟨by simpa using single, List.prefix_append _ _, List.prefix_append _ _, ?_⟩
        exact fun list => by rw [unnamed list, List.append_nil]
      · exact fun none => nomatch none

theorem dyn_var_extends (name : String) (type : ValueType) (site : Site) :
    Settles d (dynVar name type site) fun _ => d.Extends := by
  refine settles_within ?_ _ _ _
  refine settles_bind looks_definition ?_
  rintro _ rfl
  refine settles_bind (looks_require _ _) fun _ fresh => ?_
  refine settles_done (settles_modify (fun _ => rfl) (.dynVar _ rfl ?_)) _
  simpa using fresh

theorem looks_check_type (type : ValueType) : Looks d (checkType type) fun _ => True := by
  induction type with
  | entity k =>
    refine settles_bind looks_definition fun _ _ => settles_mono (looks_require _ _) fun _ _ => ?_
    exact And.imp_right fun _ => trivial
  | array element ih => exact ih
  | _ => exact looks_pure trivial

/-- The property that is overridden is one of the definition, of that name and visible
there; where there is none, no property of that name is visible. -/
theorem looks_find_base (decl : PropertyDecl) (ancestors : List KindId) :
    Looks d (findBase d decl ancestors) fun base => d.Clears decl.name decl.owner ∧
      (∀ p, base = some p → p ∈ d.properties.toList ∧ p.name = decl.name ∧ p.owner ∈ ancestors) ∧
      (base = none → ∀ p ∈ d.properties.toList, p.name = decl.name → p.owner ∉ ancestors) := by
  have named (p : PropertyInfo) : p ∈ d.properties.toList.filter (·.name == decl.name) ↔
      p ∈ d.properties.toList ∧ p.name = decl.name := by
    rw [List.mem_filter, beq_iff_eq]
  refine settles_bind (looks_for (p := fun p => (∀ i ∈ p.implementations,
    d.implementer? i ≠ some decl.owner) ∧ decl.owner ∉ d.ancestors p.owner) (fun p => ?_) _) ?_
  · refine settles_bind (looks_require _ _) fun _ single => ?_
    refine settles_mono (looks_require _ _) fun _ _ => And.imp_right fun above => ⟨?_, ?_⟩
    · simpa using single
    · simpa using above
  · refine fun _ apart => looks_pure ⟨fun p mem name => apart p ((named p).2 ⟨mem, name⟩), ?_, ?_⟩
    · intro p found
      obtain ⟨mem, name⟩ := (named p).1 (List.mem_of_find?_eq_some found)
      exact ⟨mem, name, by simpa using List.find?_some found⟩
    · intro nothing p mem name
      simpa using List.find?_eq_none.1 nothing p ((named p).2 ⟨mem, name⟩)

theorem property_extends (decl : PropertyDecl) :
    Settles d (property decl) fun _ => d.Extends := by
  refine settles_bind looks_definition ?_
  rintro _ rfl
  refine settles_within ?_ _ _ _
  refine settles_bind looks_definition ?_
  rintro d rfl
  split
  · next owner known =>
    have visible : d.ancestors decl.owner = owner.ancestors := by
      rw [Definition.ancestors, known]; rfl
    refine settles_bind (looks_for (p := fun _ => True) (fun v => ?_) _) fun _ _ => ?_
    · exact settles_mono (looks_require _ _) fun _ _ => And.imp_right fun _ => trivial
    refine settles_bind (looks_for (fun param => looks_check_type _) _) fun _ _ => ?_
    refine settles_bind (looks_check_type _) fun _ _ => ?_
    refine settles_bind (looks_find_base decl _) fun base ⟨clears, found, missing⟩ => ?_
    cases base with
    | none =>
      refine settles_bind (p := (· = d.properties.push _)) (looks_pure rfl) ?_
      rintro _ rfl
      refine settles_done (settles_modify (fun _ => rfl)
        (.property _ _ rfl rfl rfl rfl ?_ clears ?_)) _
      · exact Option.isSome_of_mem known
      · simpa only [visible] using missing rfl
    | some base =>
      obtain ⟨listed, name, beneath⟩ := found base rfl
      refine settles_bind (looks_require _ _) fun _ _ => ?_
      refine settles_bind (p := (· = d.properties.modify _ _)) (looks_pure rfl) ?_
      rintro _ rfl
      refine settles_done (settles_modify (fun _ => rfl) (.override base _ listed rfl ?_ ?_)) _
      · rwa [visible]
      · rwa [name]
  · exact settles_refuse _ _

theorem set_body_extends (prop : PropId) (owner : KindId) (body : Expr) (site : Site) :
    Settles d (setBody prop owner body site) fun _ => d.Extends := by
  refine settles_within ?_ _ _ _
  refine settles_bind looks_definition ?_
  rintro _ rfl
  dsimp only
  split
  · refine settles_bind (looks_require _ _) fun _ _ => ?_
    exact settles_modify (fun _ => rfl) (.body _ body)
  · exact settles_refuse _ _

theorem env_spec_extends (k : KindId) (spec : EnvSpec) :
    Settles d (envSpec k spec) fun _ => d.Extends := by
  refine settles_within ?_ _ _ _
  refine settles_bind looks_definition ?_
  rintro _ rfl
  refine settles_bind (looks_require _ _) fun _ _ => ?_
  refine settles_bind (looks_require _ _) fun _ _ => ?_
  exact settles_modify (fun _ => rfl) (.envSpec _)

theorem env_metadata_extends (decl : MetadataDecl) :
    Settles d (envMetadata decl) fun _ => d.Extends := by
  refine settles_within ?_ _ _ _
  refine settles_bind looks_definition ?_
  rintro _ rfl
  refine settles_bind (looks_require _ _) fun _ _ => ?_
  refine settles_bind (looks_require _ _) fun _ _ => ?_
  refine settles_bind (looks_require _ _) fun _ _ => ?_
  refine settles_bind (looks_require _ _) fun _ _ => ?_
  exact settles_modify (fun _ => rfl) (.metadata _)

/-- An action that settles leaves the definition as it is or makes it what is allowed. -/
theorem Settles.definition {act : BuildM α} {post : Definition → Prop} {b : Builder}
    (settles : Settles b.definition act fun _ => post) :
    (act b).2.definition = b.definition ∨ post (act b).2.definition := by
  rcases settles with fails | ⟨x, e, runs, allowed⟩
  · obtain ⟨-, -, left⟩ := fails b rfl
    exact .inl left.definition
  · rw [runs b rfl]
    exact .inr allowed

end Builder

/-- A declaration that is refused leaves the definition as it is, and one that is
accepted extends it. -/
theorem Declaration.run_definition (declaration : Declaration) (b : Builder) :
    (declaration.run b).definition = b.definition ∨
      b.definition.Extends (declaration.run b).definition := by
  cases declaration with
  | kind decl => exact (Builder.kind_extends decl).definition
  | dynVar name type site => exact (Builder.dyn_var_extends name type site).definition
  | property decl => exact (Builder.property_extends decl).definition
  | setBody prop owner body site => exact (Builder.set_body_extends prop owner body site).definition
  | envSpec k spec => exact (Builder.env_spec_extends k spec).definition
  | envMetadata decl => exact (Builder.env_metadata_extends decl).definition

/-- What the empty definition has and every extension keeps holds after any
declarations. -/
theorem Builder.declare_keeps {I : Definition → Prop} (start : I .empty)
    (step : ∀ d d' : Definition, d.Extends d' → I d → I d') (declarations : List Declaration) :
    I (declare declarations).definition := by
  unfold declare
  have run (ds : List Declaration) (b : Builder) (held : I b.definition) :
      I (ds.foldl (fun b declaration => declaration.run b) b).definition := by
    induction ds generalizing b with
    | nil => exact held
    | cons declaration rest ih =>
      refine ih _ ?_
      rcases declaration.run_definition b with same | extended
      · rwa [same]
      · exact step _ _ extended held
  exact run declarations .new start

/-- A handle is a position, and a property knows its implementations: each index it
lists is the place of an implementation of it. -/
structure Definition.Indexed (d : Definition) : Prop where
  placed : ∀ p info, d.property? p = some info → info.id = p
  implemented : ∀ p info, d.property? p = some info → ∀ i ∈ info.implementations,
    ∃ implementation, d.implementation? i = some implementation ∧ implementation.prop = p

namespace Definition

/-- The entries of a table stay where they are when another one joins them. -/
theorem entry_push {entries : Array α} {i : Nat} (new : α) (found : entries[i]? = some x) :
    (entries.push new)[i]? = some x := by
  have bound : i < entries.size := (Array.getElem?_eq_some_iff.1 found).1
  rw [Array.getElem?_push, if_neg (Nat.ne_of_lt bound)]
  exact found

/-- An entry of a table that another one joined is the new one or was there before. -/
theorem entry_push_cases {entries : Array α} {i : Nat} (held : (entries.push new)[i]? = some x) :
    entries[i]? = some x ∨ i = entries.size ∧ x = new := by
  rw [Array.getElem?_push] at held
  split at held
  · next last => exact .inr ⟨last, (Option.some.inj held).symm⟩
  · exact .inl held

/-- The properties there are stay what they were when another one joins them. -/
theorem property_push {d : Definition} {info found : PropertyInfo} {p : PropId}
    (placed : info.id = ⟨d.properties.size⟩)
    (held : (d.properties.push info)[p.raw]? = some found) :
    d.property? p = some found ∨ p = info.id ∧ found = info :=
  (entry_push_cases held).imp_right fun ⟨last, same⟩ => ⟨by rw [placed, ← last], same⟩

/-- An override does no more to a property than to list its implementation. -/
theorem property_override {d : Definition} {base p : PropId} {found : PropertyInfo}
    (held : (d.properties.modify base.raw fun p =>
      { p with implementations := p.implementations ++ [new] })[p.raw]? = some found) :
    ∃ old, d.property? p = some old ∧ (found = old ∨
      p = base ∧ found = { old with implementations := old.implementations ++ [new] }) := by
  rw [Array.getElem?_modify] at held
  split at held
  · next overridden =>
    obtain ⟨old, there, rfl⟩ := Option.map_eq_some_iff.1 held
    exact ⟨old, there, .inr ⟨congrArg Handle.mk overridden.symm, rfl⟩⟩
  · exact ⟨found, held, .inl rfl⟩

theorem indexed_extends {d e : Definition} (extended : d.Extends e) (indexed : d.Indexed) :
    e.Indexed := by
  cases extended with
  | kind | dynVar | envSpec | metadata => exact ⟨indexed.placed, indexed.implemented⟩
  | property info new placed first same =>
    refine ⟨fun p found held => ?_, fun p found held i listed => ?_⟩
    · rcases property_push placed held with old | ⟨rfl, rfl⟩
      · exact indexed.placed p found old
      · rfl
    · rcases property_push placed held with old | ⟨rfl, rfl⟩
      · obtain ⟨implementation, there, its⟩ := indexed.implemented p found old i listed
        exact ⟨implementation, entry_push new there, its⟩
      · rw [first, List.mem_singleton] at listed
        subst listed
        exact ⟨new, Array.getElem?_push_size, same⟩
  | override base new listed same =>
    refine ⟨fun p found held => ?_, fun p found held i mem => ?_⟩
    · obtain ⟨old, there, rfl | ⟨-, rfl⟩⟩ := property_override held
      · exact indexed.placed p _ there
      · exact indexed.placed p old there
    · have stays (old : PropertyInfo) (there : d.property? p = some old)
          (before : i ∈ old.implementations) : ∃ implementation,
            (d.implementations.push new)[i]? = some implementation ∧ implementation.prop = p := by
        obtain ⟨implementation, there, its⟩ := indexed.implemented p old there i before
        exact ⟨implementation, entry_push new there, its⟩
      obtain ⟨old, there, rfl | ⟨rfl, rfl⟩⟩ := property_override held
      · exact stays _ there mem
      · rcases List.mem_append.1 mem with before | last
        · exact stays old there before
        · rw [List.mem_singleton.1 last]
          exact ⟨new, Array.getElem?_push_size, same⟩
  | body index body =>
    refine ⟨indexed.placed, fun p found held i listed => ?_⟩
    obtain ⟨implementation, there, its⟩ := indexed.implemented p found held i listed
    unfold implementation? at there ⊢
    rw [Array.getElem?_modify, there]
    split
    · exact ⟨_, rfl, its⟩
    · exact ⟨implementation, rfl, its⟩

theorem indexed_empty : empty.Indexed where
  placed p info found := by simp [property?, empty] at found
  implemented p info found := by simp [property?, empty] at found

end Definition

/-- Where dispatch is resolved, a call is answered by an implementation of the property
that is called. -/
theorem Language.dispatch_runs {l : Language} (indexed : l.Indexed)
    (resolved : l.table = l.dispatchTable) (runs : l.dispatch k p = some (.runs index)) :
    ∃ implementation, l.implementation? index = some implementation ∧ implementation.prop = p := by
  unfold dispatch at runs
  obtain ⟨row, inTable, inRow⟩ := Option.bind_eq_some_iff.1 runs
  rw [Option.join_eq_some_iff] at inRow
  rw [resolved, Definition.dispatchTable, Array.getElem?_map] at inTable
  obtain ⟨kind, -, rfl⟩ := Option.map_eq_some_iff.1 inTable
  rw [Array.getElem?_map] at inRow
  obtain ⟨info, known, dispatched⟩ := Option.map_eq_some_iff.1 inRow
  unfold Definition.dispatchOf at dispatched
  split at dispatched
  · cases dispatched
  · obtain ⟨i, derived, result⟩ := Option.map_eq_some_iff.1 dispatched
    split at result
    · cases result
    · cases result
      unfold Definition.mostDerived at derived
      split at derived
      · obtain ⟨ancestor, -, found⟩ := List.exists_of_findSome?_eq_some derived
        exact indexed.implemented p info known index (List.mem_of_find?_eq_some found)
      · cases derived

/-- What is declared is indexed. -/
theorem Builder.declare_indexed (declarations : List Declaration) :
    (declare declarations).definition.Indexed :=
  declare_keeps Definition.indexed_empty (fun _ _ => Definition.indexed_extends) declarations

end Trellis
