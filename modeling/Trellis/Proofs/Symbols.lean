import Trellis.Symbol
import Mathlib.Data.Finset.Card
import Mathlib.Data.Finset.Image

/-! Symbols and canonical texts. Interning adds at most one text at the end of the table, so a
symbol keeps its text for good. That the table finds a text exactly where it holds it makes
symbols and canonical texts correspond, and each distinct text takes one place. -/
namespace Trellis
namespace SymbolTable

/-- The canonical form of a canonical form is the form itself. -/
def Idempotent (t : SymbolTable) : Prop :=
  ∀ text, t.canonicalize (t.canonicalize text) = t.canonicalize text

/-- The symbol stands for a text that the table has. -/
def Names (t : SymbolTable) (name : Symbol) : Prop := ∃ text, t.intern text = (name, t)

variable {t : SymbolTable} {name : Symbol}

theorem names_iff : t.Names name ↔ ∃ text, t.index[t.canonicalize text]? = some name.raw := by
  refine exists_congr fun text => ⟨fun interned => ?_, fun known => intern_known known⟩
  unfold intern at interned
  dsimp only at interned
  split at interned
  · next n found =>
    rw [found, ← (Prod.mk.inj interned).1]
  · -- A text that is entered makes the table longer.
    have longer := congrArg (·.texts.size) (Prod.mk.inj interned).2
    simp at longer

theorem canonical_intern (t : SymbolTable) (text : String) :
    (t.intern text).2.canonical = t.canonical := by
  unfold intern
  dsimp only
  split <;> rfl

theorem names_intern (named : t.Names name) (text : String) : (t.intern text).2.Names name := by
  obtain ⟨own, known⟩ := names_iff.1 named
  refine names_iff.2 ⟨own, ?_⟩
  rw [canonicalize, canonical_intern, ← canonicalize]
  unfold intern
  dsimp only
  split
  · exact known
  · next absent =>
    rw [Std.HashMap.getElem?_insert, if_neg, known]
    intro same
    rw [beq_iff_eq.1 same, known] at absent
    cases absent

theorem lookup_of_held {x : String} (held : t.texts[name.raw]? = some x) : t.lookup name = x := by
  rw [lookup, Array.getD_eq_getD_getElem?, held, Option.getD_some]

/-- Where canonical forms stay what they are, a symbol is that of its own text. -/
theorem intern_lookup_of_names (idempotent : t.Idempotent) (named : t.Names name) :
    t.intern (t.lookup name) = (name, t) := by
  obtain ⟨text, known⟩ := names_iff.1 named
  rw [lookup_of_held ((t.inverse _ _).1 known)]
  exact intern_known (by rw [idempotent, known])

/-! ## One text -/

/-- The place of a held text is the only one that holds it. -/
theorem places_iff {m n : Nat} (first : t.texts[m]? = some x) (second : t.texts[n]? = some y) :
    m = n ↔ x = y := by
  constructor
  · rintro rfl
    exact Option.some.inj (first.symm.trans second)
  · rintro rfl
    exact Option.some.inj (((t.inverse x m).2 first).symm.trans ((t.inverse x n).2 second))

theorem nodup_texts (t : SymbolTable) : t.texts.toList.Nodup := by
  rw [List.nodup_iff_getElem?_ne_getElem?]
  intro i j before inside same
  rw [Array.length_toList] at inside
  simp only [Array.getElem?_toList] at same
  have held := Array.getElem?_eq_getElem inside
  have apart := (places_iff (same.trans held) held).2 rfl
  omega

/-- The texts of the second table begin with those of the first. -/
structure Later (t t' : SymbolTable) : Prop where
  canonical : t'.canonical = t.canonical
  held : ∀ (n : Nat) (text : String), t.texts[n]? = some text → t'.texts[n]? = some text

namespace Later

theorem refl (t : SymbolTable) : t.Later t := ⟨rfl, fun _ _ held => held⟩

theorem trans {t t' t'' : SymbolTable} (first : t.Later t') (second : t'.Later t'') :
    t.Later t'' :=
  ⟨second.canonical.trans first.canonical,
    fun n text held => second.held n text (first.held n text held)⟩

end Later

/-- What a table holds is what an earlier one held and one canonical text more, found under
the symbol that interning answers. -/
theorem intern_held (t : SymbolTable) (text : String) :
    t.Later (t.intern text).2 ∧
    (t.intern text).2.texts[(t.intern text).1.raw]? = some (t.canonicalize text) ∧
    ∀ x, x ∈ (t.intern text).2.texts ↔ x ∈ t.texts ∨ x = t.canonicalize text := by
  unfold intern
  dsimp only
  split
  · next n found =>
    have held := (t.inverse _ n).1 found
    refine ⟨.refl t, held, fun x => (or_iff_left_of_imp ?_).symm⟩
    rintro rfl
    exact Array.mem_of_getElem? held
  · refine ⟨⟨rfl, fun n x held => ?_⟩, Array.getElem?_push_size, fun x => Array.mem_push⟩
    have inside : n < t.texts.size := (Array.getElem?_eq_some_iff.1 held).1
    rw [Array.getElem?_push, if_neg (by omega), held]

/-! ## Texts one after another -/

/-- The table after some texts were interned one after another. -/
def interned (canonical : Option (String → String)) (texts : List String) : SymbolTable :=
  texts.foldl (fun t text => (t.intern text).2) (new canonical)

variable (canonical : Option (String → String))

theorem interned_append (texts : List String) (text : String) :
    interned canonical (texts ++ [text]) = ((interned canonical texts).intern text).2 := by
  rw [interned, List.foldl_append]
  rfl

theorem interned_later (texts more : List String) :
    (interned canonical texts).Later (interned canonical (texts ++ more)) := by
  induction more using List.reverseRecOn with
  | nil =>
    rw [List.append_nil]
    exact .refl _
  | append_singleton more text ih =>
    rw [← List.append_assoc, interned_append]
    exact ih.trans (intern_held _ text).1

theorem interned_canonicalize (texts : List String) (text : String) :
    (interned canonical texts).canonicalize text = (new canonical).canonicalize text := by
  have same : (interned canonical texts).canonical = canonical :=
    (interned_later canonical [] texts).canonical
  rw [canonicalize, same]
  rfl

theorem mem_interned (texts : List String) (x : String) :
    x ∈ (interned canonical texts).texts ↔
      x = "" ∨ x ∈ texts.map (new canonical).canonicalize := by
  induction texts using List.reverseRecOn with
  | nil => simp [interned, new]
  | append_singleton texts text ih =>
    rw [interned_append, (intern_held _ text).2.2, ih, interned_canonicalize, List.map_append,
      List.mem_append, List.map_singleton, List.mem_singleton, or_assoc]

/-- Each canonical text takes one place, and the empty one is there from the start. -/
theorem size_interned (texts : List String) :
    (interned canonical texts).size =
      ((texts.map (new canonical).canonicalize).toFinset.erase "").card + 1 := by
  have all : (interned canonical texts).texts.toList.toFinset =
      insert "" ((texts.map (new canonical).canonicalize).toFinset.erase "") := by
    ext x
    rw [List.mem_toFinset, Array.mem_toList_iff, mem_interned, Finset.mem_insert, Finset.mem_erase,
      List.mem_toFinset]
    tauto
  rw [size, ← Array.length_toList, ← List.toFinset_card_of_nodup (nodup_texts _), all,
    Finset.card_insert_of_notMem (Finset.notMem_erase _ _)]

/-- The symbol that interning answers for one of the texts, at its turn. -/
def symbolAt (texts : List String) (i : Fin texts.length) : Symbol :=
  ((interned canonical (texts.take i)).intern texts[i]).1

/-- From its turn on, a text is held under its symbol. -/
theorem held_symbol_at (texts : List String) (i : Fin texts.length) (more : List String) :
    (interned canonical (texts.take (i + 1) ++ more)).texts[(symbolAt canonical texts i).raw]? =
      some ((new canonical).canonicalize texts[i]) := by
  have turn : texts.take (i + 1) = texts.take i ++ [texts[i]] := (List.take_concat_get' ..).symm
  refine (interned_later canonical _ more).held _ _ ?_
  rw [turn, interned_append, ← interned_canonicalize canonical (texts.take i)]
  exact (intern_held _ _).2.1

theorem held_at_end (texts : List String) (i : Fin texts.length) :
    (interned canonical texts).texts[(symbolAt canonical texts i).raw]? =
      some ((new canonical).canonicalize texts[i]) := by
  have held := held_symbol_at canonical texts i (texts.drop (i + 1))
  rwa [List.take_append_drop] at held

/-- **Symbols correspond to canonical texts.** Whatever canonical form the table uses, and
whatever texts are interned one after another: two of them have the same symbol exactly if they
have the same canonical text, in every later table the symbol stands for that text, and it is
the empty symbol exactly if the text is empty. No symbol of the table ever changes its text,
and the table holds one text more than there are different non-empty canonical ones. Every
symbol is smaller than the number of texts, so a table of at most `2 ^ 32` of them needs no
more than thirty-two bits for a symbol. -/
theorem symbols_one_to_one (texts : List String) :
    (∀ i j, symbolAt canonical texts i = symbolAt canonical texts j ↔
      (new canonical).canonicalize texts[i] = (new canonical).canonicalize texts[j]) ∧
    (∀ (i : Fin texts.length) (k : Nat), i < k →
      (interned canonical (texts.take k)).lookup (symbolAt canonical texts i) =
        (new canonical).canonicalize texts[i]) ∧
    (∀ i, symbolAt canonical texts i = .empty ↔ (new canonical).canonicalize texts[i] = "") ∧
    (∀ (a : Symbol) (k l : Nat), k ≤ l → a.raw < (interned canonical (texts.take k)).size →
      (interned canonical (texts.take l)).lookup a =
        (interned canonical (texts.take k)).lookup a) ∧
    (∀ i, (symbolAt canonical texts i).raw < (interned canonical texts).size) ∧
    (interned canonical texts).size =
      ((texts.map (new canonical).canonicalize).toFinset.erase "").card + 1 := by
  have same {a b : Symbol} : a = b ↔ a.raw = b.raw := by
    cases a
    cases b
    exact Iff.intro (congrArg _) (congrArg _)
  refine ⟨fun i j => ?_, fun i k turn => ?_, fun i => ?_, fun a k l before inside => ?_, fun i => ?_,
    size_interned canonical texts⟩
  · exact same.trans (places_iff (held_at_end canonical texts i) (held_at_end canonical texts j))
  · obtain ⟨more, split⟩ : texts.take (i + 1) <+: texts.take k := List.take_prefix_take_left turn
    rw [← split]
    exact lookup_of_held (held_symbol_at canonical texts i _)
  · exact same.trans (places_iff (held_at_end canonical texts i) (interned canonical texts).blank)
  · obtain ⟨more, split⟩ : texts.take k <+: texts.take l := List.take_prefix_take_left before
    have held := Array.getElem?_eq_getElem inside
    rw [lookup_of_held held, ← split]
    exact lookup_of_held ((interned_later canonical _ _).held _ _ held)
  · exact (Array.getElem?_eq_some_iff.1 (held_at_end canonical texts i)).1

end SymbolTable
end Trellis
