import Std.Data.HashMap

/-! Interned texts. A symbol is a small number standing for a canonical text,
so two texts name the same thing exactly when their symbols are equal. The
empty text is present from the start and has the number zero. -/
namespace Trellis

structure Symbol where
  raw : Nat
deriving DecidableEq, Hashable, Repr, Inhabited

namespace Symbol

/-- The symbol of the empty text, also used for "no text". -/
def empty : Symbol := ⟨0⟩

def isEmpty (s : Symbol) : Bool := s.raw == 0

def text (s : Symbol) : String := "Symbol(" ++ toString s.raw ++ ")"

theorem isEmpty_iff (s : Symbol) : s.isEmpty = true ↔ s = empty := by
  cases s
  simp [isEmpty, empty]

end Symbol

/-- A map between canonical texts and symbols. `texts` lists the texts by
number and `index` finds a text's number, so each undoes the other;
`canonical`, when present, is applied to every text before it is looked up. -/
structure SymbolTable where
  texts : Array String
  index : Std.HashMap String Nat
  canonical : Option (String → String)
  inverse : ∀ (text : String) (n : Nat), index[text]? = some n ↔ texts[n]? = some text
  blank : texts[0]? = some ""

namespace SymbolTable

def new (canonical : Option (String → String)) : SymbolTable where
  texts := #[""]
  index := (∅ : Std.HashMap String Nat).insert "" 0
  canonical := canonical
  inverse text n := by
    rw [Std.HashMap.getElem?_insert]
    cases n <;> simp
  blank := rfl

/-- A new text takes the next number, and nothing else changes. -/
theorem inverse_push {texts : Array String} {index : Std.HashMap String Nat}
    (inverse : ∀ (text : String) (n : Nat), index[text]? = some n ↔ texts[n]? = some text)
    {added : String} (fresh : index[added]? = none) (text : String) (n : Nat) :
    (index.insert added texts.size)[text]? = some n ↔ (texts.push added)[n]? = some text := by
  rw [Std.HashMap.getElem?_insert, Array.getElem?_push]
  by_cases same : added = text
  · subst same
    have absent : texts[n]? ≠ some added := fun held => by
      have := (inverse added n).2 held
      simp [fresh] at this
    by_cases last : n = texts.size <;> simp [last, absent, eq_comm]
  · by_cases last : n = texts.size <;> simp [last, same, inverse]

/-- The form of a text under which it is stored. -/
def canonicalize (t : SymbolTable) (text : String) : String :=
  match t.canonical with
  | some f => f text
  | none => text

/-- The symbol of a text, entered into the table when it is new. -/
def intern (t : SymbolTable) (text : String) : Symbol × SymbolTable :=
  let text := t.canonicalize text
  match found : t.index[text]? with
  | some n => (⟨n⟩, t)
  | none => (⟨t.texts.size⟩, { t with
      texts := t.texts.push text
      index := t.index.insert text t.texts.size
      inverse := inverse_push t.inverse found
      blank := by
        have : 0 < t.texts.size := Array.size_pos_iff.2 fun eq => by simpa [eq] using t.blank
        rw [Array.getElem?_push, if_neg (by omega), t.blank] })

theorem intern_known {t : SymbolTable} (known : t.index[t.canonicalize text]? = some n) :
    t.intern text = (⟨n⟩, t) := by
  unfold intern
  dsimp only
  split
  · next found =>
    rw [known] at found
    cases found
    rfl
  · next absent =>
    rw [known] at absent
    cases absent

/-- A text that is not in the table takes the next number. -/
theorem intern_fresh {t : SymbolTable} {x : String} (plain : t.canonical = none)
    (fresh : x ∉ t.texts) : (t.intern x).1 = ⟨t.texts.size⟩ ∧
      (t.intern x).2.texts = t.texts.push x ∧ (t.intern x).2.canonical = none := by
  have form : t.canonicalize x = x := by rw [canonicalize, plain]
  have absent : t.index[x]? = none := by
    cases found : t.index[x]? with
    | none => rfl
    | some n => exact (fresh (Array.mem_of_getElem? ((t.inverse x n).1 found))).elim
  unfold intern
  dsimp only
  split
  · next n found =>
    rw [form, absent] at found
    cases found
  · exact ⟨rfl, by dsimp only; rw [form], plain⟩

/-- The text of a symbol; a symbol of some other table reads as the empty text. -/
def lookup (t : SymbolTable) (s : Symbol) : String := t.texts.getD s.raw ""

/-- The text of a symbol of the table stands for that symbol. -/
theorem intern_lookup {t : SymbolTable} {a : Symbol} (plain : t.canonical = none)
    (known : a.raw < t.texts.size) : t.intern (t.lookup a) = (a, t) := by
  have held : t.texts[a.raw]? = some (t.lookup a) := by
    rw [Array.getElem?_eq_getElem known, lookup, Array.getD_eq_getD_getElem?,
      Array.getElem?_eq_getElem known, Option.getD_some]
  have found : t.index[t.canonicalize (t.lookup a)]? = some a.raw := by
    rw [canonicalize, plain]
    exact (t.inverse _ _).2 held
  rw [intern_known found]

/-- The number of texts held, the empty one included. -/
def size (t : SymbolTable) : Nat := t.texts.size

/-- Whether nothing but the empty text has been interned. -/
def isEmpty (t : SymbolTable) : Bool := t.size ≤ 1

/-- A table is described as one that all the parts of a session share. -/
def text (t : SymbolTable) : String :=
  "SharedSymbols(SymbolTable \x7b len: " ++ toString t.size ++ ", canonicalizing: " ++
    toString t.canonical.isSome ++ " \x7d)"

end SymbolTable

/-! Canonical forms that hosts commonly ask for. -/

/-- Letters `A` to `Z` in lower case, all other characters as they are. -/
def lowerAscii (text : String) : String := text.map Char.toLower

def dropLeadingUnderscores (text : String) : String :=
  String.ofList (text.toList.dropWhile (· == '_'))

end Trellis
