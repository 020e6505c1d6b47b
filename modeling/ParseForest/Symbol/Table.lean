import ParseForest.Symbol
import Std.Data.TreeMap

/-!
# The symbol table

The table only grows: a string keeps the symbol it was first given. It is kept
twice, as the strings in order of appearance and as an index from a string to
its position, and each side is the inverse of the other.
-/
namespace ParseForest

structure SymbolTable where
  names : Array String
  index : Std.TreeMap String Nat
  /-- Looking a string up and reading a position agree. -/
  index_iff : ∀ (name : String) (i : Nat), index[name]? = some i ↔ names[i]? = some name

/-- Number of strings that a table for a whole grammar is expected to hold. It is reported as a
setting and sets no limit: a table can hold any number of strings. -/
def symbolCapacity : Nat := 4096

namespace SymbolTable

def empty : SymbolTable where
  names := #[]
  index := ∅
  index_iff := by simp

instance : EmptyCollection SymbolTable := ⟨empty⟩

instance : Inhabited SymbolTable := ⟨empty⟩

/-- Number of distinct strings. -/
def size (t : SymbolTable) : Nat := t.names.size

def isEmpty (t : SymbolTable) : Bool := t.size == 0

/-- The string of a symbol, if the table has one. -/
def name? (t : SymbolTable) (s : Symbol) : Option String := t.names[s.index]?

/-- The symbol of a string, if the table has the string. -/
def find? (t : SymbolTable) (name : String) : Option Symbol := t.index[name]?.map Symbol.mk

def contains (t : SymbolTable) (name : String) : Bool := (t.find? name).isSome

theorem find?_eq_some_iff {t : SymbolTable} {name : String} {s : Symbol} :
    t.find? name = some s ↔ t.name? s = some name := by
  obtain ⟨i⟩ := s
  rw [name?, ← t.index_iff]
  simp [find?]

theorem find?_eq_none_iff {t : SymbolTable} {name : String} :
    t.find? name = none ↔ ∀ s, t.name? s ≠ some name := by
  constructor
  · intro h s hs
    rw [find?_eq_some_iff.mpr hs] at h
    cases h
  · intro h
    cases hf : t.find? name with
    | none => rfl
    | some s => exact absurd (find?_eq_some_iff.mp hf) (h s)

theorem name?_eq_none_iff {t : SymbolTable} {s : Symbol} : t.name? s = none ↔ t.size ≤ s.index := by
  simp [name?, size]

/-- Add a string that the table does not have. -/
def add (t : SymbolTable) (name : String) (fresh : t.index[name]? = none) : SymbolTable where
  names := t.names.push name
  index := t.index.insert name t.names.size
  index_iff := by
    intro other i
    have old := t.index_iff other i
    rw [Std.TreeMap.getElem?_insert, Array.getElem?_push]
    by_cases hn : name = other
    · subst hn
      have unused : t.names[i]? ≠ some name := by
        intro h
        rw [old.mpr h] at fresh
        cases fresh
      grind
    · have hc : compare name other ≠ .eq := fun h => hn (Std.LawfulEqCmp.eq_of_compare h)
      grind

/-- The symbol of a string, which is added to the table if it is not there yet. -/
def intern (t : SymbolTable) (name : String) : Symbol × SymbolTable :=
  match h : t.index[name]? with
  | some i => (⟨i⟩, t)
  | none => (⟨t.names.size⟩, t.add name h)

theorem name?_add {t : SymbolTable} {name : String} (h : t.index[name]? = none) (s : Symbol) :
    (t.add name h).name? s = if s.index = t.size then some name else t.name? s := by
  simp only [name?, add, size, Array.getElem?_push]
  rfl

/-- The symbol obtained for a string resolves to that string. -/
theorem name?_intern (t : SymbolTable) (name : String) :
    (t.intern name).2.name? (t.intern name).1 = some name := by
  unfold intern
  split
  · rename_i i h
    exact (t.index_iff name i).mp h
  · simp [name?_add, size]

/-- Interning a string changes no symbol that already resolves. -/
theorem name?_intern_of_some {t : SymbolTable} {s : Symbol} {old : String} (name : String)
    (h : t.name? s = some old) : (t.intern name).2.name? s = some old := by
  unfold intern
  split
  · exact h
  · have : s.index ≠ t.size := by
      intro he
      rw [name?_eq_none_iff.mpr (Nat.le_of_eq he.symm)] at h
      cases h
    simp [name?_add, this, h]

theorem find?_intern (t : SymbolTable) (name : String) :
    (t.intern name).2.find? name = some (t.intern name).1 :=
  find?_eq_some_iff.mpr (name?_intern t name)

theorem intern_of_find? {t : SymbolTable} {name : String} {s : Symbol} (h : t.find? name = some s) :
    t.intern name = (s, t) := by
  unfold intern
  split
  · rename_i i hi
    simp only [find?, hi, Option.map_some, Option.some.injEq] at h
    rw [h]
  · rename_i hi
    simp [find?, hi] at h

theorem size_intern (t : SymbolTable) (name : String) :
    (t.intern name).2.size = if t.contains name then t.size else t.size + 1 := by
  unfold intern
  split
  · rename_i i h
    simp [contains, find?, h]
  · rename_i h
    simp [contains, find?, h, size, add]

/-- All of `names` interned in order; the symbols are those obtained one by one. -/
def internMany (t : SymbolTable) : List String → List Symbol × SymbolTable
  | [] => ([], t)
  | name :: rest =>
      let (s, t) := t.intern name
      let (ss, t) := t.internMany rest
      (s :: ss, t)

/-- The text shown for a symbol. -/
def text (t : SymbolTable) (s : Symbol) : String := (t.name? s).getD "<#!UNKNOWN_SYMBOL>"

/-- A symbol with its number, for a reader who inspects the table. -/
def inspect (t : SymbolTable) (s : Symbol) : String :=
  "SymbolId(" ++ toString s.number ++ " \"" ++ t.text s ++ "\")"

end SymbolTable
end ParseForest
