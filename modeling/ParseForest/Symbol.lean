import ParseForest.OrderedSet

/-!
# Symbols

A symbol stands for a string of a `SymbolTable`: it is the position of the
string among the strings of the table, in the order in which they first
appeared there. Symbols are compared by position, never by their strings.
-/
namespace ParseForest

structure Symbol where
  index : Nat
deriving DecidableEq

namespace Symbol

instance : Inhabited Symbol := ⟨⟨0⟩⟩

instance : Keyed Symbol where
  key s := [s.index]
  key_injective a b h := by
    cases a
    cases b
    simpa using h

@[simp] theorem key_eq (s : Symbol) : key s = [s.index] := rfl

/-- The number under which a symbol is reported; the first string has number one. -/
def number (s : Symbol) : Nat := s.index + 1

theorem number_pos (s : Symbol) : 0 < s.number := Nat.succ_pos _

theorem number_inj {s t : Symbol} : s.number = t.number ↔ s = t := by
  cases s
  cases t
  simp [number]

end Symbol
end ParseForest
