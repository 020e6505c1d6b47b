import ParseForest.Symbol.Reserved

/-!
# Sorts and labels

Both are names: two sorts, or two labels, are the same when their symbols are.
-/
namespace ParseForest

/-- A syntactic category. -/
structure SortName where
  symbol : Symbol
deriving DecidableEq

namespace SortName

/-- The sort that every term belongs to. -/
def any : SortName := ⟨Symbol.anySort⟩

/-- The sort of label literals. -/
def label : SortName := ⟨Symbol.labelSort⟩

instance : Inhabited SortName := ⟨any⟩

def text (names : SymbolTable) (s : SortName) : String := names.text s.symbol

end SortName

/-- The name of a term constructor. -/
structure Label where
  symbol : Symbol
deriving DecidableEq

namespace Label

/-- Marks a step from one term to another. -/
def arrow : Label := ⟨Symbol.arrowLabel⟩

/-- Marks the application of a label that is itself given as a term. -/
def apply : Label := ⟨Symbol.applyLabel⟩

def isArrow (l : Label) : Bool := l == arrow

@[simp] theorem isArrow_iff {l : Label} : l.isArrow ↔ l = arrow := beq_iff_eq

def text (names : SymbolTable) (l : Label) : String := names.text l.symbol

end Label
end ParseForest
