import ParseForest.Symbol.Table

/-!
# Reserved symbols

Some strings are known to the passes by name. They come first in every table
that terms are built with, so their symbols are constants.
-/
namespace ParseForest

namespace Symbol

/-- Context of a span that is not known. -/
def unknownContext : Symbol := ⟨0⟩

/-- Context of a span that does not matter. -/
def dummyContext : Symbol := ⟨1⟩

def syntacticCast : Symbol := ⟨2⟩

def innerCast : Symbol := ⟨3⟩

/-- The label of a semantic cast begins with this string and ends with the sort it casts to. -/
def semanticCast : Symbol := ⟨4⟩

def semanticCastText : String := "#SemanticCastTo"

def arrowLabel : Symbol := ⟨5⟩

def applyLabel : Symbol := ⟨6⟩

def bracket : Symbol := ⟨7⟩

def anySort : Symbol := ⟨8⟩

def labelSort : Symbol := ⟨9⟩

/-- The reserved symbols with their strings, in table order. -/
def reserved : List (Symbol × String) :=
  [(unknownContext, "#!unknown"), (dummyContext, "#!dummy"),
   (syntacticCast, "#SyntacticCast"), (innerCast, "#InnerCast"), (semanticCast, semanticCastText),
   (arrowLabel, "#KRewrite"), (applyLabel, "#KApply"), (bracket, "bracket"),
   (anySort, "K"), (labelSort, "KLabel")]

end Symbol

namespace SymbolTable

/-- The table that holds just the reserved strings. -/
def initial : SymbolTable := (empty.internMany (Symbol.reserved.map Prod.snd)).2

/-- Each reserved symbol resolves to its string from the start. -/
theorem name?_initial : ∀ entry ∈ Symbol.reserved, initial.name? entry.1 = some entry.2 := by
  decide

end SymbolTable
end ParseForest
