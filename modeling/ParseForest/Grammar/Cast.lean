import ParseForest.InternalError

/-!
# Casts and label literals

These two notions depend on the strings of symbols and not only on the symbols:
a semantic cast is recognised by how its label begins, and a label literal
spells the label it stands for.
-/
namespace ParseForest

/-- Whether a label ascribes a sort. -/
def Label.isCast (names : SymbolTable) (l : Label) : Except InternalError Bool :=
  if l.symbol = Symbol.syntacticCast ∨ l.symbol = Symbol.innerCast then .ok true
  else (names.resolve l.symbol).map fun name =>
    Symbol.semanticCastText.toList.isPrefixOf name.toList

/-- The label spelled by a literal: its text without the two enclosing characters. -/
def unquoted (literal : String) : Option String :=
  match literal.toList with
  | _ :: c :: rest => some (String.ofList (c :: rest).dropLast)
  | _ => none

end ParseForest
