import ParseForest.Forest

/-!
# Forests as text

A compact rendering on one line: a constant with its sort, an application as the
label of its production, or the sort if there is none, before its children.
-/
namespace ParseForest

/-- How an application of the production is headed. -/
def Production.headText (names : SymbolTable) (p : Production) : String :=
  match p.label with
  | some label => label.text names
  | none => "<" ++ p.sort.text names ++ ">"

namespace Forest
variable {ι : Type}

mutual

def text (names : SymbolTable) : Forest ι → String
  | constant _ value production _ => names.text value ++ ":" ++ production.sort.text names
  | application _ production items _ =>
      production.headText names ++ "(" ++ ", ".intercalate (texts names items) ++ ")"
  | ambiguity _ items _ => "amb(" ++ ", ".intercalate (texts names items) ++ ")"
  | grouping _ items _ => "[" ++ ", ".intercalate (texts names items) ++ "]"

def texts (names : SymbolTable) : List (Forest ι) → List String
  | [] => []
  | t :: ts => t.text names :: texts names ts

end

@[simp] theorem texts_eq (names : SymbolTable) (ts : List (Forest ι)) :
    texts names ts = ts.map (text names) := by
  induction ts with
  | nil => rfl
  | cons t ts ih => simp [texts, ih]

end Forest
end ParseForest
