import ParseForest.Diagnostic
import ParseForest.Grammar.Production

/-!
# Internal errors

An internal error means that whatever called the library broke a promise; it is
never the answer to a term that was built correctly.
-/
namespace ParseForest

inductive InternalError where
  /-- A production was applied to a wrong number of terms. -/
  | arityMismatch (production : Production) (count : Nat) (span : Span)
  /-- A failure was reported without a reason. -/
  | missingCause
  /-- A symbol does not belong to the symbol table, which has `known` strings. -/
  | unresolvedSymbol (symbol : Symbol) (known : Nat)
  /-- A transformer descended further than the height of the term it was given. -/
  | excessiveDepth
  /-- Any other broken promise, described where it was noticed. -/
  | described (description : Description)

namespace InternalError

def description (names : SymbolTable) : InternalError → Description
  | arityMismatch production count span =>
      { summary := "production with " ++ toString production.arity
          ++ " nonterminal(s) applied to " ++ toString count ++ " term(s)"
        annotations := [span.internalError ("application of `" ++ production.text names
          ++ "` has " ++ toString count ++ " children")] }
  | missingCause => ⟨"rewrite failed without a cause", []⟩
  | unresolvedSymbol symbol known =>
      ⟨"failed to resolve SymbolId(" ++ toString symbol.number
        ++ ") using global interner of length " ++ toString known, []⟩
  | excessiveDepth => ⟨"transformer descended below its term", []⟩
  | described description => description

/-- The text shown to whoever hits the error. -/
def message (names : SymbolTable) (e : InternalError) : String :=
  "internal error: " ++ (e.description names).report names
    ++ "\n!!! This is a bug in the disambiguation core or in the parser that produced its input;"
    ++ "\n!!! please report it, including the output above."

end InternalError

/-- The string of a symbol that is promised to belong to the table. -/
def SymbolTable.resolve (names : SymbolTable) (s : Symbol) : Except InternalError String :=
  match names.name? s with
  | some name => .ok name
  | none => .error (.unresolvedSymbol s names.size)

theorem SymbolTable.resolve_eq_ok_iff {names : SymbolTable} {s : Symbol} {name : String} :
    names.resolve s = .ok name ↔ names.name? s = some name := by
  unfold resolve
  split <;> simp_all

end ParseForest
