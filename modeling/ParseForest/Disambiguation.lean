import ParseForest.Cleaning
import ParseForest.Completion

/-!
# Disambiguation

A forest is cleaned and then completed. Completion runs only on what cleaning
leaves, and the warnings of both are collected. Ambiguities that survive are
left to whoever uses the result.
-/
namespace ParseForest

/-- Which passes keep a memo. It pays off when much of a forest is shared. -/
structure PassConfig where
  memoizeClean : Bool := true
  memoizeLists : Bool := false
deriving DecidableEq

/-- An accepted term. -/
structure Disambiguated where
  term : Term
  warnings : Issues

/-- Why a term was not accepted. -/
structure Rejection where
  failures : Failures
  warnings : Issues
deriving DecidableEq

namespace Rejection

def text (r : Rejection) : String :=
  match r.failures.issues.size with
  | 1 => "failed to disambiguate term: 1 error"
  | n => "failed to disambiguate term: " ++ toString n ++ " errors"

/-- The annotations of all failures, in the order of the failures. -/
def annotations (names : SymbolTable) (r : Rejection) : List Annotation :=
  r.failures.issues.toList.flatMap (Issue.annotations names)

def description (names : SymbolTable) (r : Rejection) : Description :=
  ⟨r.text, r.annotations names⟩

end Rejection

/-- An outcome read as an answer of the library. -/
def Outcome.verdict (o : Outcome) : Except Rejection Disambiguated :=
  match o.intoResult with
  | .ok (term, warnings) => .ok ⟨term, warnings⟩
  | .error (failures, warnings) => .error ⟨failures, warnings⟩

/-- Disambiguate a term by a grammar. -/
def disambiguate (g : Grammar) (t : Term) (config : PassConfig := {}) :
    Build (Except Rejection Disambiguated) := do
  let cleaned ← Pass.start config.memoizeClean () (clean t)
  let completed ← cleaned.andThen fun u => Pass.start config.memoizeLists () (complete g u)
  return completed.verdict

end ParseForest
