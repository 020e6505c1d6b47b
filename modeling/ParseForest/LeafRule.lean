import ParseForest.Transformer

/-!
# Rules for tokens

A rule says what becomes of the constants with a given token. Applying rules
counts the constants that it comes across.
-/
namespace ParseForest

inductive LeafRule where
  /-- The constant is an error. -/
  | fail
  /-- The constant stays, with the warning that another sort was expected. -/
  | warn (expected : String)
  /-- A new constant with the given token takes its place. -/
  | rename (value : String)
  /-- A new empty marker takes its place. -/
  | erase
deriving DecidableEq

namespace LeafRule

/-- What becomes of a constant by a rule. -/
def apply (rule : LeafRule) (t : Term) (production : Production) (span : Span) : Build Outcome :=
  match rule with
  | fail => return .fail (.unlabeledNonSubsort production.sort 0 span)
  | warn expected => do
      let sort := ⟨← Build.intern expected⟩
      return (Outcome.ok t).warn (.listSortExpected production.sort sort span)
  | rename value => do
      let value ← Build.intern value
      return .ok (← Build.constant value production span)
  | erase => return .ok (← Build.emptyMarker span)

/-- What becomes of a constant by the first rule for its token; without one it stays. -/
def applyFirst (rules : List (String × LeafRule)) (t : Term) : Build Outcome :=
  match t with
  | .constant _ value production span => do
      match rules.lookup (← Build.consult (·.resolve value)) with
      | some rule => rule.apply t production span
      | none => return .ok t
  | _ => return .ok t

end LeafRule

/-- Apply rules to constants and count them. -/
def Transformer.ofRules (rules : List (String × LeafRule)) : Transformer Nat :=
  .onConstants fun t => do
    Pass.update (· + 1)
    Pass.build (LeafRule.applyFirst rules t)

end ParseForest
