import ParseForest.Diagnostic
import ParseForest.Grammar.Production

/-!
# Issues found while disambiguating

Issues are values collected in ordered sets. An unlabelled production comes
before a misplaced list, and issues of one kind are ordered field by field.
-/
namespace ParseForest

/-- The part of the library that raises an issue. -/
inductive IssueGroup where
  | innerParser
  | lists
deriving DecidableEq

namespace IssueGroup

def number : IssueGroup → Nat
  | innerParser => 0
  | lists => 1

instance : Keyed IssueGroup where
  key g := [g.number]
  key_injective a b := by cases a <;> cases b <;> decide

def text : IssueGroup → String
  | innerParser => "inner parser"
  | lists => "lists"

end IssueGroup

inductive Issue where
  /-- An application without a label has other than exactly one child. -/
  | unlabeledNonSubsort (sort : SortName) (arity : Nat) (span : Span)
  /-- A term stands where a list was expected and could not be made into one. -/
  | listSortExpected (found expected : SortName) (span : Span)
deriving DecidableEq

namespace Issue

def span : Issue → Span
  | unlabeledNonSubsort _ _ span => span
  | listSortExpected _ _ span => span

instance : Keyed Issue where
  key
    | unlabeledNonSubsort sort arity span => 0 :: sort.symbol.index :: arity :: key span
    | listSortExpected found expected span =>
        1 :: found.symbol.index :: expected.symbol.index :: key span
  key_injective a b h := by
    cases a with
    | unlabeledNonSubsort sort arity span =>
      cases b with
      | unlabeledNonSubsort sort' arity' span' =>
        simp only [List.cons.injEq, true_and] at h
        obtain ⟨hs, rfl, hp⟩ := h
        rw [show sort = sort' from congrArg (SortName.mk ∘ Symbol.mk) hs,
          Keyed.key_injective _ _ hp]
      | listSortExpected => simp at h
    | listSortExpected found expected span =>
      cases b with
      | unlabeledNonSubsort => simp at h
      | listSortExpected found' expected' span' =>
        simp only [List.cons.injEq, true_and] at h
        obtain ⟨hf, he, hp⟩ := h
        rw [show found = found' from congrArg (SortName.mk ∘ Symbol.mk) hf,
          show expected = expected' from congrArg (SortName.mk ∘ Symbol.mk) he,
          Keyed.key_injective _ _ hp]

def level : Issue → Level
  | unlabeledNonSubsort .. => .error
  | listSortExpected .. => .warning

def group : Issue → IssueGroup
  | unlabeledNonSubsort .. => .innerParser
  | listSortExpected .. => .lists

/-- Whether the issue invalidates the branch it occurs in. -/
def isFatal (e : Issue) : Bool := e.level.isFatal

theorem isFatal_iff {e : Issue} : e.isFatal ↔ e.level = .error := by
  cases e <;> simp [isFatal, Level.isFatal, level, Level.number]

def text (names : SymbolTable) : Issue → String
  | unlabeledNonSubsort .. => "Only subsort productions are allowed to have no label"
  | listSortExpected found expected _ =>
      "Found sort '" ++ found.text names ++ "' where list sort '" ++ expected.text names
        ++ "' was expected. Moving on."

def annotations (names : SymbolTable) : Issue → List Annotation
  | unlabeledNonSubsort sort arity span =>
      (span.error ("unlabeled production of sort '" ++ sort.text names ++ "' applied to "
        ++ toString arity ++ " terms")).withHelp
        "a production without a label must contain exactly one nonterminal"
  | listSortExpected found expected span =>
      [span.warning ("this has sort '" ++ found.text names ++ "', which is not a subsort of '"
        ++ expected.text names ++ "'")]

def description (names : SymbolTable) (e : Issue) : Description :=
  ⟨e.text names, e.annotations names⟩

end Issue

/-- A set of issues. -/
abbrev Issues := OrderedSet Issue

end ParseForest
