import ParseForest.Span

/-!
# Diagnostic reports

A report is a summary line followed by one indented line per annotated span.
Spans are shown as intervals and are not resolved against any source text.
-/
namespace ParseForest

/-- Severity; the most severe level comes first. -/
inductive Level where
  | internalError
  | error
  | warning
  | note
  | help
deriving DecidableEq

namespace Level

instance : Inhabited Level := ⟨.error⟩

def number : Level → Nat
  | internalError => 1
  | error => 2
  | warning => 3
  | note => 4
  | help => 5

instance : Keyed Level where
  key l := [l.number]
  key_injective a b := by cases a <;> cases b <;> decide

def text : Level → String
  | internalError => "internal error"
  | error => "error"
  | warning => "warning"
  | note => "note"
  | help => "help"

/-- Whether what is reported at this level invalidates the branch it occurs in. -/
def isFatal (l : Level) : Bool := decide (l.number ≤ error.number)

end Level

/-- A span with a level and, if there is something to say about it, a label. -/
structure Annotation where
  span : Span
  level : Level
  label : Option String
deriving DecidableEq

namespace Annotation

def text (names : SymbolTable) (a : Annotation) : String :=
  let place := a.level.text ++ ": " ++ a.span.text names
  match a.label with
  | some label => place ++ ": " ++ label
  | none => place

end Annotation

namespace Span

def annotate (s : Span) (level : Level) (label : Option String) : Annotation := ⟨s, level, label⟩

def internalError (s : Span) (label : String) : Annotation := s.annotate .internalError (some label)

def error (s : Span) (label : String) : Annotation := s.annotate .error (some label)

/-- Mark a span as an error that needs no label. -/
def markError (s : Span) : Annotation := s.annotate .error none

def warning (s : Span) (label : String) : Annotation := s.annotate .warning (some label)

def note (s : Span) (label : String) : Annotation := s.annotate .note (some label)

def help (s : Span) (label : String) : Annotation := s.annotate .help (some label)

end Span

/-- An annotation together with advice on the same span. -/
def Annotation.withHelp (a : Annotation) (label : String) : List Annotation :=
  [a, a.span.help label]

/-- A summary with the annotated spans that explain it. -/
structure Description where
  summary : String
  annotations : List Annotation

namespace Description

/-- The report as text. -/
def report (names : SymbolTable) (d : Description) : String :=
  d.annotations.foldl (fun lines a => lines ++ "\n  " ++ a.text names) d.summary

/-- What is left of a description that has been reported: its spans are used up. -/
def spent (d : Description) : Description := { d with annotations := [] }

@[simp] theorem report_spent (names : SymbolTable) (d : Description) :
    d.spent.report names = d.summary := rfl

/-- The text that stands for a description where its content is not shown. -/
def placeholder : String := "DiagnosticDesc"

end Description
end ParseForest
