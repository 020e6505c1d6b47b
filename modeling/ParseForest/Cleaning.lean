import ParseForest.Transformer

/-!
# Cleaning

Cleaning removes what parsing leaves behind and a tree has no use for. The
application of a production without a label is replaced by its only child, and
it is an error if it has not exactly one. Groups and ambiguities lose their empty
markers; of what remains, nothing becomes an empty marker, one term stands for
itself, and several stay together.
-/
namespace ParseForest
namespace Cleaning
variable {σ : Type}

/-- Collapse a group or an ambiguity whose items are clean already. -/
def collapse (self : Term → Pass σ Outcome) (t : Term) : Pass σ Outcome :=
  match t.items.filter fun u => !u.isEmptyMarker with
  | [] =>
      if t.isEmptyMarker then return .ok t
      else return .ok (← Pass.build (Build.emptyMarker t.span))
  | [survivor] => self survivor
  | survivors =>
      if survivors.length = t.items.length then return .ok t
      else return .ok (← Pass.build (Build.withItems t survivors))

/-- What cleaning makes of a node. -/
def step (self : Term → Pass σ Outcome) (t : Term) : Pass σ Outcome :=
  match t with
  | .constant .. => return .ok t
  | .application _ production items span =>
      match production.label, items with
      | some _, _ => Transformer.walk self t
      | none, [sole] => self sole
      | none, _ => return .fail (.unlabeledNonSubsort production.sort items.length span)
  | .ambiguity .. | .grouping .. => do
      let walked ← Transformer.walk self t
      walked.andThen (collapse self)

/-- The application of a labelled production stays. -/
theorem step_labeled {self : Term → Pass σ Outcome} {production : Production} {label : Label}
    (h : production.label = some label) (tag : Tag) (items : List Term) (span : Span) :
    step self (.application tag production items span) =
      Transformer.walk self (.application tag production items span) := by
  simp [step, h]

/-- The application of a production without a label to one term is that term. -/
theorem step_unlabeled_singleton {self : Term → Pass σ Outcome} {production : Production}
    (h : production.label = none) (tag : Tag) (sole : Term) (span : Span) :
    step self (.application tag production [sole] span) = self sole := by
  simp [step, h]

/-- Any other application of a production without a label is an error, whatever its children. -/
theorem step_unlabeled_of_length_ne {self : Term → Pass σ Outcome} {production : Production}
    {items : List Term} (h : production.label = none) (hi : items.length ≠ 1) (tag : Tag)
    (span : Span) : step self (.application tag production items span) =
      pure (.fail (.unlabeledNonSubsort production.sort items.length span)) := by
  match items with
  | [] => simp [step, h]
  | [_] => exact absurd rfl hi
  | _ :: _ :: _ => simp [step, h]

end Cleaning

def Transformer.cleaner {σ : Type} : Transformer σ := ⟨Cleaning.step⟩

/-- Clean a term. -/
def clean (t : Term) : Pass Unit Outcome := Transformer.cleaner.transformAfresh t

end ParseForest
