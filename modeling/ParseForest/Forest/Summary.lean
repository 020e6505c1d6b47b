import ParseForest.Forest

/-!
# Summaries of forests

A summary of a forest is computed from its nodes upwards, without regard to
marks and spans: what a node contributes depends on its kind, its production and
the summaries of its children.
-/
namespace ParseForest

structure Summary (ω : Type) where
  constant : Symbol → Production → ω
  application : Production → List ω → ω
  ambiguity : List ω → ω
  grouping : List ω → ω

namespace Summary
variable {ι ω : Type}

mutual

/-- The summary of a forest. -/
def of (s : Summary ω) : Forest ι → ω
  | .constant _ value production _ => s.constant value production
  | .application _ production items _ => s.application production (s.ofAll items)
  | .ambiguity _ items _ => s.ambiguity (s.ofAll items)
  | .grouping _ items _ => s.grouping (s.ofAll items)

def ofAll (s : Summary ω) : List (Forest ι) → List ω
  | [] => []
  | t :: ts => s.of t :: s.ofAll ts

end

@[simp] theorem ofAll_eq (s : Summary ω) (ts : List (Forest ι)) : s.ofAll ts = ts.map s.of := by
  induction ts with
  | nil => rfl
  | cons t ts ih => simp [ofAll, ih]

end Summary
end ParseForest
