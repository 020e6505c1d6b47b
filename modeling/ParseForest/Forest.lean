import ParseForest.Grammar.Production
import ParseForest.Span

/-!
# Parse forests

A forest is a tree in which an ambiguity stands wherever the grammar admits more
than one parse of a source interval. Every node bears a mark. Marks that number
the nodes tell which occurrences are the same shared node; a forest without
marks is a plain tree, in which sharing cannot be seen.

Functions on a forest come in pairs, one for a node and one for a list of
nodes; a simp lemma states the second by the first.
-/
namespace ParseForest

inductive Forest (ι : Type) where
  /-- A token and the production that recognised it. -/
  | constant (mark : ι) (value : Symbol) (production : Production) (span : Span)
  /-- A production applied to one child for each of its slots. -/
  | application (mark : ι) (production : Production) (items : List (Forest ι)) (span : Span)
  /-- Alternative parses of one source interval. -/
  | ambiguity (mark : ι) (items : List (Forest ι)) (span : Span)
  /-- An ordered group of terms. -/
  | grouping (mark : ι) (items : List (Forest ι)) (span : Span)

namespace Forest
variable {ι κ : Type}

instance [Inhabited ι] : Inhabited (Forest ι) := ⟨grouping default [] default⟩

/-- Induction in which the children of a node are members of a list. -/
@[elab_as_elim, induction_eliminator]
theorem induction {motive : Forest ι → Prop}
    (constant : ∀ mark value production span, motive (constant mark value production span))
    (application : ∀ mark production items span,
      (∀ t ∈ items, motive t) → motive (application mark production items span))
    (ambiguity : ∀ mark items span, (∀ t ∈ items, motive t) → motive (ambiguity mark items span))
    (grouping : ∀ mark items span, (∀ t ∈ items, motive t) → motive (grouping mark items span))
    (t : Forest ι) : motive t := by
  refine Forest.rec (motive_1 := motive) (motive_2 := fun ts => ∀ t ∈ ts, motive t)
    constant application ambiguity grouping (by simp) ?_ t
  intro t ts ht hts u hu
  rcases List.mem_cons.mp hu with rfl | hu
  · exact ht
  · exact hts u hu

def mark : Forest ι → ι
  | constant mark .. | application mark .. | ambiguity mark .. | grouping mark .. => mark

def span : Forest ι → Span
  | constant _ _ _ span | application _ _ _ span | ambiguity _ _ span | grouping _ _ span => span

/-- Children of a node, in order. -/
def items : Forest ι → List (Forest ι)
  | constant .. => []
  | application _ _ items _ | ambiguity _ items _ | grouping _ items _ => items

/-- Production of a constant or an application. -/
def production? : Forest ι → Option Production
  | constant _ _ production _ | application _ production _ _ => some production
  | ambiguity .. | grouping .. => none

/-- The sort that the node's own production gives it. -/
def sort? (t : Forest ι) : Option SortName := t.production?.map Production.sort

/-- Whether the node is a group of nothing. -/
def isEmptyMarker : Forest ι → Bool
  | grouping _ [] _ => true
  | _ => false

theorem isEmptyMarker_iff {t : Forest ι} :
    t.isEmptyMarker ↔ ∃ mark span, t = grouping mark [] span := by
  unfold isEmptyMarker
  split <;> simp_all

mutual

/-- Number of nodes; one that occurs several times counts as often. -/
def size : Forest ι → Nat
  | constant .. => 1
  | application _ _ items _ | ambiguity _ items _ | grouping _ items _ => 1 + sizes items

/-- Number of nodes of all members of a list. -/
def sizes : List (Forest ι) → Nat
  | [] => 0
  | t :: ts => t.size + sizes ts

end

theorem size_eq (t : Forest ι) : t.size = 1 + sizes t.items := by
  cases t <;> simp [size, sizes, items]

theorem size_le_sizes {t : Forest ι} {ts : List (Forest ι)} (h : t ∈ ts) : t.size ≤ sizes ts := by
  induction ts with
  | nil => cases h
  | cons u ts ih =>
    rw [sizes]
    rcases List.mem_cons.mp h with rfl | h
    · omega
    · have := ih h
      omega

theorem size_lt_of_mem_items {t u : Forest ι} (h : u ∈ t.items) : u.size < t.size := by
  have := size_le_sizes h
  rw [size_eq t]
  omega

mutual

/-- The same forest with other marks. -/
def mapMarks (f : ι → κ) : Forest ι → Forest κ
  | constant mark value production span => constant (f mark) value production span
  | application mark production items span =>
      application (f mark) production (mapAllMarks f items) span
  | ambiguity mark items span => ambiguity (f mark) (mapAllMarks f items) span
  | grouping mark items span => grouping (f mark) (mapAllMarks f items) span

def mapAllMarks (f : ι → κ) : List (Forest ι) → List (Forest κ)
  | [] => []
  | t :: ts => t.mapMarks f :: mapAllMarks f ts

end

@[simp] theorem mapAllMarks_eq (f : ι → κ) (ts : List (Forest ι)) :
    mapAllMarks f ts = ts.map (mapMarks f) := by
  induction ts with
  | nil => rfl
  | cons t ts ih => simp [mapAllMarks, ih]

end Forest

/-- A forest in which sharing cannot be seen. -/
abbrev Tree := Forest Unit

/-- What a forest is when sharing is disregarded. -/
def Forest.tree {ι : Type} (t : Forest ι) : Tree := t.mapMarks fun _ => ()

end ParseForest
