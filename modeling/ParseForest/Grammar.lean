import ParseForest.Lattice
import ParseForest.ListSort

/-!
# Grammars

What disambiguation has to know about a grammar: the subsort relation, the list
sorts, and the productions of each label.
-/
namespace ParseForest

structure Grammar where
  subsorts : Lattice
  lists : ListCatalog
  /-- The productions that have a label, in the order in which they were added. -/
  labeled : List Production

namespace Grammar

/-- A grammar that has no productions yet. -/
def ofSorts (subsorts : Lattice) (lists : ListCatalog) : Grammar := ⟨subsorts, lists, []⟩

def empty : Grammar := ofSorts ∅ ∅

instance : EmptyCollection Grammar := ⟨empty⟩

instance : Inhabited Grammar := ⟨empty⟩

/-- Add productions; those without a label play no part. -/
def withProductions (g : Grammar) (ps : List Production) : Grammar :=
  { g with labeled := g.labeled ++ ps.filter fun p => p.label.isSome }

def isListSort (g : Grammar) (s : SortName) : Bool := g.lists.isListSort s

/-- The productions with the given label. -/
def productionsFor (g : Grammar) (l : Label) : List Production :=
  g.labeled.filter fun p => p.label == some l

theorem mem_productionsFor_withProductions {g : Grammar} {ps : List Production} {l : Label}
    {p : Production} : p ∈ (g.withProductions ps).productionsFor l ↔
      p ∈ g.productionsFor l ∨ p ∈ ps ∧ p.label = some l := by
  simp only [productionsFor, withProductions, List.filter_append, List.filter_filter,
    List.mem_append, List.mem_filter, Bool.and_eq_true, beq_iff_eq]
  grind

end Grammar
end ParseForest
