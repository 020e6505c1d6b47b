import ParseForest.Lattice.Digraph
import ParseForest.Grammar.Name

/-!
# The subsort relation

Subsorts are declared pair by pair. The declarations make a lattice unless they
form a cycle; the lattice keeps, for every declared sort, the sorts strictly
above it. A sort that was not declared is related to itself only. Joins and
meets need not exist.
-/
namespace ParseForest

/-- Sorts in the order of their first declaration, and the declared pairs as a graph on their
positions. -/
structure SortDeclarations where
  sorts : List SortName
  graph : Digraph
  sorts_nodup : sorts.Nodup
  graph_size : graph.size = sorts.length

/-- Number of sorts that a lattice is expected to hold, which is reported as a setting and sets no
limit. -/
def sortCapacity : Nat := 128

namespace SortDeclarations

def empty : SortDeclarations := ⟨[], .empty, .nil, rfl⟩

/-- Declare a sort that may be related to no other. -/
def declare (d : SortDeclarations) (s : SortName) : SortDeclarations :=
  if h : s ∈ d.sorts then d
  else
    { sorts := d.sorts ++ [s]
      graph := d.graph.addNode
      sorts_nodup := by
        rw [List.nodup_append]
        refine ⟨d.sorts_nodup, by simp, ?_⟩
        intro a ha b hb hab
        rw [List.mem_singleton] at hb
        exact h (hb ▸ hab ▸ ha)
      graph_size := by simp [d.graph_size] }

/-- Add an edge between the positions of two declared sorts. -/
def relate (d : SortDeclarations) (sub sup : SortName) : SortDeclarations :=
  { d with
    graph := d.graph.addEdge (d.sorts.idxOf sub) (d.sorts.idxOf sup)
    graph_size := by rw [Digraph.size_addEdge, d.graph_size] }

/-- Declare `sub` to be a subsort of `sup`; a sort is a subsort of itself anyway. -/
def subsort (d : SortDeclarations) (sub sup : SortName) : SortDeclarations :=
  ((d.declare sub).declare sup).relate sub sup

theorem mem_sorts_declare {d : SortDeclarations} {s x : SortName} :
    x ∈ (d.declare s).sorts ↔ x ∈ d.sorts ∨ x = s := by
  unfold declare
  split
  · constructor
    · exact .inl
    · rintro (h | rfl)
      · exact h
      · assumption
  · simp

end SortDeclarations

/-- Why declarations make no lattice. -/
inductive LatticeError where
  /-- The declarations form a cycle through the given sort. -/
  | cyclicSubsort (sort : SortName)
deriving DecidableEq

namespace LatticeError

def text (names : SymbolTable) : LatticeError → String
  | cyclicSubsort sort =>
      "subsort declarations for sort '" ++ sort.text names ++ "' form a cycle"

end LatticeError

structure Lattice where
  /-- The declared sorts in declaration order. -/
  sorts : List SortName
  /-- For each declared sort, the positions of the sorts strictly above it, as bits. -/
  above : Array Nat
  above_size : above.size = sorts.length

namespace Lattice

/-- Every sort is related to itself only. -/
def empty : Lattice := ⟨[], #[], rfl⟩

instance : EmptyCollection Lattice := ⟨empty⟩

instance : Inhabited Lattice := ⟨empty⟩

/-- Number of declared sorts. -/
def size (l : Lattice) : Nat := l.sorts.length

def isEmpty (l : Lattice) : Bool := l.size == 0

def contains (l : Lattice) (s : SortName) : Bool := l.sorts.contains s

/-- Position of a declared sort. -/
def position? (l : Lattice) (s : SortName) : Option Nat := l.sorts.idxOf? s

/-- `a` is a strict subsort of `b`. -/
def lt (l : Lattice) (a b : SortName) : Bool :=
  match l.position? a, l.position? b with
  | some i, some j => (l.above.getD i 0).testBit j
  | _, _ => false

/-- `a` is `b` or a subsort of `b`. -/
def le (l : Lattice) (a b : SortName) : Bool := a == b || l.lt a b

def gt (l : Lattice) (a b : SortName) : Bool := l.lt b a

def ge (l : Lattice) (a b : SortName) : Bool := l.le b a

/-- The two sorts are related in one direction or the other. -/
def comparable (l : Lattice) (a b : SortName) : Bool := l.le a b || l.le b a

/-- The declared sorts strictly above a sort, in declaration order. -/
def supersorts (l : Lattice) (s : SortName) : List SortName := l.sorts.filter (l.lt s)

theorem le_refl (l : Lattice) (a : SortName) : l.le a a := by simp [le]

theorem le_of_lt {l : Lattice} {a b : SortName} (h : l.lt a b) : l.le a b := by simp [le, h]

theorem le_iff {l : Lattice} {a b : SortName} : l.le a b ↔ a = b ∨ l.lt a b := by
  simp [le]

/-- The one of two sorts that can still be the greatest of all: `best`, unless it does not
dominate `next`. -/
def better (l : Lattice) (best next : SortName) : SortName := if l.ge best next then best else next

/-- The sort of a sequence that dominates every sort of it, if there is one. The candidate left
after one pass is checked against all. -/
def greatest (l : Lattice) : List SortName → Option SortName
  | [] => none
  | s :: rest =>
      let best := rest.foldl l.better s
      if (s :: rest).all (l.ge best) then some best else none

end Lattice

namespace SortDeclarations

/-- The lattice of the declarations, which must form no cycle. -/
def build (d : SortDeclarations) : Except LatticeError Lattice :=
  match d.graph.topologicalOrder with
  | .ok order =>
      .ok ⟨d.sorts, d.graph.reachRows order, by rw [Digraph.size_reachRows, d.graph_size]⟩
  | .error v => .error (.cyclicSubsort (d.sorts.getD v default))

/-- The declarations of some sorts followed by some pairs of a subsort and a supersort. -/
def ofLists (sorts : List SortName) (pairs : List (SortName × SortName)) : SortDeclarations :=
  pairs.foldl (fun d p => d.subsort p.1 p.2) (sorts.foldl declare empty)

end SortDeclarations

/-- The lattice of pairs of a subsort and a supersort. -/
def Lattice.ofSubsorts (pairs : List (SortName × SortName)) : Except LatticeError Lattice :=
  (SortDeclarations.ofLists [] pairs).build

end ParseForest
