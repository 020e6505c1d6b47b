/-!
# Finite digraphs

The nodes are the numbers below `size`, and the edges are listed newest first.
An order of the nodes is found by a depth-first search. It is topological if no
node has a predecessor that does not come before it; otherwise the graph has a
cycle, and the predecessor that stands in the way lies on one.
-/
namespace ParseForest

structure Digraph where
  size : Nat
  edges : List (Nat × Nat)
  edges_lt : ∀ e ∈ edges, e.1 < size ∧ e.2 < size
  edges_ne : ∀ e ∈ edges, e.1 ≠ e.2
  edges_nodup : edges.Nodup

namespace Digraph

def empty : Digraph := ⟨0, [], by simp, by simp, .nil⟩

def addNode (g : Digraph) : Digraph where
  size := g.size + 1
  edges := g.edges
  edges_lt e he := by
    have := g.edges_lt e he
    omega
  edges_ne := g.edges_ne
  edges_nodup := g.edges_nodup

/-- Add an edge between two nodes; loops and edges that are there already add nothing. -/
def addEdge (g : Digraph) (u v : Nat) : Digraph :=
  if h : (u < g.size ∧ v < g.size) ∧ u ≠ v ∧ (u, v) ∉ g.edges then
    { size := g.size
      edges := (u, v) :: g.edges
      edges_lt := by
        intro e he
        rcases List.mem_cons.mp he with rfl | he
        · exact h.1
        · exact g.edges_lt e he
      edges_ne := by
        intro e he
        rcases List.mem_cons.mp he with rfl | he
        · exact h.2.1
        · exact g.edges_ne e he
      edges_nodup := List.nodup_cons.mpr ⟨h.2.2, g.edges_nodup⟩ }
  else g

@[simp] theorem size_addNode (g : Digraph) : g.addNode.size = g.size + 1 := rfl

@[simp] theorem edges_addNode (g : Digraph) : g.addNode.edges = g.edges := rfl

@[simp] theorem size_addEdge (g : Digraph) (u v : Nat) : (g.addEdge u v).size = g.size := by
  unfold addEdge
  split <;> rfl

theorem mem_edges_addEdge {g : Digraph} {u v : Nat} {e : Nat × Nat} :
    e ∈ (g.addEdge u v).edges ↔
      e ∈ g.edges ∨ (u < g.size ∧ v < g.size) ∧ u ≠ v ∧ e = (u, v) := by
  unfold addEdge
  split
  · rename_i h
    simp only [List.mem_cons]
    constructor
    · rintro (rfl | he)
      · exact .inr ⟨h.1, h.2.1, rfl⟩
      · exact .inl he
    · rintro (he | ⟨_, _, rfl⟩)
      · exact .inr he
      · exact .inl rfl
  · rename_i h
    constructor
    · exact .inl
    · rintro (he | ⟨hlt, hne, rfl⟩)
      · exact he
      · exact Decidable.of_not_not fun hm => h ⟨hlt, hne, hm⟩

/-- Heads of the edges out of a node, newest edge first. -/
def successors (g : Digraph) (v : Nat) : List Nat :=
  g.edges.filterMap fun e => if e.1 = v then some e.2 else none

/-- Tails of the edges into a node, newest edge first. -/
def predecessors (g : Digraph) (v : Nat) : List Nat :=
  g.edges.filterMap fun e => if e.2 = v then some e.1 else none

@[simp] theorem mem_successors {g : Digraph} {u v : Nat} : v ∈ g.successors u ↔ (u, v) ∈ g.edges := by
  simp only [successors, List.mem_filterMap, Prod.exists]
  constructor
  · rintro ⟨a, b, hm, h⟩
    split at h
    · rename_i ha
      cases h
      exact ha ▸ hm
    · cases h
  · intro h
    exact ⟨u, v, h, if_pos rfl⟩

@[simp] theorem mem_predecessors {g : Digraph} {u v : Nat} :
    u ∈ g.predecessors v ↔ (u, v) ∈ g.edges := by
  simp only [predecessors, List.mem_filterMap, Prod.exists]
  constructor
  · rintro ⟨a, b, hm, h⟩
    split at h
    · rename_i hb
      cases h
      exact hb ▸ hm
    · cases h
  · intro h
    exact ⟨u, v, h, if_pos rfl⟩

/-- A depth-first search under way. -/
structure Search where
  seen : List Nat
  /-- Nodes all of whose successors are done, the latest first. -/
  finished : List Nat

/-- Search from a node: its successors first, along older edges before newer ones. Each nested
visit sees one more node, so a depth of `size` is never exceeded. -/
def visit (g : Digraph) : Nat → Search → Nat → Search
  | 0, s, _ => s
  | depth + 1, s, v =>
      if v ∈ s.seen then s
      else
        let inner := (g.successors v).reverse.foldl (g.visit depth) ⟨v :: s.seen, s.finished⟩
        ⟨inner.seen, v :: inner.finished⟩

/-- The nodes, those that were finished last in front. -/
def searchOrder (g : Digraph) : List Nat :=
  ((List.range g.size).foldl (g.visit g.size) ⟨[], []⟩).finished

/-- Among the predecessors of the first node of `order` that has some neither in `before` nor
earlier in `order`, the one with the oldest edge. A search against the edges from that node
reaches it first. -/
def firstMisplaced (g : Digraph) (before : List Nat) : List Nat → Option Nat
  | [] => none
  | v :: rest =>
      match (g.predecessors v).reverse.find? fun u => decide (u ∉ v :: before) with
      | some u => some u
      | none => g.firstMisplaced (v :: before) rest

/-- The nodes in an order in which every edge leads forward, or a node that prevents it. -/
def topologicalOrder (g : Digraph) : Except Nat (List Nat) :=
  match g.firstMisplaced [] g.searchOrder with
  | some u => .error u
  | none => .ok g.searchOrder

/-- The nodes that `v` leads to, as bits, given those of its successors. -/
def reachRow (g : Digraph) (rows : Array Nat) (v : Nat) : Nat :=
  (g.successors v).foldl (fun row u => row ||| 1 <<< u ||| rows.getD u 0) 0

/-- Fill in the rows of the nodes of `order`, last node first. -/
def reachRows (g : Digraph) (order : List Nat) : Array Nat :=
  order.reverse.foldl (fun rows v => rows.setIfInBounds v (g.reachRow rows v))
    (Array.replicate g.size 0)

@[simp] theorem size_reachRows (g : Digraph) (order : List Nat) :
    (g.reachRows order).size = g.size := by
  have size_foldl : ∀ (vs : List Nat) (rows : Array Nat),
      (vs.foldl (fun rows v => rows.setIfInBounds v (g.reachRow rows v)) rows).size
        = rows.size := by
    intro vs
    induction vs with
    | nil => exact fun _ => rfl
    | cons v vs ih =>
      intro rows
      rw [List.foldl_cons, ih]
      simp
  rw [reachRows, size_foldl]
  simp

end Digraph
end ParseForest
