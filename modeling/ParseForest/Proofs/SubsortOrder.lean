import Mathlib.Data.List.Induction
import Mathlib.Order.Defs.Unbundled
import ParseForest.Proofs.Declared
import ParseForest.Proofs.StackSearch

/-!
# The order of sorts

The rows of a lattice are filled in one sweep and read by position. They hold the
order that is declared: a sort is strictly below another just if a chain of
declared pairs of distinct sorts leads from the one to the other. Neither the
sweep nor a question about two sorts ever needs a row or a bit that is not there,
which is said by variants of both that give up if they do. That it is an order is
what makes one pass enough to find the greatest of some sorts.
-/
namespace ParseForest
open Relation (TransGen)

/-- A fold that may give up does not, if no step does from what the steps before give. -/
theorem foldlM_eq_some {α β : Type} {f : β → α → Option β} {f' : β → α → β} {P : β → Prop}
    {xs : List α} {b : β} (hb : P b)
    (hstep : ∀ b, P b → ∀ x ∈ xs, f b x = some (f' b x) ∧ P (f' b x)) :
    xs.foldlM f b = some (xs.foldl f' b) := by
  induction xs generalizing b with
  | nil => rfl
  | cons x xs ih =>
    obtain ⟨hx, hP⟩ := hstep b hb x List.mem_cons_self
    rw [List.foldlM_cons, hx, List.foldl_cons]
    exact ih hP fun b hb y hy => hstep b hb y (List.mem_cons_of_mem x hy)

namespace Digraph
variable {g : Digraph} {depth : Nat} {s : Search} {order : List Nat} {rows : Array Nat} {v : Nat}

/-- The row of a node, unless a successor has no row or no bit. -/
def reachRow? (g : Digraph) (rows : Array Nat) (v : Nat) : Option Nat :=
  (g.successors v).foldlM (fun row u =>
    if u < g.size then rows[u]?.map fun above => row ||| 1 <<< u ||| above else none) 0

/-- The rows of the nodes of `order`, filled in last node first, unless one is not there. -/
def reachRows? (g : Digraph) (order : List Nat) : Option (Array Nat) :=
  order.reverse.foldlM
    (fun rows v => (g.reachRow? rows v).bind fun row =>
      if h : v < rows.size then some (rows.set v row) else none)
    (Array.replicate g.size 0)

theorem reachRow?_eq (hrows : rows.size = g.size) :
    g.reachRow? rows v = some (g.reachRow rows v) := by
  refine foldlM_eq_some (P := fun _ => True) trivial fun row _ u hu => ⟨?_, trivial⟩
  have hlt : u < g.size := (g.edges_lt _ (mem_successors.mp hu)).2
  have hrow : u < rows.size := hrows ▸ hlt
  rw [if_pos hlt, Array.getElem?_eq_getElem hrow, Option.map_some, Array.getD_eq_getD_getElem?,
    Array.getElem?_eq_getElem hrow, Option.getD_some]

theorem reachRows?_eq (horder : ∀ v ∈ order, v < g.size) :
    g.reachRows? order = some (g.reachRows order) := by
  refine foldlM_eq_some (P := fun rows => rows.size = g.size) (by simp) fun rows hrows v hv => ?_
  have hlt : v < rows.size := hrows ▸ horder v (List.mem_reverse.mp hv)
  rw [reachRow?_eq hrows, Option.bind_some, dif_pos hlt, Array.setIfInBounds, dif_pos hlt]
  exact ⟨rfl, by simpa⟩

theorem lt_of_mem_finished_visit (hv : v < g.size) (hs : ∀ x ∈ s.finished, x < g.size) :
    ∀ x ∈ (g.visit depth s v).finished, x < g.size := by
  induction depth generalizing s v with
  | zero => exact hs
  | succ depth ih =>
    rw [visit]
    split
    · exact hs
    · refine List.forall_mem_cons.mpr ⟨hv, ?_⟩
      refine List.foldlRecOn (motive := fun s : Search => ∀ x ∈ s.finished, x < g.size) _ _ hs
        fun s hs w hw => ih ?_ hs
      exact (g.edges_lt _ (mem_successors.mp (List.mem_reverse.mp hw))).2

/-- The search finds only nodes of the graph. -/
theorem lt_of_mem_searchOrder (hv : v ∈ g.searchOrder) : v < g.size := by
  have hall : ∀ x ∈ g.searchOrder, x < g.size := by
    refine List.foldlRecOn (motive := fun s : Search => ∀ x ∈ s.finished, x < g.size) _ _ (by simp)
      fun s hs w hw => ?_
    exact lt_of_mem_finished_visit (List.mem_range.mp hw) hs
  exact hall v hv

end Digraph

namespace Lattice

/-- Whether `a` is a strict subsort of `b`, unless the row of `a` or the bit of `b` is not there. -/
def lt? (l : Lattice) (a b : SortName) : Option Bool :=
  match l.position? a, l.position? b with
  | some i, some j => l.above[i]?.bind fun row => if j < l.size then some (row.testBit j) else none
  | _, _ => some false

theorem lt_size_of_position? {l : Lattice} {s : SortName} {i : Nat} (h : l.position? s = some i) :
    i < l.size := (List.findIdx?_eq_some_iff_getElem.mp h).1

theorem lt?_eq (l : Lattice) (a b : SortName) : l.lt? a b = some (l.lt a b) := by
  unfold lt? lt
  cases hi : l.position? a with
  | none => rfl
  | some i =>
    cases hj : l.position? b with
    | none => rfl
    | some j =>
      have hrow : i < l.above.size := l.above_size ▸ lt_size_of_position? hi
      dsimp only
      rw [Array.getD_eq_getD_getElem?, Array.getElem?_eq_getElem hrow, Option.bind_some,
        if_pos (lt_size_of_position? hj), Option.getD_some]

end Lattice

namespace SortDeclarations
variable {d : SortDeclarations} {ds : List SortDeclaration} {g : Lattice}

/-- The rows of a lattice that is built are filled in by the order that is found with a stack, and
no row or bit is missing. -/
theorem exists_stackOrder_of_build (h : d.build = .ok g) :
    ∃ order, d.graph.stackOrder = .ok order ∧ d.graph.reachRows? order = some g.above := by
  unfold build at h
  split at h
  · rename_i order ho
    obtain rfl := Except.ok.inj h
    refine ⟨order, (Digraph.stackOrder_eq _).trans ho, Digraph.reachRows?_eq fun v hv => ?_⟩
    unfold Digraph.topologicalOrder at ho
    split at ho
    · cases ho
    · exact Digraph.lt_of_mem_searchOrder (Except.ok.inj ho ▸ hv)
  · cases h

/-- The lattice that is built from a sequence of declarations holds the order that is declared. A
sort is strictly below another just if a chain of declared pairs of distinct sorts leads up to it,
so this is a strict order, also of sorts that are not declared, and being at most another sort is a
partial order. Neither building the lattice nor asking it needs a row or a bit that is not there. -/
theorem lattice_is_declared_order (h : (ofSequence ds).build = .ok g) :
    (∀ a b, g.lt a b ↔ TransGen (fun x y => Pairs ds x y ∧ x ≠ y) a b) ∧
      IsStrictOrder SortName (fun a b => g.lt a b) ∧
      IsPartialOrder SortName (fun a b => g.le a b) ∧
      (∃ order, (ofSequence ds).graph.stackOrder = .ok order ∧
        (ofSequence ds).graph.reachRows? order = some g.above) ∧
      ∀ a b, g.lt? a b = some (g.lt a b) := by
  have hdeclares : (ofSequence ds).Declares = fun x y => Pairs ds x y ∧ x ≠ y := by
    funext x y
    exact propext declares_ofSequence
  refine ⟨fun a b => ?_, ?_, ?_, exists_stackOrder_of_build h, g.lt?_eq⟩
  · rw [lt_iff_of_build h, hdeclares]
  · exact {
      irrefl := fun _ => lt_irrefl_of_build h
      trans := fun _ _ _ => lt_trans_of_build h }
  · exact {
      refl := g.le_refl
      trans := fun _ _ _ => le_trans_of_build h
      antisymm := fun _ _ => le_antisymm_of_build h }

/-- Two ways up from one sort to another, declared from the top down and more than once. -/
def diamond : List SortDeclaration :=
  let sort (n : Nat) : SortName := ⟨⟨n⟩⟩
  [.sort (sort 4), .subsort (sort 2) (sort 3), .subsort (sort 1) (sort 3),
    .subsort (sort 0) (sort 1), .subsort (sort 1) (sort 1), .subsort (sort 0) (sort 2),
    .subsort (sort 0) (sort 1)]

theorem lattice_is_declared_order_diamond : ∃ g, (ofSequence diamond).build = .ok g ∧
    TransGen (fun x y => Pairs diamond x y ∧ x ≠ y) ⟨⟨0⟩⟩ ⟨⟨3⟩⟩ ∧
      ¬TransGen (fun x y => Pairs diamond x y ∧ x ≠ y) ⟨⟨1⟩⟩ ⟨⟨2⟩⟩ ∧
        g.lt? ⟨⟨4⟩⟩ ⟨⟨5⟩⟩ = some false := by
  obtain ⟨g, hg⟩ : ∃ g, (ofSequence diamond).build = .ok g := ⟨_, rfl⟩
  obtain ⟨hlt, -, -, -, hchecked⟩ := lattice_is_declared_order hg
  obtain rfl := Except.ok.inj hg
  exact ⟨_, rfl, (hlt _ _).mp rfl, fun h => absurd ((hlt _ _).mpr h) (by decide), hchecked _ _⟩

/-- The greatest of some sorts is found in one pass, in every lattice that is built and also among
sorts that are not declared. A sort is the answer just if it is among the sorts and at least each of
them, and there is no answer just if no sort is at least all others. So neither the order of the
sorts nor how often they occur makes a difference. -/
theorem greatest_exact (h : d.build = .ok g) (ss : List SortName) :
    (∀ m, g.greatest ss = some m ↔ m ∈ ss ∧ ∀ s ∈ ss, g.ge m s) ∧
      (g.greatest ss = none ↔ ¬∃ m ∈ ss, ∀ s ∈ ss, s ≠ m → g.ge m s) ∧
      ∀ ss' : List SortName, (∀ s, s ∈ ss' ↔ s ∈ ss) → g.greatest ss' = g.greatest ss := by
  have found (ss : List SortName) (m : SortName) :
      g.greatest ss = some m ↔ m ∈ ss ∧ ∀ s ∈ ss, g.ge m s :=
    Lattice.greatest_eq_some_iff fun _ _ => le_antisymm_of_build h
  refine ⟨found ss, ⟨?_, ?_⟩, fun ss' hsame => ?_⟩
  · rintro hnone ⟨m, hm, hall⟩
    have hself : ∀ s ∈ ss, g.ge m s := by
      intro s hs
      by_cases hsm : s = m
      · rw [hsm]
        exact g.le_refl m
      · exact hall s hs hsm
    rw [(found ss m).mpr ⟨hm, hself⟩] at hnone
    cases hnone
  · intro hno
    refine Option.eq_none_iff_forall_ne_some.mpr fun m hm => hno ?_
    obtain ⟨hmem, hall⟩ := (found ss m).mp hm
    exact ⟨m, hmem, fun s hs _ => hall s hs⟩
  · refine Option.ext fun m => ?_
    rw [found, found, hsame m]
    refine and_congr_right fun _ => ⟨fun hall s hs => ?_, fun hall s hs => ?_⟩
    · exact hall s ((hsame s).mpr hs)
    · exact hall s ((hsame s).mp hs)

/-- The two sorts in the middle of the diamond have a greatest sort only together with the one above
both, wherever that stands. -/
theorem greatest_exact_diamond : ∃ g, (ofSequence diamond).build = .ok g ∧
    g.greatest [⟨⟨1⟩⟩, ⟨⟨2⟩⟩, ⟨⟨3⟩⟩, ⟨⟨0⟩⟩] = some ⟨⟨3⟩⟩ ∧
      g.greatest [⟨⟨3⟩⟩, ⟨⟨2⟩⟩, ⟨⟨0⟩⟩, ⟨⟨1⟩⟩, ⟨⟨2⟩⟩] = some ⟨⟨3⟩⟩ ∧
        g.greatest [⟨⟨0⟩⟩, ⟨⟨1⟩⟩, ⟨⟨2⟩⟩] = none ∧ g.greatest [⟨⟨0⟩⟩, ⟨⟨5⟩⟩] = none := by
  obtain ⟨g, hg⟩ : ∃ g, (ofSequence diamond).build = .ok g := ⟨_, rfl⟩
  have answer := greatest_exact hg
  obtain rfl := Except.ok.inj hg
  have htop := ((answer [⟨⟨1⟩⟩, ⟨⟨2⟩⟩, ⟨⟨3⟩⟩, ⟨⟨0⟩⟩]).1 ⟨⟨3⟩⟩).mpr (by decide)
  refine ⟨_, rfl, htop, ((answer _).2.2 _ ?_).trans htop, (answer _).2.1.mpr ?_,
    (answer _).2.1.mpr ?_⟩
  · intro s
    simp only [List.mem_cons, List.not_mem_nil]
    tauto
  · decide
  · decide

end SortDeclarations
end ParseForest
