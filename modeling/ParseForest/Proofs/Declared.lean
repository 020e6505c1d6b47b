import Mathlib.Data.List.Basic
import ParseForest.Proofs.Closure

/-!
# Sequences of declarations

Sorts and pairs may be declared in any order and more than once, and a sort may
be declared to be its own subsort. Of all this only the pairs of distinct sorts
matter: in the lattice that is built, the order of sorts is the reflexive and
transitive closure of the declared pairs. It is antisymmetric, because the graph
of a lattice has no cycle, and this is all that it takes for the greatest of some
sorts to be found in one pass.
-/
namespace ParseForest
namespace Digraph
variable {g : Digraph} {order : List Nat} {v w : Nat}

theorem idxOf_lt_of_adjacent (ho : g.LeadsForward order) (hn : order.Nodup) (hv : v ∈ order)
    (h : g.Adjacent v w) : order.idxOf v < order.idxOf w ∧ w ∈ order := by
  induction order with
  | nil => cases hv
  | cons x rest ih =>
    obtain ⟨hforward, hrest⟩ := ho
    obtain ⟨hx, hn⟩ := List.nodup_cons.mp hn
    by_cases hvx : x = v
    · subst hvx
      have hw : w ∈ rest := hforward w h
      have hne : x ≠ w := fun he => hx (he ▸ hw)
      rw [List.idxOf_cons_self, List.idxOf_cons_ne rest hne]
      exact ⟨Nat.succ_pos _, List.mem_cons_of_mem x hw⟩
    · obtain ⟨hlt, hw⟩ := ih hrest hn ((List.mem_cons.mp hv).resolve_left fun he => hvx he.symm)
      have hne : x ≠ w := fun he => hx (he ▸ hw)
      rw [List.idxOf_cons_ne rest hvx, List.idxOf_cons_ne rest hne]
      exact ⟨Nat.succ_lt_succ hlt, List.mem_cons_of_mem x hw⟩

/-- A graph that has a topological order has no cycle. -/
theorem not_transGen_self_of_topologicalOrder (h : g.topologicalOrder = .ok order) :
    ¬Relation.TransGen g.Adjacent v v := by
  obtain ⟨hforward, hall⟩ := leadsForward_of_topologicalOrder h
  have hn : order.Nodup := by
    unfold topologicalOrder at h
    split at h
    · cases h
    · exact Except.ok.inj h ▸ g.nodup_searchOrder
  have later {w : Nat} (hw : Relation.TransGen g.Adjacent v w) :
      order.idxOf v < order.idxOf w ∧ w ∈ order := by
    induction hw with
    | single hvw => exact idxOf_lt_of_adjacent hforward hn (hall v (g.edges_lt _ hvw).1) hvw
    | tail _ hab ih =>
      obtain ⟨hlt, ha⟩ := ih
      obtain ⟨hlt', hb⟩ := idxOf_lt_of_adjacent hforward hn ha hab
      exact ⟨Nat.lt_trans hlt hlt', hb⟩
  exact fun hv => Nat.lt_irrefl _ (later hv).1

end Digraph

namespace SortDeclarations
variable {d : SortDeclarations} {g : Lattice} {a b x y : SortName}

theorem lt_irrefl_of_build (h : d.build = .ok g) : ¬g.lt a a := by
  intro hlt
  obtain ⟨i, j, hi, hj, hij⟩ := exists_transGen_adjacent ((lt_iff_of_build h).mp hlt)
  have hi' := (List.getElem?_eq_some_iff.mp hi).1
  obtain rfl := (List.getElem?_inj hi' d.sorts_nodup).mp (hi.trans hj.symm)
  unfold build at h
  split at h
  · rename_i ho
    exact Digraph.not_transGen_self_of_topologicalOrder ho hij
  · cases h

theorem le_antisymm_of_build (h : d.build = .ok g) (hab : g.le a b) (hba : g.le b a) : a = b := by
  rcases Lattice.le_iff.mp hab with he | hlt
  · exact he
  · rcases Lattice.le_iff.mp hba with he | hlt'
    · exact he.symm
    · exact absurd (lt_trans_of_build h hlt hlt') (lt_irrefl_of_build h)

theorem le_iff_of_build (h : d.build = .ok g) :
    g.le a b ↔ Relation.ReflTransGen d.Declares a b := by
  rw [Lattice.le_iff, lt_iff_of_build h, Relation.reflTransGen_iff_eq_or_transGen, eq_comm]

theorem lt_iff_le_and_ne_of_build (h : d.build = .ok g) : g.lt a b ↔ g.le a b ∧ a ≠ b := by
  constructor
  · intro hlt
    exact ⟨Lattice.le_of_lt hlt, fun he => lt_irrefl_of_build h (he ▸ hlt)⟩
  · rintro ⟨hle, hne⟩
    exact (Lattice.le_iff.mp hle).resolve_left hne

/-- To declare a sort relates nothing. -/
theorem declares_declare : (d.declare x).Declares a b ↔ d.Declares a b := by
  unfold declare
  split
  · rfl
  · have hold {i j : Nat} (hij : d.graph.Adjacent i j) :
        (d.sorts ++ [x])[i]? = d.sorts[i]? ∧ (d.sorts ++ [x])[j]? = d.sorts[j]? := by
      obtain ⟨hi, hj⟩ := d.graph.edges_lt _ hij
      rw [d.graph_size] at hi hj
      exact ⟨List.getElem?_append_left hi, List.getElem?_append_left hj⟩
    constructor
    · rintro ⟨i, j, hi, hj, hij⟩
      exact ⟨i, j, (hold hij).1 ▸ hi, (hold hij).2 ▸ hj, hij⟩
    · rintro ⟨i, j, hi, hj, hij⟩
      exact ⟨i, j, (hold hij).1.trans hi, (hold hij).2.trans hj, hij⟩

theorem getElem?_idxOf (hx : x ∈ d.sorts) : d.sorts[d.sorts.idxOf x]? = some x := by
  have hlt := List.idxOf_lt_length_iff.mpr hx
  rw [List.getElem?_eq_getElem hlt, List.getElem_idxOf hlt]

theorem declares_relate (hx : x ∈ d.sorts) (hy : y ∈ d.sorts) :
    (d.relate x y).Declares a b ↔ d.Declares a b ∨ x ≠ y ∧ a = x ∧ b = y := by
  have hpx := getElem?_idxOf hx
  have hpy := getElem?_idxOf hy
  constructor
  · rintro ⟨i, j, hi, hj, hij⟩
    rcases Digraph.mem_edges_addEdge.mp hij with hij | ⟨-, hne, he⟩
    · exact .inl ⟨i, j, hi, hj, hij⟩
    · obtain ⟨rfl, rfl⟩ := Prod.mk.inj he
      have hax : a = x := Option.some.inj (hi.symm.trans hpx)
      have hby : b = y := Option.some.inj (hj.symm.trans hpy)
      exact .inr ⟨fun hxy => hne (by rw [hxy]), hax, hby⟩
  · rintro (⟨i, j, hi, hj, hij⟩ | ⟨hne, rfl, rfl⟩)
    · exact ⟨i, j, hi, hj, Digraph.mem_edges_addEdge.mpr (.inl hij)⟩
    · refine ⟨_, _, hpx, hpy, Digraph.mem_edges_addEdge.mpr (.inr ⟨?_, ?_, rfl⟩)⟩
      · rw [d.graph_size]
        exact ⟨List.idxOf_lt_length_iff.mpr hx, List.idxOf_lt_length_iff.mpr hy⟩
      · intro he
        rw [he, hpy] at hpx
        exact hne (Option.some.inj hpx).symm

theorem declares_subsort :
    (d.subsort x y).Declares a b ↔ d.Declares a b ∨ x ≠ y ∧ a = x ∧ b = y := by
  have hx : x ∈ ((d.declare x).declare y).sorts :=
    mem_sorts_declare.mpr (.inl (mem_sorts_declare.mpr (.inr rfl)))
  have hy : y ∈ ((d.declare x).declare y).sorts := mem_sorts_declare.mpr (.inr rfl)
  rw [subsort, declares_relate hx hy, declares_declare, declares_declare]

end SortDeclarations

/-- One declaration among others. -/
inductive SortDeclaration where
  /-- A sort that may be related to no other. -/
  | sort (name : SortName)
  | subsort (sub sup : SortName)
deriving DecidableEq

namespace SortDeclarations

/-- Add a declaration. -/
def add (d : SortDeclarations) : SortDeclaration → SortDeclarations
  | .sort name => d.declare name
  | .subsort sub sup => d.subsort sub sup

/-- What is declared by a sequence of declarations. -/
def ofSequence (ds : List SortDeclaration) : SortDeclarations := ds.foldl add empty

variable {ds : List SortDeclaration} {g : Lattice} {a b : SortName}

theorem ofLists_eq_ofSequence (sorts : List SortName) (pairs : List (SortName × SortName)) :
    ofLists sorts pairs =
      ofSequence (sorts.map .sort ++ pairs.map fun p => .subsort p.1 p.2) := by
  rw [ofLists, ofSequence, List.foldl_append, List.foldl_map, List.foldl_map]
  rfl

/-- The pair is one of the declarations. -/
def Pairs (ds : List SortDeclaration) (a b : SortName) : Prop := .subsort a b ∈ ds

/-- Edges are the declared pairs of distinct sorts. -/
theorem declares_ofSequence : (ofSequence ds).Declares a b ↔ Pairs ds a b ∧ a ≠ b := by
  have fold (d : SortDeclarations) :
      (ds.foldl add d).Declares a b ↔ d.Declares a b ∨ Pairs ds a b ∧ a ≠ b := by
    unfold Pairs
    induction ds generalizing d with
    | nil => simp
    | cons x ds ih =>
      rw [List.foldl_cons, ih]
      cases x with
      | sort name => simp [add, declares_declare]
      | subsort sub sup =>
        rw [add, declares_subsort, List.mem_cons, SortDeclaration.subsort.injEq]
        constructor
        · rintro ((h | ⟨hne, rfl, rfl⟩) | ⟨h, hne⟩)
          · exact .inl h
          · exact .inr ⟨.inl ⟨rfl, rfl⟩, hne⟩
          · exact .inr ⟨.inr h, hne⟩
        · rintro (h | ⟨⟨rfl, rfl⟩ | h, hne⟩)
          · exact .inl (.inl h)
          · exact .inl (.inr ⟨hne, rfl, rfl⟩)
          · exact .inr ⟨h, hne⟩
  rw [ofSequence, fold, or_iff_right]
  rintro ⟨i, j, -, -, hij⟩
  cases hij

/-- Pairs of a sort and itself make no difference to where declarations lead. -/
theorem reflTransGen_declares_ofSequence : Relation.ReflTransGen (ofSequence ds).Declares a b ↔
    Relation.ReflTransGen (Pairs ds) a b := by
  constructor
  · intro hab
    exact Relation.ReflTransGen.mono (fun x y hxy => (declares_ofSequence.mp hxy).1) a b hab
  · intro hab
    refine Relation.reflTransGen_closed (fun x y hxy => ?_) a b hab
    by_cases hne : x = y
    · exact hne ▸ .refl
    · exact .single (declares_ofSequence.mpr ⟨hxy, hne⟩)

/-- In the lattice that is built from a sequence, a sort is at most another if and only if pairs
lead from the one to the other. -/
theorem le_iff_of_build_ofSequence (h : (ofSequence ds).build = .ok g) :
    g.le a b ↔ Relation.ReflTransGen (Pairs ds) a b := by
  rw [le_iff_of_build h, reflTransGen_declares_ofSequence]

end SortDeclarations

namespace Lattice
variable {l : Lattice} {m s : SortName} {ss : List SortName}

theorem foldl_better_mem (l : Lattice) (s : SortName) (ss : List SortName) :
    ss.foldl l.better s ∈ s :: ss := by
  induction ss generalizing s with
  | nil => exact List.mem_cons_self
  | cons x ss ih =>
    have hbetter : l.better s x = s ∨ l.better s x = x := by
      unfold better
      split
      · exact .inl rfl
      · exact .inr rfl
    rw [List.foldl_cons]
    rcases List.mem_cons.mp (ih (l.better s x)) with h | h
    · rw [h]
      rcases hbetter with h | h <;> simp [h]
    · exact List.mem_cons_of_mem _ (List.mem_cons_of_mem _ h)

/-- A sort that dominates all others is never given up, and it replaces any other. -/
theorem foldl_better_eq (hl : ∀ a b, l.le a b → l.le b a → a = b) (hm : m ∈ s :: ss)
    (hall : ∀ x ∈ s :: ss, l.ge m x) : ss.foldl l.better s = m := by
  induction ss generalizing s with
  | nil => exact (List.mem_singleton.mp hm).symm
  | cons x ss ih =>
    obtain ⟨hs, hx, hrest⟩ : l.ge m s ∧ l.ge m x ∧ ∀ y ∈ ss, l.ge m y := by simpa using hall
    have hbetter : m ∈ l.better s x :: ss ∧ l.ge m (l.better s x) := by
      unfold better
      split
      · rename_i hge
        refine ⟨?_, hs⟩
        rcases List.mem_cons.mp hm with rfl | hm
        · exact List.mem_cons_self
        · rcases List.mem_cons.mp hm with rfl | hm
          · exact hl _ _ hge hs ▸ List.mem_cons_self
          · exact List.mem_cons_of_mem _ hm
      · rename_i hge
        refine ⟨(List.mem_cons.mp hm).resolve_left fun he => ?_, hx⟩
        exact hge (he ▸ hx)
    rw [List.foldl_cons]
    exact ih hbetter.1 (List.forall_mem_cons.mpr ⟨hbetter.2, hrest⟩)

/-- One pass finds the sort of a sequence that dominates all of it, if there is one. -/
theorem greatest_eq_some_iff (hl : ∀ a b, l.le a b → l.le b a → a = b) :
    l.greatest ss = some m ↔ m ∈ ss ∧ ∀ s ∈ ss, l.ge m s := by
  cases ss with
  | nil => simp [greatest]
  | cons s rest =>
    simp only [greatest, Option.ite_none_right_eq_some, Option.some.injEq, List.all_eq_true]
    constructor
    · rintro ⟨hall, rfl⟩
      exact ⟨foldl_better_mem l s rest, hall⟩
    · rintro ⟨hm, hall⟩
      have heq := foldl_better_eq hl hm hall
      exact ⟨heq.symm ▸ hall, heq⟩

end Lattice
end ParseForest
