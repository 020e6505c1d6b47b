import ParseForest.Proofs.Declared
import ParseForest.Proofs.StackSearch

/-!
# Cycles of declarations

When a node is finished, each of its successors has been finished before it or is
still under way, and what is under way leads to the node. So an edge that does not
lead forward in the order that is found closes a cycle. Hence declarations make a
lattice unless there is a cycle among them, and the sort that is blamed otherwise
lies on one.
-/
namespace ParseForest
open Relation (TransGen ReflTransGen)

namespace Digraph
variable {g : Digraph} {depth : Nat} {s s' : Search} {new vs order before : List Nat}
  {u v w : Nat}

/-- Every edge out of a node of the list leads to a later one, or it closes a cycle. -/
def Backed (g : Digraph) : List Nat → Prop
  | [] => True
  | v :: rest => (∀ w, (v, w) ∈ g.edges → w ∈ rest ∨ TransGen g.Adjacent w v) ∧ g.Backed rest

theorem Backed.of_append {front rest : List Nat} (h : g.Backed (front ++ rest)) :
    g.Backed rest := by
  induction front with
  | nil => exact h
  | cons v front ih => exact ih h.2

/-- Whatever is under way leads to the node. -/
def Search.LeadsTo (g : Digraph) (s : Search) (v : Nat) : Prop :=
  ∀ x ∈ s.seen, x ∉ s.finished → ReflTransGen g.Adjacent x v

theorem Search.LeadsTo.of_extends (hs : s.LeadsTo g v) (h : s.Extends s' new) : s'.LeadsTo g v := by
  intro x hx hf
  obtain ⟨hx, hf⟩ := h.under_way hx hf
  exact hs x hx hf

theorem mem_seen_foldl_of_roomy (hroom : s.Roomy g depth) (hv : v ∈ vs) (hlt : v < g.size) :
    v ∈ (vs.foldl (g.visit depth) s).seen := by
  cases depth with
  | zero =>
    obtain ⟨new, hnew⟩ := exists_extends_foldl (g.exists_extends_visit 0) vs s
    exact hnew.still_seen (hroom.mem_seen hlt)
  | succ depth => exact mem_seen_foldl_visit hv s

/-- If one visit keeps the finished nodes backed, then so do several. -/
theorem backed_foldl
    (hvisit : ∀ {s : Search} {v : Nat}, s.Roomy g depth → v < g.size → s.LeadsTo g v →
      g.Backed s.finished → g.Backed (g.visit depth s v).finished)
    (hroom : s.Roomy g depth) (hlt : ∀ v ∈ vs, v < g.size) (hway : ∀ v ∈ vs, s.LeadsTo g v)
    (hs : g.Backed s.finished) : g.Backed (vs.foldl (g.visit depth) s).finished := by
  induction vs generalizing s with
  | nil => exact hs
  | cons v vs ih =>
    obtain ⟨hv, hvs⟩ := List.forall_mem_cons.mp hlt
    obtain ⟨hvway, hvsway⟩ := List.forall_mem_cons.mp hway
    obtain ⟨new, hnew⟩ := g.exists_extends_visit depth s v
    exact ih (hnew.roomy hroom) hvs (fun w hw => (hvsway w hw).of_extends hnew)
      (hvisit hroom hv hvway hs)

theorem backed_visit (hroom : s.Roomy g depth) (hv : v < g.size) (hway : s.LeadsTo g v)
    (hs : g.Backed s.finished) : g.Backed (g.visit depth s v).finished := by
  induction depth generalizing s v with
  | zero => exact hs
  | succ depth ih =>
    by_cases hseen : v ∈ s.seen
    · rwa [visit_of_mem hseen]
    have hinner := hroom.discover hv hseen
    have hedge {w : Nat} (hw : w ∈ (g.successors v).reverse) : g.Adjacent v w :=
      mem_successors.mp (List.mem_reverse.mp hw)
    have hlt : ∀ w ∈ (g.successors v).reverse, w < g.size :=
      fun w hw => (g.edges_lt _ (hedge hw)).2
    have hnext : ∀ w ∈ (g.successors v).reverse,
        Search.LeadsTo g ⟨v :: s.seen, s.finished⟩ w := by
      intro w hw x hx hf
      rcases List.mem_cons.mp hx with rfl | hx
      · exact .single (hedge hw)
      · exact (hway x hx hf).tail (hedge hw)
    rw [visit, if_neg hseen]
    refine ⟨fun w hw => ?_, backed_foldl ih hinner hlt hnext hs⟩
    have hws : w ∈ (g.successors v).reverse := List.mem_reverse.mpr (mem_successors.mpr hw)
    have hwseen := mem_seen_foldl_of_roomy hinner hws (hlt w hws)
    refine or_iff_not_imp_left.mpr fun hf => ?_
    obtain ⟨new, hnew⟩ := exists_extends_foldl (g.exists_extends_visit depth)
      (g.successors v).reverse ⟨v :: s.seen, s.finished⟩
    obtain ⟨hx, hf⟩ := hnew.under_way hwseen hf
    have hne : w ≠ v := (g.edges_ne _ hw).symm
    have hx : w ∈ s.seen := (List.mem_cons.mp hx).resolve_left hne
    exact (Relation.reflTransGen_iff_eq_or_transGen.mp (hway w hx hf)).resolve_left hne.symm

theorem backed_searchOrder (g : Digraph) : g.Backed g.searchOrder :=
  backed_foldl backed_visit (roomy_start g) (fun _ => List.mem_range.mp)
    (fun _ _ _ hx => absurd hx List.not_mem_nil) trivial

/-- The misplaced node is a predecessor of a node of the order, but does not come before it. -/
theorem exists_of_firstMisplaced_eq_some (h : g.firstMisplaced before order = some u) :
    ∃ front v rest, order = front ++ v :: rest ∧ g.Adjacent u v ∧ u ∉ front ∧ u ∉ before := by
  induction order generalizing before with
  | nil => cases h
  | cons v rest ih =>
    rw [firstMisplaced] at h
    split at h
    · rename_i x hx
      obtain rfl := Option.some.inj h
      have hedge := mem_predecessors.mp (List.mem_reverse.mp (List.mem_of_find?_eq_some hx))
      have hnot : x ∉ v :: before := by simpa using List.find?_some hx
      exact ⟨[], v, rest, rfl, hedge, List.not_mem_nil, fun hb => hnot (List.mem_cons_of_mem v hb)⟩
    · obtain ⟨front, w, back, rfl, huw, hfront, hbefore⟩ := ih h
      obtain ⟨hne, hb⟩ := List.ne_and_not_mem_of_not_mem_cons hbefore
      exact ⟨v :: front, w, back, rfl, huw, List.not_mem_cons_of_ne_of_not_mem hne hfront, hb⟩

/-- A node that prevents a topological order lies on a cycle. -/
theorem exists_transGen_of_topologicalOrder (h : g.topologicalOrder = .error u) :
    ∃ v, g.Adjacent u v ∧ TransGen g.Adjacent v u := by
  unfold topologicalOrder at h
  split at h
  · rename_i x hx
    obtain rfl := Except.error.inj h
    obtain ⟨front, v, rest, ho, huv, hfront, -⟩ := exists_of_firstMisplaced_eq_some hx
    refine ⟨v, huv, ?_⟩
    have hmem : x ∈ front ++ v :: rest := ho ▸ mem_searchOrder (g.edges_lt _ huv).1
    have hrest : x ∈ rest :=
      (List.mem_cons.mp ((List.mem_append.mp hmem).resolve_left hfront)).resolve_left
        (g.edges_ne _ huv)
    obtain ⟨middle, back, rfl⟩ := List.append_of_mem hrest
    have hbacked := g.backed_searchOrder
    have hnodup := g.nodup_searchOrder
    rw [ho] at hbacked hnodup
    -- The head of the edge was finished last, so the edge closes a cycle.
    refine ((Backed.of_append hbacked.of_append.2).1 v huv).resolve_left fun hback => ?_
    have hv := (List.nodup_cons.mp (List.nodup_append.mp hnodup).2.1).1
    exact hv (List.mem_append_right middle (List.mem_cons_of_mem x hback))
  · cases h

end Digraph

namespace SortDeclarations
variable {d : SortDeclarations} {ds : List SortDeclaration} {g : Lattice} {a b s : SortName}

/-- The sort that is blamed is declared below another sort that is below it. -/
theorem exists_transGen_of_build (h : d.build = .error (.cyclicSubsort s)) :
    ∃ b, b ≠ s ∧ TransGen d.Declares s b ∧ TransGen d.Declares b s := by
  unfold build at h
  split at h
  · cases h
  · rename_i u hu
    obtain ⟨v, huv, hvu⟩ := Digraph.exists_transGen_of_topologicalOrder hu
    obtain ⟨hlt, hlt'⟩ := d.graph.edges_lt _ huv
    rw [d.graph_size] at hlt hlt'
    have hs : d.sorts[u]? = some s := by
      injection h with h
      injection h with h
      rw [← h, List.getD_eq_getElem?_getD, List.getElem?_eq_getElem hlt]
      rfl
    have hb := List.getElem?_eq_getElem hlt'
    refine ⟨d.sorts[v], fun he => ?_, transGen_declares (.single huv) hs hb,
      transGen_declares hvu hb hs⟩
    rw [he, ← hs] at hb
    exact d.graph.edges_ne _ huv ((List.getElem?_inj hlt' d.sorts_nodup).mp hb).symm

/-- Where pairs lead from a sort to another one, edges do. -/
theorem transGen_declares_ofSequence (hne : a ≠ b) (h : TransGen (Pairs ds) a b) :
    TransGen (ofSequence ds).Declares a b :=
  (Relation.reflTransGen_iff_eq_or_transGen.mp
    (reflTransGen_declares_ofSequence.mpr h.to_reflTransGen)).resolve_left hne.symm

theorem transGen_pairs (h : TransGen (ofSequence ds).Declares a b) : TransGen (Pairs ds) a b :=
  TransGen.mono (fun _ _ hxy => (declares_ofSequence.mp hxy).1) a b h

/-- Cycles are found exactly, and the order of the nodes may as well be found with a stack. A
sequence of declarations makes no lattice just if two distinct sorts are declared below each other,
and the sort that is then blamed is one of two such sorts. -/
theorem cycle_detection_exact (ds : List SortDeclaration) :
    (ofSequence ds).graph.stackOrder = (ofSequence ds).graph.topologicalOrder ∧
      ((∃ e, (ofSequence ds).build = .error e) ↔
        ∃ a b, a ≠ b ∧ TransGen (Pairs ds) a b ∧ TransGen (Pairs ds) b a) ∧
      ∀ s, (ofSequence ds).build = .error (.cyclicSubsort s) →
        ∃ b, b ≠ s ∧ TransGen (Pairs ds) s b ∧ TransGen (Pairs ds) b s := by
  have blamed {s : SortName} (h : (ofSequence ds).build = .error (.cyclicSubsort s)) :
      ∃ b, b ≠ s ∧ TransGen (Pairs ds) s b ∧ TransGen (Pairs ds) b s := by
    obtain ⟨b, hne, hsb, hbs⟩ := exists_transGen_of_build h
    exact ⟨b, hne, transGen_pairs hsb, transGen_pairs hbs⟩
  refine ⟨Digraph.stackOrder_eq _, ⟨?_, ?_⟩, fun s => blamed⟩
  · rintro ⟨⟨s⟩, h⟩
    obtain ⟨b, hne, hsb, hbs⟩ := blamed h
    exact ⟨s, b, hne.symm, hsb, hbs⟩
  · rintro ⟨a, b, hne, hab, hba⟩
    cases h : (ofSequence ds).build with
    | error e => exact ⟨e, rfl⟩
    | ok g =>
      have hlt := (lt_iff_of_build h).mpr (transGen_declares_ofSequence hne hab)
      have hgt := (lt_iff_of_build h).mpr (transGen_declares_ofSequence hne.symm hba)
      exact absurd (lt_trans_of_build h hlt hgt) (lt_irrefl_of_build h)

/-- Two sorts below each other, with sorts above and below them. -/
def knot : List SortDeclaration :=
  let sort (n : Nat) : SortName := ⟨⟨n⟩⟩
  [.subsort (sort 0) (sort 1), .subsort (sort 1) (sort 2), .sort (sort 3),
    .subsort (sort 2) (sort 2), .subsort (sort 2) (sort 1), .subsort (sort 3) (sort 0),
    .subsort (sort 2) (sort 4)]

theorem cycle_detection_exact_knot :
    (ofSequence knot).build = .error (.cyclicSubsort ⟨⟨2⟩⟩) ∧
      ∃ b, b ≠ ⟨⟨2⟩⟩ ∧ TransGen (Pairs knot) ⟨⟨2⟩⟩ b ∧ TransGen (Pairs knot) b ⟨⟨2⟩⟩ :=
  ⟨rfl, (cycle_detection_exact knot).2.2 _ rfl⟩

end SortDeclarations
end ParseForest
