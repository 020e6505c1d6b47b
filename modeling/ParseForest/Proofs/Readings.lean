import Mathlib.Data.List.Sections
import ParseForest.Proofs.Building

/-!
# The parses that a forest stands for

A reading of a tree chooses an alternative wherever an ambiguity occurs, and then
a reading of that. An ambiguity without alternatives reads as an empty marker. A
reading has no ambiguities left, and it can always be built.
-/
namespace ParseForest
namespace Forest

/-- The readings of a node, given those of its children. -/
def readingsNode (t : Tree) (rs : List (List Tree)) : List Tree :=
  match t with
  | constant .. => [t]
  | application _ production _ span => rs.sections.map fun us => application () production us span
  | ambiguity _ [] span => [grouping () [] span]
  | ambiguity _ (_ :: _) _ => rs.flatten
  | grouping _ _ span => rs.sections.map fun us => grouping () us span

def readings (t : Tree) : List Tree := t.fold readingsNode

theorem readings_eq (t : Tree) : t.readings = readingsNode t (t.items.map readings) := fold_eq _ t

/-- The second tree is a reading of the first. -/
def ReadsAs (t r : Tree) : Prop := r ∈ t.readings

section Nodes
variable {m : Unit} {p : Production} {ts : List Tree} {s : Span} {t r : Tree}

theorem forall₂_mem_readings {us : List Tree} :
    List.Forall₂ (fun u rs => u ∈ rs) us (ts.map readings) ↔ List.Forall₂ ReadsAs ts us := by
  rw [List.forall₂_map_right_iff]
  exact ⟨fun h => h.flip, fun h => h.flip⟩

theorem readsAs_constant_iff {value : Symbol} :
    ReadsAs (constant m value p s) r ↔ r = constant m value p s := by
  rw [ReadsAs, readings_eq]
  exact List.mem_singleton

theorem readsAs_application_iff : ReadsAs (application m p ts s) r ↔
    ∃ us, List.Forall₂ ReadsAs ts us ∧ r = application m p us s := by
  rw [ReadsAs, readings_eq]
  simp only [readingsNode, List.mem_map, List.mem_sections, items, forall₂_mem_readings]
  constructor
  · intro ⟨us, hus, hr⟩
    exact ⟨us, hus, hr.symm⟩
  · intro ⟨us, hus, hr⟩
    exact ⟨us, hus, hr.symm⟩

theorem readsAs_grouping_iff : ReadsAs (grouping m ts s) r ↔
    ∃ us, List.Forall₂ ReadsAs ts us ∧ r = grouping m us s := by
  rw [ReadsAs, readings_eq]
  simp only [readingsNode, List.mem_map, List.mem_sections, items, forall₂_mem_readings]
  constructor
  · intro ⟨us, hus, hr⟩
    exact ⟨us, hus, hr.symm⟩
  · intro ⟨us, hus, hr⟩
    exact ⟨us, hus, hr.symm⟩

theorem readsAs_ambiguity_iff : ReadsAs (ambiguity m ts s) r ↔
    (ts = [] ∧ r = grouping () [] s) ∨ ∃ t ∈ ts, t.ReadsAs r := by
  rw [ReadsAs, readings_eq]
  cases ts with
  | nil => simp [readingsNode]
  | cons t ts => simp [readingsNode, items, ReadsAs]

end Nodes

/-- Every tree has a reading. -/
theorem exists_readsAs (t : Tree) : ∃ r, t.ReadsAs r := by
  induction t using Forest.induction with
  | constant m v p s => exact ⟨_, readsAs_constant_iff.mpr rfl⟩
  | application m p ts s ih =>
    obtain ⟨us, hus⟩ := forall₂_exists ih
    exact ⟨_, readsAs_application_iff.mpr ⟨us, hus, rfl⟩⟩
  | ambiguity m ts s ih =>
    by_cases hts : ts = []
    · exact ⟨_, readsAs_ambiguity_iff.mpr (.inl ⟨hts, rfl⟩)⟩
    · obtain ⟨t, ht⟩ := List.exists_mem_of_ne_nil ts hts
      obtain ⟨r, hr⟩ := ih t ht
      exact ⟨r, readsAs_ambiguity_iff.mpr (.inr ⟨t, ht, hr⟩)⟩
  | grouping m ts s ih =>
    obtain ⟨us, hus⟩ := forall₂_exists ih
    exact ⟨_, readsAs_grouping_iff.mpr ⟨us, hus, rfl⟩⟩

/-- Trees that agree have readings that agree. -/
theorem ReadsAs.of_agrees {a b r : Tree} (hr : a.ReadsAs r) (h : a.agrees b) :
    ∃ q, b.ReadsAs q ∧ r.agrees q := by
  induction a using Forest.induction generalizing b r with
  | constant m v p s =>
    obtain ⟨n, s', rfl⟩ := agrees_constant_left.mp h
    obtain rfl := readsAs_constant_iff.mp hr
    exact ⟨_, readsAs_constant_iff.mpr rfl, h⟩
  | application m p xs s ih =>
    obtain ⟨n, ys, s', rfl, hxy⟩ := agrees_application_left.mp h
    obtain ⟨us, hus, rfl⟩ := readsAs_application_iff.mp hr
    obtain ⟨qs, hqs, hagree⟩ :=
      forall₂_square hxy hus fun x hx y u hxy hu => ih x hx hu hxy
    exact ⟨_, readsAs_application_iff.mpr ⟨qs, hqs, rfl⟩, agrees_application hagree⟩
  | ambiguity m xs s ih =>
    obtain ⟨n, ys, s', rfl, hlen, hex⟩ := agrees_ambiguity_left.mp h
    rcases readsAs_ambiguity_iff.mp hr with ⟨rfl, rfl⟩ | ⟨x, hx, hr⟩
    · have hys : ys = [] := List.length_eq_zero_iff.mp hlen.symm
      exact ⟨_, readsAs_ambiguity_iff.mpr (.inl ⟨hys, rfl⟩), agrees_grouping .nil⟩
    · obtain ⟨y, hy, hxy⟩ := hex x hx
      obtain ⟨q, hq, hagree⟩ := ih x hx hr hxy
      exact ⟨q, readsAs_ambiguity_iff.mpr (.inr ⟨y, hy, hq⟩), hagree⟩
  | grouping m xs s ih =>
    obtain ⟨n, ys, s', rfl, hxy⟩ := agrees_grouping_left.mp h
    obtain ⟨us, hus, rfl⟩ := readsAs_grouping_iff.mp hr
    obtain ⟨qs, hqs, hagree⟩ :=
      forall₂_square hxy hus fun x hx y u hxy hu => ih x hx hu hxy
    exact ⟨_, readsAs_grouping_iff.mpr ⟨qs, hqs, rfl⟩, agrees_grouping hagree⟩

/-- The nodes of a reading are nodes of the tree with other children, or empty markers. -/
theorem ReadsAs.everywhere {P Q : Tree → Prop} {t r : Tree} (hr : t.ReadsAs r)
    (ht : Everywhere Q t)
    (hnode : ∀ x us, Q x → ¬x.isAmbiguity → us.length = x.items.length → P (x.withItems us))
    (hmarker : ∀ m s, Q (ambiguity m [] s) → P (grouping () [] s)) : Everywhere P r := by
  have all {ts us : List Tree} (hts : ∀ x ∈ ts, Everywhere Q x)
      (ih : ∀ x ∈ ts, ∀ {r : Tree}, x.ReadsAs r → Everywhere Q x → Everywhere P r)
      (hus : List.Forall₂ ReadsAs ts us) : ∀ u ∈ us, Everywhere P u := by
    intro u hu
    obtain ⟨x, hx, hxu⟩ := forall₂_exists_left hus hu
    exact ih x hx hxu (hts x hx)
  induction t using Forest.induction generalizing r with
  | constant m v p s =>
    obtain rfl := readsAs_constant_iff.mp hr
    exact everywhere_iff.mpr ⟨hnode _ [] ht.self (by simp [isAmbiguity]) rfl, by simp [items]⟩
  | application m p ts s ih =>
    obtain ⟨us, hus, rfl⟩ := readsAs_application_iff.mp hr
    refine everywhere_iff.mpr ⟨?_, all (fun x hx => ht.of_mem_items hx) ih hus⟩
    exact hnode _ us ht.self (by simp [isAmbiguity]) hus.length_eq.symm
  | ambiguity m ts s ih =>
    rcases readsAs_ambiguity_iff.mp hr with ⟨rfl, rfl⟩ | ⟨x, hx, hr⟩
    · exact everywhere_iff.mpr ⟨hmarker m s ht.self, by simp [items]⟩
    · exact ih x hx hr (ht.of_mem_items hx)
  | grouping m ts s ih =>
    obtain ⟨us, hus, rfl⟩ := readsAs_grouping_iff.mp hr
    refine everywhere_iff.mpr ⟨?_, all (fun x hx => ht.of_mem_items hx) ih hus⟩
    exact hnode _ us ht.self (by simp [isAmbiguity]) hus.length_eq.symm

theorem ReadsAs.wellFormed {t r : Tree} (hr : t.ReadsAs r) (ht : t.WellFormed) :
    r.WellFormed := by
  refine hr.everywhere ht (fun x us hx ha hlen => ?_) fun _ _ _ => trivial
  cases x with
  | constant | grouping => trivial
  | application m p ts s => exact hlen.trans hx
  | ambiguity => exact absurd rfl ha

theorem ReadsAs.knownTo {names : SymbolTable} {t r : Tree} (hr : t.ReadsAs r)
    (ht : t.KnownTo names) : r.KnownTo names := by
  refine hr.everywhere ht (fun x us hx _ _ => ?_) fun m s hx => hx
  cases x <;> exact hx

/-- A reading has no ambiguities. -/
theorem ReadsAs.unambiguous {t r : Tree} (hr : t.ReadsAs r) :
    Everywhere (fun u => ¬u.isAmbiguity) r := by
  have ht : Everywhere (fun _ => True) t := fun _ _ => trivial
  refine hr.everywhere ht (fun x us _ ha _ => ?_) fun m s _ => ?_
  · rwa [isAmbiguity_withItems]
  · simp [isAmbiguity]

end Forest

namespace Ledger

/-- The term `r`, a node of a later ledger, is a reading of the term `t`. -/
structure Reading (l k : Ledger) (t r : Term) : Prop where
  le : l ≤ k
  mem : r ∈ k
  reads : t.tree.ReadsAs r.tree

variable {l : Ledger} {t : Term}

/-- Every reading of a term of the ledger can be built. -/
theorem exists_reading (ht : t ∈ l) {q : Tree} (hq : t.tree.ReadsAs q) :
    ∃ k r, l.Reading k t r ∧ r.tree = q := by
  have hw : t.tree.WellFormed := Forest.wellFormed_tree.mpr (wellFormed_of_mem ht)
  have hk : t.tree.KnownTo l.symbols := Forest.knownTo_tree.mpr (knownTo_of_mem ht)
  obtain ⟨k, r, hlk, hr⟩ := exists_stores (hq.wellFormed hw) (hq.knownTo hk)
  exact ⟨k, r, ⟨hlk, hr.mem, hr.tree_eq ▸ hq⟩, hr.tree_eq⟩

end Ledger
end ParseForest
