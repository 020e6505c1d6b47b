import ParseForest.Proofs.Agreement

/-!
# Trees

Trees are equal as terms are, which is to say that they agree. What the passes
make of a term is said here of its tree.
-/
namespace ParseForest

instance : BEq Tree := ⟨Forest.agrees⟩

instance : ReflBEq Tree := ⟨fun {t} => Forest.agrees_refl t⟩

namespace Forest

theorem tree_beq (a b : Tree) : (a == b) = a.agrees b := rfl

/-- A tree has no sharing to be disregarded. -/
@[simp] theorem tree_self (t : Tree) : t.tree = t := by
  induction t using Forest.induction with
  | constant => rfl
  | application m p ts s ih =>
    rw [tree_application, List.map_congr_left ih, List.map_id']
  | ambiguity m ts s ih =>
    rw [tree_ambiguity, List.map_congr_left ih, List.map_id']
  | grouping m ts s ih =>
    rw [tree_grouping, List.map_congr_left ih, List.map_id']

/-- An alternative that is dropped agrees with one that is kept. -/
theorem exists_agrees_of_mem {ts : List Tree} {t : Tree} (h : t ∈ ts) :
    ∃ u ∈ ts.eraseDups, t.agrees u := exists_mem_eraseDups h

/-- Ambiguities of the same alternatives agree, in whatever order and however often these are
given. -/
theorem agrees_ambiguity_eraseDups {xs ys : List Tree} {s r : Span}
    (hx : ∀ x ∈ xs, x.WellFormed) (hy : ∀ y ∈ ys, y.WellFormed)
    (hxy : ∀ x ∈ xs, ∃ y ∈ ys, x.agrees y) (hyx : ∀ y ∈ ys, ∃ x ∈ xs, y.agrees x) :
    (ambiguity () xs.eraseDups s : Tree).agrees (ambiguity () ys.eraseDups r : Tree) := by
  have kept {us vs : List Tree} (h : ∀ u ∈ us, ∃ v ∈ vs, u.agrees v) :
      ∀ u ∈ us.eraseDups, ∃ v ∈ vs.eraseDups, u.agrees v := by
    intro u hu
    obtain ⟨v, hv, huv⟩ := h u (mem_of_mem_eraseDups hu)
    obtain ⟨w, hw, hvw⟩ := exists_agrees_of_mem hv
    exact ⟨w, hw, agrees_trans huv hvw⟩
  have distinct {us : List Tree} (h : ∀ u ∈ us, u.WellFormed) :
      us.eraseDups.Pairwise fun u u' => ∀ v : Tree, u.agrees v → ¬u'.agrees v :=
    pairwise_not_agrees (pairwise_eraseDups us) fun u hu _ huv =>
      agrees_symm (h u (mem_of_mem_eraseDups hu)) huv
  have hle := length_le_of_pairwise (kept hxy) (distinct hx)
  have hge := length_le_of_pairwise (kept hyx) (distinct hy)
  exact agrees_ambiguity_iff.mpr ⟨Nat.le_antisymm hle hge, kept hxy⟩

/-- The tree with other children. Of equal alternatives the first is kept. -/
def withItems (t : Tree) (items : List Tree) : Tree :=
  match t with
  | constant .. => t
  | application _ production _ span => application () production items span
  | ambiguity _ _ span => ambiguity () items.eraseDups span
  | grouping _ _ span => grouping () items span

@[simp] theorem withItems_application (p : Production) (us : List Tree) (s : Span)
    (ts : List Tree) : withItems (application () p us s) ts = application () p ts s := rfl

@[simp] theorem withItems_ambiguity (us : List Tree) (s : Span) (ts : List Tree) :
    withItems (ambiguity () us s) ts = ambiguity () ts.eraseDups s := rfl

@[simp] theorem isAmbiguity_withItems (t : Tree) (ts : List Tree) :
    (t.withItems ts).isAmbiguity = t.isAmbiguity := by
  cases t <;> rfl

theorem mem_of_mem_items_withItems {t u : Tree} {ts : List Tree}
    (h : u ∈ (t.withItems ts).items) : u ∈ ts := by
  cases t with
  | constant => cases h
  | ambiguity => exact mem_of_mem_eraseDups h
  | application | grouping => exact h

theorem withItems_self {t : Tree} (h : t.NodeWellFormed) : t.withItems t.items = t := by
  cases t with
  | ambiguity m ts s =>
    exact congrArg (fun us => ambiguity () us s) (eraseDups_eq_self h)
  | _ => rfl

end Forest
end ParseForest
