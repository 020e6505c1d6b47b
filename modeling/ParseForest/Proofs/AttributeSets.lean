import Mathlib.Data.List.InsertIdx
import ParseForest.Grammar.Production

/-!
# Attribute sets

The members of a set stand in increasing order, so whether a value is among them,
and where it belongs if it is not, is found by halving the stretch in which it can
stand. A value that is put where it belongs leaves the members in order. So to add
keys one by one, each where a search says, makes the set of the keys, and neither
their order nor their repetitions can be told from it.
-/
namespace ParseForest

theorem pairwise_insertIdx {α : Type} {R : α → α → Prop} {xs : List α} {a : α} {i : Nat}
    (h : xs.Pairwise R) (below : ∀ x ∈ xs.take i, R x a) (above : ∀ x ∈ xs.drop i, R a x) :
    (xs.insertIdx i a).Pairwise R := by
  induction i generalizing xs with
  | zero => exact List.pairwise_cons.mpr ⟨above, h⟩
  | succ i ih =>
    cases xs with
    | nil => exact .nil
    | cons x xs =>
      obtain ⟨hx, hxs⟩ := List.pairwise_cons.mp h
      rw [List.take_succ_cons, List.forall_mem_cons] at below
      rw [List.insertIdx_succ_cons]
      refine List.pairwise_cons.mpr ⟨fun y hy => ?_, ih hxs below.2 above⟩
      rcases List.eq_or_mem_of_mem_insertIdx hy with rfl | hy
      · exact below.1
      · exact hx y hy

namespace OrderedSet
variable {α : Type} [Keyed α] {s : OrderedSet α} {a : α}

theorem key_getElem_lt {i j : Nat} (hij : i < j) (hj : j < s.toList.length) :
    key s.toList[i] < key s.toList[j] :=
  List.pairwise_iff_getElem.mp s.sorted i j (Nat.lt_trans hij hj) hj hij

/-- The place of a value among the members of a set, or the place where it belongs. -/
inductive Place (s : OrderedSet α) (a : α) where
  | found (i : Nat) (here : s.toList[i]? = some a)
  | missing (i : Nat) (le_length : i ≤ s.toList.length)
      (below : ∀ x ∈ s.toList.take i, key x < key a)
      (above : ∀ x ∈ s.toList.drop i, key a < key x)

/-- All members at places before `i` come before the value. -/
def ComeBefore (s : OrderedSet α) (a : α) (i : Nat) : Prop :=
  ∀ j (h : j < s.toList.length), j < i → key s.toList[j] < key a

/-- All members at places from `i` on come after the value. -/
def ComeAfter (s : OrderedSet α) (a : α) (i : Nat) : Prop :=
  ∀ j (h : j < s.toList.length), i ≤ j → key a < key s.toList[j]

theorem comeBefore_succ {i : Nat} (hi : i < s.toList.length) (h : key s.toList[i] < key a) :
    s.ComeBefore a (i + 1) := by
  intro j hj hji
  rcases Nat.lt_or_eq_of_le (Nat.le_of_lt_succ hji) with hlt | rfl
  · exact List.lt_trans (key_getElem_lt hlt hi) h
  · exact h

theorem comeAfter_of_lt {i : Nat} (hi : i < s.toList.length) (h : key a < key s.toList[i]) :
    s.ComeAfter a i := by
  intro j hj hij
  rcases Nat.lt_or_eq_of_le hij with hlt | rfl
  · exact List.lt_trans h (key_getElem_lt hlt hj)
  · exact h

/-- Search for a value in the stretch from `lo` up to `hi`, by halving. -/
def searchBetween (s : OrderedSet α) (a : α) (lo hi : Nat) (hle : lo ≤ hi)
    (hhi : hi ≤ s.toList.length) (below : s.ComeBefore a lo) (above : s.ComeAfter a hi) :
    s.Place a :=
  if h : lo < hi then
    let mid := lo + (hi - lo) / 2
    have hmid : mid < s.toList.length := by omega
    match hc : compareKeys s.toList[mid] a with
    | .eq => .found mid (by rw [List.getElem?_eq_getElem hmid, compareKeys_eq_iff.mp hc])
    | .lt => searchBetween s a (mid + 1) hi (by omega) hhi
        (comeBefore_succ hmid (compareKeys_eq_lt_iff.mp hc)) above
    | .gt => searchBetween s a lo mid (by omega) (by omega) below
        (comeAfter_of_lt hmid (compareKeys_eq_gt_iff.mp hc))
  else
    have heq : lo = hi := by omega
    .missing lo (heq ▸ hhi)
      (fun x hx => by
        obtain ⟨j, hj, rfl⟩ := List.mem_take_iff_getElem.mp hx
        exact below j (by omega) (by omega))
      (fun x hx => by
        obtain ⟨j, hj, rfl⟩ := List.mem_drop_iff_getElem.mp hx
        exact above (lo + j) (by omega) (by omega))
termination_by hi - lo

/-- Search for a value among all members. -/
def search (s : OrderedSet α) (a : α) : s.Place a :=
  searchBetween s a 0 s.toList.length (Nat.zero_le _) (Nat.le_refl _)
    (fun _ _ h => absurd h (Nat.not_lt_zero _)) (fun _ hj h => absurd hj (Nat.not_lt_of_le h))

/-- Whether the search finds the value. -/
def holds (s : OrderedSet α) (a : α) : Bool :=
  match s.search a with
  | .found .. => true
  | .missing .. => false

/-- Put a value where the search says that it belongs, unless the search finds it. -/
def adding (s : OrderedSet α) (a : α) : OrderedSet α :=
  match s.search a with
  | .found .. => s
  | .missing i _ below above => ⟨s.toList.insertIdx i a, pairwise_insertIdx s.sorted below above⟩

/-- A value that belongs somewhere else than it is not there. -/
theorem not_mem_of_missing {i : Nat} (below : ∀ x ∈ s.toList.take i, key x < key a)
    (above : ∀ x ∈ s.toList.drop i, key a < key x) : a ∉ s := by
  intro ha
  have hmem : a ∈ s.toList.take i ++ s.toList.drop i := by rwa [List.take_append_drop]
  rcases List.mem_append.mp hmem with h | h
  · exact List.lt_irrefl _ (below a h)
  · exact List.lt_irrefl _ (above a h)

theorem holds_iff : s.holds a ↔ a ∈ s := by
  unfold holds
  split
  · rename_i i here _
    exact iff_of_true rfl (List.mem_of_getElem? here)
  · rename_i i _ below above _
    exact iff_of_false Bool.false_ne_true (not_mem_of_missing below above)

theorem mem_adding {x : α} : x ∈ s.adding a ↔ x = a ∨ x ∈ s := by
  unfold adding
  split
  · rename_i i here _
    refine ⟨.inr, ?_⟩
    rintro (rfl | hx)
    · exact List.mem_of_getElem? here
    · exact hx
  · rename_i i hi _ _ _
    exact List.mem_insertIdx hi

/-- To put a value where it belongs is to join it. -/
theorem adding_eq_insert (s : OrderedSet α) (a : α) : s.adding a = s.insert a :=
  ext fun x => by rw [mem_adding, mem_insert]

/-- The values added one by one. -/
def ofSequence (xs : List α) : OrderedSet α := xs.foldl adding ∅

theorem mem_foldl_adding {x : α} {xs : List α} : x ∈ xs.foldl adding s ↔ x ∈ s ∨ x ∈ xs := by
  induction xs generalizing s with
  | nil => simp
  | cons y xs ih =>
    rw [List.foldl_cons, ih, mem_adding, List.mem_cons]
    exact ⟨by tauto, by tauto⟩

theorem ofSequence_eq_ofList (xs : List α) : ofSequence xs = ofList xs :=
  ext fun x => by simp [ofSequence, mem_foldl_adding]

theorem ofList_eq_iff {xs ys : List α} : ofList xs = ofList ys ↔ ∀ a, a ∈ xs ↔ a ∈ ys := by
  constructor
  · intro h a
    rw [← mem_ofList, h, mem_ofList]
  · intro h
    exact ext fun a => by rw [mem_ofList, mem_ofList, h]

end OrderedSet

namespace Attributes
theorem pairwise_number (attributes : Attributes) :
    attributes.toList.Pairwise fun a b => a.number < b.number := by
  refine attributes.sorted.imp fun {a b} h => ?_
  have hindex : a.index < b.index := by simpa [List.cons_lt_cons_iff] using h
  exact Nat.succ_lt_succ hindex

theorem count_toList (attributes : Attributes) (k : Symbol) :
    attributes.toList.count k = if k ∈ attributes then 1 else 0 := by
  have hnodup : attributes.toList.Nodup :=
    attributes.pairwise_number.imp fun {a b} h he => Nat.ne_of_lt h (congrArg Symbol.number he)
  exact hnodup.count

/-- Attributes are the set of their keys. To add keys one by one makes the same attributes
exactly if the same keys are added, in whatever order and however often; a search finds just
the keys that were added, and they stand in increasing order, each once. So it does not depend
on how the keys were declared whether a production only groups its operand, nor which
productions are equal. -/
theorem determined_by_keys (keys other : List Symbol) :
    let attributes : Attributes := .ofSequence keys
    attributes = .ofList keys ∧
      (attributes = .ofSequence other ↔ ∀ k, k ∈ keys ↔ k ∈ other) ∧
      (∀ k, attributes.holds k ↔ k ∈ keys) ∧
      (attributes.toList.Pairwise fun a b => a.number < b.number) ∧
      (∀ k, attributes.toList.count k = if k ∈ keys then 1 else 0) ∧
      ∀ p q : Production,
        ({ p with attributes }.isBracket = attributes.holds .bracket ∧
          ({ p with attributes }.isBracket ↔ Symbol.bracket ∈ keys)) ∧
        ({ p with attributes } = { q with attributes := .ofSequence other } ↔
          p.sort = q.sort ∧ p.items = q.items ∧ p.label = q.label ∧ ∀ k, k ∈ keys ↔ k ∈ other) := by
  intro attributes
  have hlist : attributes = .ofList keys := OrderedSet.ofSequence_eq_ofList keys
  have hmem (k : Symbol) : k ∈ attributes ↔ k ∈ keys := by rw [hlist, OrderedSet.mem_ofList]
  have hsame : attributes = .ofSequence other ↔ ∀ k, k ∈ keys ↔ k ∈ other := by
    rw [hlist, OrderedSet.ofSequence_eq_ofList, OrderedSet.ofList_eq_iff]
  refine ⟨hlist, hsame, fun k => OrderedSet.holds_iff.trans (hmem k), attributes.pairwise_number,
    fun k => ?_, fun p q => ⟨⟨?_, ?_⟩, ?_⟩⟩
  · rw [attributes.count_toList, if_congr (hmem k) rfl rfl]
  · rw [Bool.eq_iff_iff, Production.isBracket_iff, OrderedSet.holds_iff]
  · exact Production.isBracket_iff.trans (hmem _)
  · rw [Production.mk.injEq, hsame]

end Attributes
end ParseForest
