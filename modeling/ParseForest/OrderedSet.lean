/-!
# Finite sets in the order of a key

A value is ordered by its key, a list of numbers read lexicographically. A set
holds its members in strictly increasing order, so two sets with the same
members are the same set whatever the order and repetition of the insertions
that built them.
-/
namespace ParseForest

/-- A type ordered by a key that tells its values apart. -/
class Keyed (α : Type) where
  key : α → List Nat
  key_injective : ∀ a b : α, key a = key b → a = b

export Keyed (key)

/-- The lexicographic order of two lists of numbers. -/
def compareNumbers : List Nat → List Nat → Ordering
  | [], [] => .eq
  | [], _ :: _ => .lt
  | _ :: _, [] => .gt
  | m :: ms, n :: ns => if m < n then .lt else if n < m then .gt else compareNumbers ms ns

theorem compareNumbers_eq_lt_iff {ms ns : List Nat} : compareNumbers ms ns = .lt ↔ ms < ns := by
  induction ms generalizing ns with
  | nil => cases ns <;> simp [compareNumbers]
  | cons m ms ih =>
    cases ns with
    | nil => simp [compareNumbers]
    | cons n ns => grind [compareNumbers, List.cons_lt_cons_iff]

theorem compareNumbers_eq_gt_iff {ms ns : List Nat} : compareNumbers ms ns = .gt ↔ ns < ms := by
  induction ms generalizing ns with
  | nil => cases ns <;> simp [compareNumbers]
  | cons m ms ih =>
    cases ns with
    | nil => simp [compareNumbers]
    | cons n ns => grind [compareNumbers, List.cons_lt_cons_iff]

/-- The order of two values: that of their keys. -/
def compareKeys {α : Type} [Keyed α] (a b : α) : Ordering := compareNumbers (key a) (key b)

theorem compareKeys_eq_lt_iff {α : Type} [Keyed α] {a b : α} :
    compareKeys a b = .lt ↔ key a < key b := compareNumbers_eq_lt_iff

theorem compareKeys_eq_gt_iff {α : Type} [Keyed α] {a b : α} :
    compareKeys a b = .gt ↔ key b < key a := compareNumbers_eq_gt_iff

/-- Two values neither of which comes first are the same value. -/
theorem compareKeys_eq_iff {α : Type} [Keyed α] {a b : α} : compareKeys a b = .eq ↔ a = b := by
  constructor
  · intro h
    have hab : ¬ key a < key b := fun hl => by simp [compareKeys_eq_lt_iff.mpr hl] at h
    have hba : ¬ key b < key a := fun hg => by simp [compareKeys_eq_gt_iff.mpr hg] at h
    exact Keyed.key_injective a b (List.le_antisymm hba hab)
  · rintro rfl
    cases h : compareKeys a a with
    | lt => exact absurd (compareKeys_eq_lt_iff.mp h) (List.lt_irrefl _)
    | gt => exact absurd (compareKeys_eq_gt_iff.mp h) (List.lt_irrefl _)
    | eq => rfl

/-- Values in the order of their keys; equal values are all kept. -/
def sortByKey {α : Type} [Keyed α] (xs : List α) : List α :=
  xs.mergeSort fun a b => compareKeys a b != .gt

/-- A finite set: its members in strictly increasing order. -/
structure OrderedSet (α : Type) [Keyed α] where
  toList : List α
  sorted : toList.Pairwise fun a b => key a < key b
deriving DecidableEq

namespace OrderedSet
variable {α : Type} [Keyed α]

instance : Membership α (OrderedSet α) := ⟨fun s a => a ∈ s.toList⟩

theorem mem_toList {a : α} {s : OrderedSet α} : a ∈ s.toList ↔ a ∈ s := Iff.rfl

instance [DecidableEq α] (a : α) (s : OrderedSet α) : Decidable (a ∈ s) :=
  inferInstanceAs (Decidable (a ∈ s.toList))

def empty : OrderedSet α := ⟨[], .nil⟩

instance : EmptyCollection (OrderedSet α) := ⟨empty⟩

instance : Inhabited (OrderedSet α) := ⟨empty⟩

@[simp] theorem toList_empty : (∅ : OrderedSet α).toList = [] := rfl

@[simp] theorem not_mem_empty (a : α) : a ∉ (∅ : OrderedSet α) := List.not_mem_nil

def isEmpty (s : OrderedSet α) : Bool := s.toList.isEmpty

def size (s : OrderedSet α) : Nat := s.toList.length

/-- The members of `ys` that come before `a`, then `a`, then the others joined to what is left by
`rest`. -/
def mergeFrom (a : α) (rest : List α → List α) : List α → List α
  | [] => a :: rest []
  | b :: ys =>
      match compareKeys a b with
      | .lt => a :: rest (b :: ys)
      | .eq => a :: rest ys
      | .gt => b :: mergeFrom a rest ys

/-- Join two increasing lists, keeping one of two equal members. -/
def merge : List α → List α → List α
  | [], ys => ys
  | a :: xs, ys => mergeFrom a (merge xs) ys

theorem mem_mergeFrom {a x : α} {xs : List α} {rest : List α → List α}
    (h : ∀ ys, x ∈ rest ys ↔ x ∈ xs ∨ x ∈ ys) (ys : List α) :
    x ∈ mergeFrom a rest ys ↔ x ∈ a :: xs ∨ x ∈ ys := by
  induction ys with
  | nil => simp [mergeFrom, h]
  | cons b ys ih =>
    unfold mergeFrom
    split
    · simp only [List.mem_cons, h]
      grind
    · obtain rfl := compareKeys_eq_iff.mp ‹compareKeys a b = .eq›
      simp only [List.mem_cons, h]
      grind
    · simp only [List.mem_cons, ih]
      grind

theorem mem_merge {x : α} {xs ys : List α} : x ∈ merge xs ys ↔ x ∈ xs ∨ x ∈ ys := by
  induction xs generalizing ys with
  | nil => simp [merge]
  | cons a xs ih => exact mem_mergeFrom (fun _ => ih) ys

theorem mergeFrom_sorted {a : α} {xs : List α} {rest : List α → List α}
    (ha : ∀ x ∈ xs, key a < key x) (hmem : ∀ x ys, x ∈ rest ys ↔ x ∈ xs ∨ x ∈ ys)
    (hrest : ∀ ys : List α, (ys.Pairwise fun a b => key a < key b) →
      (rest ys).Pairwise fun a b => key a < key b)
    {ys : List α} (hys : ys.Pairwise fun a b => key a < key b) :
    (mergeFrom a rest ys).Pairwise fun a b => key a < key b := by
  induction ys with
  | nil =>
    refine List.pairwise_cons.mpr ⟨fun x hx => ?_, hrest [] .nil⟩
    simpa using ha x (((hmem x []).mp hx).resolve_right List.not_mem_nil)
  | cons b ys ih =>
    obtain ⟨hb, hys'⟩ := List.pairwise_cons.mp hys
    unfold mergeFrom
    split
    · have hab := compareKeys_eq_lt_iff.mp ‹compareKeys a b = .lt›
      refine List.pairwise_cons.mpr ⟨fun x hx => ?_, hrest _ hys⟩
      rcases (hmem x _).mp hx with hx | hx
      · exact ha x hx
      · rcases List.mem_cons.mp hx with rfl | hx
        · exact hab
        · exact List.lt_trans hab (hb x hx)
    · obtain rfl := compareKeys_eq_iff.mp ‹compareKeys a b = .eq›
      refine List.pairwise_cons.mpr ⟨fun x hx => ?_, hrest _ hys'⟩
      exact ((hmem x _).mp hx).elim (ha x) (hb x)
    · have hba := compareKeys_eq_gt_iff.mp ‹compareKeys a b = .gt›
      refine List.pairwise_cons.mpr ⟨fun x hx => ?_, ih hys'⟩
      rcases (mem_mergeFrom (hmem x) ys).mp hx with hx | hx
      · rcases List.mem_cons.mp hx with rfl | hx
        · exact hba
        · exact List.lt_trans hba (ha x hx)
      · exact hb x hx

theorem merge_sorted {xs ys : List α} (hx : xs.Pairwise fun a b => key a < key b)
    (hy : ys.Pairwise fun a b => key a < key b) :
    (merge xs ys).Pairwise fun a b => key a < key b := by
  induction xs generalizing ys with
  | nil => exact hy
  | cons a xs ih =>
    obtain ⟨ha, hxs⟩ := List.pairwise_cons.mp hx
    exact mergeFrom_sorted ha (fun _ _ => mem_merge) (fun _ h => ih hxs h) hy

def union (s t : OrderedSet α) : OrderedSet α :=
  ⟨merge s.toList t.toList, merge_sorted s.sorted t.sorted⟩

instance : Union (OrderedSet α) := ⟨union⟩

@[simp] theorem mem_union {x : α} {s t : OrderedSet α} : x ∈ s ∪ t ↔ x ∈ s ∨ x ∈ t := mem_merge

/-- The union of a list of sets. -/
def unions (sets : List (OrderedSet α)) : OrderedSet α := sets.foldr (· ∪ ·) ∅

@[simp] theorem mem_unions {x : α} {sets : List (OrderedSet α)} :
    x ∈ unions sets ↔ ∃ t ∈ sets, x ∈ t := by
  induction sets with
  | nil => simp [unions]
  | cons t rest ih =>
    have step : unions (t :: rest) = t ∪ unions rest := rfl
    rw [step, mem_union, ih]
    simp only [List.mem_cons, exists_eq_or_imp]

theorem mem_unions_map {β : Type} {x : α} {f : β → OrderedSet α} {bs : List β} :
    x ∈ unions (bs.map f) ↔ ∃ b ∈ bs, x ∈ f b := by
  rw [mem_unions]
  constructor
  · rintro ⟨t, ht, hx⟩
    obtain ⟨b, hb, rfl⟩ := List.mem_map.mp ht
    exact ⟨b, hb, hx⟩
  · rintro ⟨b, hb, hx⟩
    exact ⟨f b, List.mem_map_of_mem hb, hx⟩

/-- Two strictly increasing lists with the same members are the same list. -/
theorem eq_of_mem_iff {xs ys : List α} (hx : xs.Pairwise fun a b => key a < key b)
    (hy : ys.Pairwise fun a b => key a < key b) (h : ∀ a, a ∈ xs ↔ a ∈ ys) : xs = ys := by
  induction xs generalizing ys with
  | nil =>
    cases ys with
    | nil => rfl
    | cons b _ => exact absurd ((h b).mpr List.mem_cons_self) List.not_mem_nil
  | cons a xs ih =>
    cases ys with
    | nil => exact absurd ((h a).mp List.mem_cons_self) List.not_mem_nil
    | cons b ys =>
      obtain ⟨ha, hxs⟩ := List.pairwise_cons.mp hx
      obtain ⟨hb, hys⟩ := List.pairwise_cons.mp hy
      have hab : a = b := by
        rcases List.mem_cons.mp ((h a).mp List.mem_cons_self) with rfl | hay
        · rfl
        · rcases List.mem_cons.mp ((h b).mpr List.mem_cons_self) with rfl | hbx
          · rfl
          · exact absurd (ha b hbx) (List.lt_asymm (hb a hay))
      subst hab
      congr 1
      refine ih hxs hys fun x => ?_
      constructor
      · intro hx'
        rcases List.mem_cons.mp ((h x).mp (List.mem_cons_of_mem _ hx')) with rfl | hm
        · exact absurd (ha x hx') (List.lt_irrefl _)
        · exact hm
      · intro hy'
        rcases List.mem_cons.mp ((h x).mpr (List.mem_cons_of_mem _ hy')) with rfl | hm
        · exact absurd (hb x hy') (List.lt_irrefl _)
        · exact hm

@[ext] theorem ext {s t : OrderedSet α} (h : ∀ a, a ∈ s ↔ a ∈ t) : s = t := by
  obtain ⟨xs, hx⟩ := s
  obtain ⟨ys, hy⟩ := t
  have : xs = ys := eq_of_mem_iff hx hy h
  subst this
  rfl

theorem unions_map_eq_empty {β : Type} {f : β → OrderedSet α} {bs : List β}
    (h : ∀ b ∈ bs, f b = ∅) : unions (bs.map f) = ∅ := by
  refine ext fun a => ?_
  simp only [mem_unions_map, not_mem_empty, iff_false, not_exists, not_and]
  intro b hb
  rw [h b hb]
  exact not_mem_empty a

theorem isEmpty_iff {s : OrderedSet α} : s.isEmpty ↔ s = ∅ := by
  obtain ⟨xs, hx⟩ := s
  cases xs with
  | nil => simp [isEmpty, EmptyCollection.emptyCollection, empty]
  | cons a rest => simp [isEmpty, EmptyCollection.emptyCollection, empty]

def singleton (a : α) : OrderedSet α := ⟨[a], List.pairwise_singleton _ a⟩

@[simp] theorem mem_singleton {a x : α} : x ∈ singleton a ↔ x = a := List.mem_singleton

def insert (a : α) (s : OrderedSet α) : OrderedSet α := singleton a ∪ s

@[simp] theorem mem_insert {a x : α} {s : OrderedSet α} : x ∈ s.insert a ↔ x = a ∨ x ∈ s := by
  simp [insert]

def ofList (xs : List α) : OrderedSet α := xs.foldr insert ∅

@[simp] theorem mem_ofList {x : α} {xs : List α} : x ∈ ofList xs ↔ x ∈ xs := by
  induction xs with
  | nil => simp [ofList]
  | cons a rest ih =>
    have step : ofList (a :: rest) = (ofList rest).insert a := rfl
    rw [step, mem_insert, ih, List.mem_cons]

end OrderedSet
end ParseForest
