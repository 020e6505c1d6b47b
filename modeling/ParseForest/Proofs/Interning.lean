import Mathlib.Data.List.Nodup
import ParseForest.Proofs.Ledger
import Std.Data.HashMap

/-!
# Interning

The strings of a table are distinct, and a string that is new to it is put at the
end. So calls on a new table number the distinct strings of the calls in the order
in which they first appear, and a number that has been given stays with its string.

A table can also be stored by the numbers themselves, in slots of which the first
is never used, with a hash map from each string to its number of 32 bits. As long
as there are numbers left it answers in the same way, whatever room was set aside
for it beforehand.
-/
namespace ParseForest

section FirstAppearances
variable {α : Type} [BEq α] [LawfulBEq α] {xs ys : List α} {x : α}

theorem nodup_eraseDups (xs : List α) : xs.eraseDups.Nodup :=
  (pairwise_eraseDups xs).imp fun h he => h (beq_iff_eq.mpr he.symm)

theorem eraseDups_of_nodup (h : xs.Nodup) : xs.eraseDups = xs :=
  eraseDups_eq_self (h.imp fun hne he => hne (eq_of_beq he).symm)

theorem eraseDups_concat (h : xs.Nodup) :
    (xs ++ [x]).eraseDups = if x ∈ xs then xs else xs ++ [x] := by
  rw [List.eraseDups_append, eraseDups_of_nodup h]
  by_cases hx : x ∈ xs <;> simp [List.removeAll, hx, List.eraseDups_cons]

/-- Repetitions may as well be dropped beforehand. -/
theorem eraseDups_append_left : (xs.eraseDups ++ ys).eraseDups = (xs ++ ys).eraseDups := by
  have hrest : ys.removeAll xs.eraseDups = ys.removeAll xs := by
    refine List.filter_congr fun y _ => ?_
    rw [List.elem_eq_contains, List.elem_eq_contains, Bool.eq_iff_iff]
    simp [List.mem_eraseDups]
  rw [List.eraseDups_append, List.eraseDups_append, hrest, eraseDups_of_nodup (nodup_eraseDups xs)]

end FirstAppearances

namespace SymbolTable
variable {t : SymbolTable} {s : Symbol} {x : String} {xs : List String}

/-- The table has the string. -/
def Has (t : SymbolTable) (name : String) : Prop := ∃ s, t.name? s = some name

theorem le_internMany (t : SymbolTable) (xs : List String) : t ≤ (t.internMany xs).2 := by
  induction xs generalizing t with
  | nil => exact le_refl t
  | cons x xs ih => exact le_trans (le_intern t x) (ih _)

theorem has_iff_mem_names : t.Has x ↔ x ∈ t.names.toList := by
  simp only [Has, name?, Array.mem_toList_iff, Array.mem_iff_getElem?]
  constructor
  · rintro ⟨s, hs⟩
    exact ⟨s.index, hs⟩
  · rintro ⟨i, hi⟩
    exact ⟨⟨i⟩, hi⟩

theorem contains_iff_has : t.contains x ↔ t.Has x := by
  rw [contains, Option.isSome_iff_exists]
  exact exists_congr fun s => find?_eq_some_iff

theorem name?_eq_getElem? (t : SymbolTable) (s : Symbol) :
    t.name? s = t.names.toList[s.index]? := Array.getElem?_toList.symm

/-- A string has one symbol only. -/
theorem eq_of_name?_eq {r : Symbol} (hs : t.name? s = some x) (hr : t.name? r = some x) :
    s = r := by
  have hfind := find?_eq_some_iff.mpr hs
  rw [find?_eq_some_iff.mpr hr] at hfind
  exact (Option.some.inj hfind).symm

theorem nodup_names (t : SymbolTable) : t.names.toList.Nodup := by
  rw [List.nodup_iff_getElem?_ne_getElem?]
  intro i j hij hj he
  have hname : t.name? ⟨j⟩ = some t.names.toList[j] := by
    rw [name?_eq_getElem?]
    exact List.getElem?_eq_getElem hj
  have hname' : t.name? ⟨i⟩ = some t.names.toList[j] := by
    rw [name?_eq_getElem?, he, ← name?_eq_getElem?, hname]
  have hindex : i = j := congrArg Symbol.index (eq_of_name?_eq hname' hname)
  omega

theorem index_eq_idxOf (h : t.name? s = some x) : s.index = t.names.toList.idxOf x := by
  rw [name?_eq_getElem?] at h
  obtain ⟨hlt, rfl⟩ := List.getElem?_eq_some_iff.mp h
  exact (t.nodup_names.idxOf_getElem s.index hlt).symm

/-- A string that is new goes to the end. -/
theorem intern_of_find?_eq_none (h : t.find? x = none) : (t.intern x).1 = ⟨t.size⟩ ∧
    (t.intern x).2.names.toList = t.names.toList ++ [x] := by
  unfold intern
  split
  · rename_i i hi
    simp [find?, hi] at h
  · exact ⟨rfl, Array.toList_push⟩

theorem names_intern : (t.intern x).2.names.toList = (t.names.toList ++ [x]).eraseDups := by
  rw [eraseDups_concat t.nodup_names]
  cases hx : t.find? x with
  | some s =>
    have hmem := has_iff_mem_names.mp ⟨s, find?_eq_some_iff.mp hx⟩
    rw [intern_of_find? hx, if_pos hmem]
  | none =>
    have hmem : x ∉ t.names.toList := fun hm => by
      obtain ⟨s, hs⟩ := has_iff_mem_names.mpr hm
      exact find?_eq_none_iff.mp hx s hs
    rw [(intern_of_find?_eq_none hx).2, if_neg hmem]

theorem has_intern {name : String} : (t.intern name).2.Has x ↔ t.Has x ∨ x = name := by
  rw [has_iff_mem_names, names_intern, List.mem_eraseDups, List.mem_append, List.mem_singleton,
    has_iff_mem_names]

theorem find?_intern_of_ne {y : String} (h : y ≠ x) : (t.intern x).2.find? y = t.find? y := by
  cases hy : t.find? y with
  | some s => exact find?_eq_some_iff.mpr (le_intern t x s y (find?_eq_some_iff.mp hy))
  | none =>
    refine find?_eq_none_iff.mpr fun s hs => ?_
    obtain ⟨r, hr⟩ := (has_intern.mp ⟨s, hs⟩).resolve_right h
    exact find?_eq_none_iff.mp hy r hr

theorem names_internMany : (t.internMany xs).2.names.toList = (t.names.toList ++ xs).eraseDups := by
  induction xs generalizing t with
  | nil => rw [List.append_nil, eraseDups_of_nodup t.nodup_names]; rfl
  | cons x xs ih =>
    change ((t.intern x).2.internMany xs).2.names.toList = _
    rw [ih, names_intern, eraseDups_append_left, List.append_assoc, List.singleton_append]

theorem has_internMany : (t.internMany xs).2.Has x ↔ t.Has x ∨ x ∈ xs := by
  rw [has_iff_mem_names, names_internMany, List.mem_eraseDups, List.mem_append, has_iff_mem_names]

theorem size_internMany : (t.internMany xs).2.size = (t.names.toList ++ xs).eraseDups.length := by
  rw [← names_internMany, Array.length_toList]
  rfl

theorem size_le_internMany (t : SymbolTable) (xs : List String) :
    t.size ≤ (t.internMany xs).2.size := by
  have hnames := congrArg List.length (eraseDups_of_nodup t.nodup_names)
  rw [size_internMany, List.eraseDups_append, List.length_append, hnames, Array.length_toList]
  exact Nat.le_add_right _ _

/-- Each call gives a symbol that stands for its string ever after. -/
theorem name?_internMany (t : SymbolTable) (xs : List String) :
    List.Forall₂ (fun s x => (t.internMany xs).2.name? s = some x) (t.internMany xs).1 xs := by
  induction xs generalizing t with
  | nil => exact .nil
  | cons x xs ih => exact .cons (le_internMany _ xs _ _ (name?_intern t x)) (ih _)

end SymbolTable

/-- A table as it can be stored. -/
structure StoredTable where
  /-- The string of each number. There is no number zero, so the first string stands for nothing. -/
  slots : Array String
  numbers : Std.HashMap String UInt32

namespace StoredTable

/-- A new table with room for so many strings. -/
def withCapacity (capacity : Nat) : StoredTable :=
  ⟨(Array.emptyWithCapacity capacity).push "", .emptyWithCapacity capacity⟩

/-- The number of the next string, unless the numbers are used up. -/
def next? (t : StoredTable) : Option UInt32 :=
  if t.slots.size ≠ 0 ∧ t.slots.size < UInt32.size then some (.ofNat t.slots.size) else none

def add (t : StoredTable) (name : String) (n : UInt32) : StoredTable :=
  ⟨t.slots.push name, t.numbers.insert name n⟩

/-- The number of a string, which is added to the table if it is not there yet and if there is a
number left. -/
def intern? (t : StoredTable) (name : String) : Option (UInt32 × StoredTable) :=
  match t.numbers[name]? with
  | some n => some (n, t)
  | none => t.next?.map fun n => (n, t.add name n)

/-- All of `names` interned in order. -/
def internMany? (t : StoredTable) : List String → Option (List UInt32 × StoredTable)
  | [] => some ([], t)
  | name :: rest => do
      let (n, t) ← t.intern? name
      let (ns, t) ← t.internMany? rest
      return (n :: ns, t)

def size (t : StoredTable) : Nat := t.numbers.size

def contains (t : StoredTable) (name : String) : Bool := t.numbers.contains name

/-- The string in the slot of a number. -/
def name? (t : StoredTable) (n : UInt32) : Option String := t.slots[n.toNat]?

/-- The slots hold the strings of the other table after one that is not used, and the numbers are
those of its symbols. -/
structure Mirrors (t : StoredTable) (u : SymbolTable) : Prop where
  slots_eq : t.slots.toList = "" :: u.names.toList
  numbers_eq : ∀ name, t.numbers[name]?.map UInt32.toNat = (u.find? name).map Symbol.number
  size_eq : t.size = u.size

variable {t : StoredTable} {u : SymbolTable} {x : String} {xs : List String}

theorem mirrors_withCapacity (capacity : Nat) : (withCapacity capacity).Mirrors .empty where
  slots_eq := rfl
  numbers_eq name := by simp [withCapacity, SymbolTable.find?, SymbolTable.empty]
  size_eq := Std.HashMap.size_emptyWithCapacity

theorem Mirrors.slots_size (h : t.Mirrors u) : t.slots.size = u.size + 1 := by
  rw [← Array.length_toList, h.slots_eq, List.length_cons, Array.length_toList]
  rfl

theorem Mirrors.contains_eq (h : t.Mirrors u) (name : String) :
    t.contains name = u.contains name := by
  have hsome := congrArg Option.isSome (h.numbers_eq name)
  rw [Option.isSome_map, Option.isSome_map] at hsome
  rw [contains, Std.HashMap.contains_eq_isSome_getElem?, hsome]
  rfl

theorem Mirrors.name?_eq (h : t.Mirrors u) {n : UInt32} {s : Symbol} (hn : n.toNat = s.number) :
    t.name? n = u.name? s := by
  rw [name?, hn, ← Array.getElem?_toList, h.slots_eq, Symbol.number, List.getElem?_cons_succ]
  exact (u.name?_eq_getElem? s).symm

/-- A number that is left is one more than there are strings. -/
theorem Mirrors.exists_next? (h : t.Mirrors u) (hroom : u.size + 1 < UInt32.size) :
    ∃ n, t.next? = some n ∧ n.toNat = u.size + 1 := by
  refine ⟨.ofNat (u.size + 1), ?_, UInt32.toNat_ofNat_of_lt' hroom⟩
  rw [next?, h.slots_size, if_pos ⟨Nat.succ_ne_zero _, hroom⟩]

theorem Mirrors.mem_numbers_iff (h : t.Mirrors u) : x ∈ t.numbers ↔ u.contains x := by
  rw [← h.contains_eq, contains, Std.HashMap.mem_iff_contains]

/-- A new string goes into the next slot. -/
theorem Mirrors.add {n : UInt32} (h : t.Mirrors u) (hx : u.find? x = none)
    (hn : n.toNat = u.size + 1) : (t.add x n).Mirrors (u.intern x).2 := by
  obtain ⟨hsymbol, hnames⟩ := SymbolTable.intern_of_find?_eq_none hx
  have hnew : ¬u.contains x := by simp [SymbolTable.contains, hx]
  refine ⟨?_, fun name => ?_, ?_⟩
  · rw [hnames, StoredTable.add, Array.toList_push, h.slots_eq, List.cons_append]
  · rw [StoredTable.add, Std.HashMap.getElem?_insert]
    by_cases hname : x = name
    · subst hname
      rw [if_pos BEq.rfl, SymbolTable.find?_intern, hsymbol, Option.map_some, hn]
      rfl
    · have hne : ¬(x == name) = true := fun he => hname (eq_of_beq he)
      rw [if_neg hne, h.numbers_eq, SymbolTable.find?_intern_of_ne (Ne.symm hname)]
  · rw [size, StoredTable.add, Std.HashMap.size_insert, if_neg (h.mem_numbers_iff.not.mpr hnew),
      SymbolTable.size_intern, if_neg hnew, ← h.size_eq]
    rfl

/-- One call: the tables stay alike, and the number is that of the symbol. -/
theorem Mirrors.exists_intern? (h : t.Mirrors u) (hroom : (u.intern x).2.size < UInt32.size) :
    ∃ n t', t.intern? x = some (n, t') ∧ n.toNat = (u.intern x).1.number ∧
      t'.Mirrors (u.intern x).2 := by
  have hx := h.numbers_eq x
  cases hfind : u.find? x with
  | some s =>
    rw [hfind, Option.map_some, Option.map_eq_some_iff] at hx
    obtain ⟨n, hn, hs⟩ := hx
    rw [SymbolTable.intern_of_find? hfind]
    exact ⟨n, t, by rw [intern?, hn], hs, h⟩
  | none =>
    rw [hfind, Option.map_none, Option.map_eq_none_iff] at hx
    have hnew : ¬u.contains x := by simp [SymbolTable.contains, hfind]
    rw [SymbolTable.size_intern, if_neg hnew] at hroom
    obtain ⟨n, hnext, hn⟩ := h.exists_next? hroom
    refine ⟨n, t.add x n, by rw [intern?, hx, hnext, Option.map_some], ?_, h.add hfind hn⟩
    rw [(SymbolTable.intern_of_find?_eq_none hfind).1, hn]
    rfl

theorem Mirrors.exists_internMany? (h : t.Mirrors u)
    (hroom : (u.internMany xs).2.size < UInt32.size) :
    ∃ ns t', t.internMany? xs = some (ns, t') ∧
      ns.map UInt32.toNat = (u.internMany xs).1.map Symbol.number ∧
      t'.Mirrors (u.internMany xs).2 := by
  induction xs generalizing t u with
  | nil => exact ⟨[], t, rfl, rfl, h⟩
  | cons x xs ih =>
    have hsize := SymbolTable.size_le_internMany (u.intern x).2 xs
    obtain ⟨n, t', ht, hn, h'⟩ := h.exists_intern? (x := x) (Nat.lt_of_le_of_lt hsize hroom)
    obtain ⟨ns, t'', ht', hns, h''⟩ := ih h' hroom
    refine ⟨n :: ns, t'', by simp [internMany?, ht, ht'], ?_, h''⟩
    rw [List.map_cons, hn, hns]
    rfl

end StoredTable

namespace SymbolTable

/-- Interning numbers strings. Calls on a new table, whatever they are, give the distinct strings
the numbers from one on in the order of their first appearance. Two calls give the same symbol just
if their strings are the same, and the symbol goes on to stand for the string whatever is called
later. Only numbers above the size stand for nothing, and the table contains just the strings of the
calls, each counted once. Calls on the table of the reserved strings leave them their symbols.
Stored by numbers of 32 bits, with whatever room set aside, a table answers in the same way while
there are numbers left. -/
theorem interning_bijective (calls later : List String) :
    let symbols := (empty.internMany calls).1
    let table := (empty.internMany calls).2
    symbols.map Symbol.number = calls.map (fun x => calls.eraseDups.idxOf x + 1) ∧
      (∀ p ∈ symbols.zip calls, ∀ q ∈ symbols.zip calls, p.1 = q.1 ↔ p.2 = q.2) ∧
      (∀ p ∈ symbols.zip calls, (table.internMany later).2.name? p.1 = some p.2) ∧
      (∀ s, table.name? s = none ↔ table.size < s.number) ∧
      (∀ x, table.contains x ↔ x ∈ calls) ∧
      table.size = calls.eraseDups.length ∧
      (∀ entry ∈ Symbol.reserved, (initial.internMany calls).2.name? entry.1 = some entry.2 ∧
        ((initial.internMany calls).2.intern entry.2).1 = entry.1) ∧
      ∀ capacity, calls.eraseDups.length < UInt32.size →
        ∃ numbers stored,
          (StoredTable.withCapacity capacity).internMany? calls = some (numbers, stored) ∧
          numbers.map UInt32.toNat = symbols.map Symbol.number ∧
          stored.size = table.size ∧ (∀ x, stored.contains x = table.contains x) ∧
          ∀ n s, n.toNat = s.number → stored.name? n = table.name? s := by
  intro symbols table
  have hnames : table.names.toList = calls.eraseDups := names_internMany
  have hsize : table.size = calls.eraseDups.length := size_internMany
  have hcalls : List.Forall₂ (fun s x => table.name? s = some x) symbols calls :=
    name?_internMany empty calls
  have named {p : Symbol × String} (hp : p ∈ symbols.zip calls) : table.name? p.1 = some p.2 :=
    List.forall₂_zip hcalls hp
  refine ⟨?_, fun p hp q hq => ⟨fun he => ?_, fun he => ?_⟩, fun p hp => ?_, fun s => ?_,
    fun x => ?_, hsize, fun entry hentry => ?_, fun capacity hroom => ?_⟩
  · rw [← List.forall₂_eq_eq_eq, List.forall₂_map_left_iff, List.forall₂_map_right_iff]
    refine hcalls.imp fun s x hs => ?_
    rw [Symbol.number, index_eq_idxOf hs, hnames]
  · exact Option.some.inj ((named hp).symm.trans (he ▸ named hq))
  · exact eq_of_name?_eq (named hp) (he ▸ named hq)
  · exact le_internMany table later _ _ (named hp)
  · rw [name?_eq_none_iff, Symbol.number]
    omega
  · rw [contains_iff_has, has_iff_mem_names, hnames, List.mem_eraseDups]
  · have hname := le_internMany initial calls _ _ (name?_initial entry hentry)
    exact ⟨hname, congrArg Prod.fst (intern_of_find? (find?_eq_some_iff.mpr hname))⟩
  · obtain ⟨numbers, stored, hrun, hnumbers, hmirrors⟩ :=
      (StoredTable.mirrors_withCapacity capacity).exists_internMany? (hsize ▸ hroom)
    exact ⟨numbers, stored, hrun, hnumbers, hmirrors.size_eq, hmirrors.contains_eq,
      fun n s hn => hmirrors.name?_eq hn⟩

/-- Repetitions, also of the empty string, and a table for which too little room was set aside. -/
theorem interning_bijective_repeated :
    (empty.internMany ["b", "", "b", "a", ""]).1.map Symbol.number = [1, 2, 1, 3, 2] ∧
      ∃ numbers stored, (StoredTable.withCapacity 1).internMany? ["b", "", "b", "a", ""] =
          some (numbers, stored) ∧ numbers.map UInt32.toNat = [1, 2, 1, 3, 2] ∧
        stored.name? 2 = some "" ∧ stored.name? 4 = none := by
  obtain ⟨hnumbers, -, hnamed, hnone, -, hsize, -, hstored⟩ :=
    interning_bijective ["b", "", "b", "a", ""] []
  obtain ⟨numbers, stored, hrun, hsame, -, -, hname⟩ := hstored 1 (by decide)
  refine ⟨hnumbers, numbers, stored, hrun, hsame.trans hnumbers, ?_, ?_⟩
  · rw [hname 2 ⟨1⟩ rfl]
    exact hnamed (⟨1⟩, "") (by decide)
  · rw [hname 4 ⟨3⟩ rfl]
    exact (hnone ⟨3⟩).mpr (hsize ▸ by decide)

end SymbolTable
end ParseForest
