import Mathlib.Data.List.Infix
import Mathlib.Data.List.Pairwise
import Std.Data.HashSet.Lemmas
import ParseForest.Proofs.Equality

/-!
# The alternatives that are kept

An ambiguity keeps those of its alternatives that equal none before them. Each
alternative equals exactly one that is kept, and this one is not behind it. A
filter that goes through the alternatives and enters each into a hash set keeps
the same ones, because equal terms have the same hash.
-/
namespace ParseForest

section FirstOfEach
variable {α : Type} [BEq α]

/-- Those members of a list that equal no earlier member. -/
def firstOfEach (xs : List α) : List α :=
  (xs.zipIdx.filter fun p => (xs.take p.2).all fun y => !p.1 == y).map Prod.fst

theorem firstOfEach_concat (xs : List α) (x : α) :
    firstOfEach (xs ++ [x]) = firstOfEach xs ++ if xs.any (x == ·) then [] else [x] := by
  have hbefore : (xs.zipIdx.filter fun p => ((xs ++ [x]).take p.2).all fun y => !p.1 == y) =
      xs.zipIdx.filter fun p => (xs.take p.2).all fun y => !p.1 == y := by
    refine List.filter_congr fun p hp => ?_
    have hlt : p.2 < xs.length := by simpa using (List.mem_zipIdx hp).2.1
    rw [List.take_append_of_le_length (Nat.le_of_lt hlt)]
  have hlast : ((xs ++ [x]).take xs.length).all (fun y => !x == y) = !xs.any (x == ·) := by
    rw [List.take_left, List.not_any_eq_all_not]
  unfold firstOfEach
  rw [List.zipIdx_append, List.filter_append, List.map_append, hbefore, Nat.zero_add,
    List.zipIdx_singleton, List.filter_singleton, hlast]
  cases xs.any (x == ·) <;> rfl

variable [EquivBEq α]

theorem eraseDups_snoc (xs : List α) (x : α) :
    (xs ++ [x]).eraseDups = xs.eraseDups ++ if xs.any (x == ·) then [] else [x] := by
  induction xs using eraseDups_induction with
  | nil => rfl
  | cons y xs ih =>
    rw [List.cons_append, List.eraseDups_cons, List.eraseDups_cons, List.filter_append,
      List.any_cons, List.filter_singleton, List.cons_append]
    by_cases hxy : x == y
    · simp [hxy]
    · have hany : ((xs.filter fun z => !z == y).any fun z => x == z) = xs.any fun z => x == z := by
        rw [Bool.eq_iff_iff, List.any_eq_true, List.any_eq_true]
        constructor
        · rintro ⟨z, hz, hxz⟩
          exact ⟨z, List.mem_of_mem_filter hz, hxz⟩
        · rintro ⟨z, hz, hxz⟩
          refine ⟨z, List.mem_filter.mpr ⟨hz, ?_⟩, hxz⟩
          simpa using fun hzy => hxy (BEq.trans hxz hzy)
      simp only [hxy, Bool.false_or, Bool.not_false, Bool.cond_true]
      rw [ih, hany]

theorem eraseDups_eq_firstOfEach (xs : List α) : xs.eraseDups = firstOfEach xs := by
  induction xs using List.reverseRecOn with
  | nil => rfl
  | append_singleton xs x ih => rw [eraseDups_snoc, firstOfEach_concat, ih]

/-- What is kept of the front of a list is kept of the whole list. -/
theorem eraseDups_prefix (xs ys : List α) : xs.eraseDups <+: (xs ++ ys).eraseDups := by
  induction ys using List.reverseRecOn with
  | nil => rw [List.append_nil]
  | append_singleton ys y ih =>
    rw [← List.append_assoc, eraseDups_snoc]
    exact ih.trans (List.prefix_append _ _)

/-- What is kept is equal only if it is the same. -/
theorem eq_of_mem_eraseDups {xs : List α} {x y : α} (hx : x ∈ xs.eraseDups)
    (hy : y ∈ xs.eraseDups) (h : x == y) : x = y := by
  have hdistinct : xs.eraseDups.Pairwise fun x y => x == y → x = y :=
    (pairwise_eraseDups xs).imp fun hne he => absurd (BEq.symm he) hne
  have hsymm : Std.Symm fun x y : α => x == y → x = y :=
    ⟨fun _ _ hxy hyx => (hxy (BEq.symm hyx)).symm⟩
  exact List.Pairwise.forall_of_forall (fun _ _ _ => rfl) hdistinct hx hy h

/-- Each member of a list equals exactly one that is kept, which does not come after it. -/
theorem exists_unique_mem_eraseDups (before after : List α) (x : α) :
    ∃ y ∈ before ++ [x], y ∈ (before ++ x :: after).eraseDups ∧ x == y ∧
      ∀ z ∈ (before ++ x :: after).eraseDups, x == z → z = y := by
  have hfront : (before ++ [x]).eraseDups <+: (before ++ x :: after).eraseDups := by
    simpa using eraseDups_prefix (before ++ [x]) after
  have hx : x ∈ before ++ [x] := List.mem_append_right before List.mem_cons_self
  obtain ⟨y, hy, hxy⟩ := exists_mem_eraseDups hx
  refine ⟨y, mem_of_mem_eraseDups hy, hfront.subset hy, hxy, fun z hz hxz => ?_⟩
  exact eq_of_mem_eraseDups hz (hfront.subset hy) (BEq.trans (BEq.symm hxz) hxy)

/-- Filter a list through a hash set of what has been seen. -/
def keepUnseen [Hashable α] (seen : Std.HashSet α) : List α → List α
  | [] => []
  | x :: xs =>
    match seen.containsThenInsert x with
    | (true, seen) => keepUnseen seen xs
    | (false, seen) => x :: keepUnseen seen xs

theorem keepUnseen_eq [Hashable α] [LawfulHashable α] (seen : Std.HashSet α) (xs : List α) :
    keepUnseen seen xs = (xs.filter fun x => !seen.contains x).eraseDups := by
  induction xs generalizing seen with
  | nil => rfl
  | cons x xs ih =>
    have hcall : seen.containsThenInsert x = (seen.contains x, seen.insert x) :=
      Prod.ext Std.HashSet.containsThenInsert_fst Std.HashSet.containsThenInsert_snd
    have hrest : (xs.filter fun y => !(seen.insert x).contains y) =
        (xs.filter fun y => !seen.contains y).filter fun y => !y == x := by
      rw [List.filter_filter]
      refine List.filter_congr fun y _ => ?_
      rw [Std.HashSet.contains_insert, Bool.not_or, BEq.comm]
    rw [keepUnseen, hcall, List.filter_cons]
    cases hx : seen.contains x with
    | false =>
      simp only [Bool.not_false, if_true]
      rw [List.eraseDups_cons, ih, hrest]
    | true =>
      -- What equals a member that was seen was seen as well.
      have hsame : ∀ y ∈ xs.filter (fun y => !seen.contains y), (!y == x) = true := by
        intro y hy
        by_contra hyx
        have hseen : seen.contains y = seen.contains x :=
          Std.HashSet.contains_congr (by simpa using hyx)
        have hunseen := (List.mem_filter.mp hy).2
        simp [hseen, hx] at hunseen
      simp only [Bool.not_true, Bool.false_eq_true, if_false]
      rw [ih, hrest, List.filter_eq_self.mpr hsame]

/-- The members that a hash set finds to be new, if members have the given hashes. -/
def distinctBy (hash : α → UInt64) (xs : List α) : List α :=
  letI : Hashable α := ⟨hash⟩
  keepUnseen ∅ xs

theorem distinctBy_eq {hash : α → UInt64} (h : ∀ x y : α, x == y → hash x = hash y)
    (xs : List α) : distinctBy hash xs = xs.eraseDups := by
  let hashable : Hashable α := ⟨hash⟩
  have hlawful : LawfulHashable α := ⟨h⟩
  have hempty : (xs.filter fun x => !(∅ : Std.HashSet α).contains x) = xs := by simp
  exact (keepUnseen_eq ∅ xs).trans (by rw [hempty])

end FirstOfEach

namespace Ledger
variable {l : Ledger} {t u : Term}

/-- Ambiguities are equal if each alternative of one equals an alternative of the other. -/
theorem beq_of_stores_ambiguity {ts us : List Term} {s r : Span} (hts : ∀ x ∈ ts, x ∈ l)
    (hus : ∀ y ∈ us, y ∈ l) (ht : l.Stores (.ambiguity () (ts.map Forest.tree).eraseDups s) t)
    (hu : l.Stores (.ambiguity () (us.map Forest.tree).eraseDups r) u)
    (htu : ∀ x ∈ ts, ∃ y ∈ us, x == y) (hut : ∀ y ∈ us, ∃ x ∈ ts, y == x) : t == u := by
  have wellFormed {xs : List Term} (hxs : ∀ x ∈ xs, x ∈ l) :
      ∀ r ∈ xs.map Forest.tree, r.WellFormed :=
    List.forall_mem_map.mpr fun x hx => Forest.wellFormed_tree.mpr (wellFormed_of_mem (hxs x hx))
  have included {xs ys : List Term} (hxs : ∀ x ∈ xs, x ∈ l) (hys : ∀ y ∈ ys, y ∈ l)
      (h : ∀ x ∈ xs, ∃ y ∈ ys, x == y) :
      ∀ r ∈ xs.map Forest.tree, ∃ r' ∈ ys.map Forest.tree, r.agrees r' := by
    refine List.forall_mem_map.mpr fun x hx => ?_
    obtain ⟨y, hy, hxy⟩ := h x hx
    rw [beq_eq_agrees (hxs x hx) (hys y hy), ← Forest.agrees_tree] at hxy
    exact ⟨y.tree, List.mem_map_of_mem hy, hxy⟩
  rw [beq_eq_agrees ht.mem hu.mem, ← Forest.agrees_tree, ht.tree_eq, hu.tree_eq]
  exact Forest.agrees_ambiguity_eraseDups (wellFormed hts) (wellFormed hus)
    (included hts hus htu) (included hus hts hut)

end Ledger

namespace Workshop
variable {w : Workshop}

open Ledger in
/-- An ambiguity keeps just the alternatives that equal none before them, as they are and in their
order, and these are what a filter through a hash set keeps. No two of them are equal, and every
alternative that is given equals exactly one of them, which does not come after it. Once more they
are all kept. If each alternative of one list equals one of the other, the ambiguities are equal. -/
theorem ambiguity_keeps_first (h : w.Reachable) (items : List w.Held) {span : Span}
    (hspan : span.context ∈ w.session.symbols) :
    ∃ t s, (Build.ambiguity (items.map (·.val)) span).run w.session = .ok (t, s) ∧
      t.items = (firstOfEach items).map (·.val) ∧
      (∀ (d : Digest) (finish : List UInt64 → UInt64),
        t.items = (distinctBy (fun u => finish (d.feed u.val)) items).map (·.val)) ∧
      (t.items.Pairwise fun x y => ¬x == y) ∧
      (∀ before x after, items = before ++ x :: after →
        ∃ y ∈ before ++ [x], y.val ∈ t.items ∧ x == y ∧ ∀ z ∈ t.items, x.val == z → z = y.val) ∧
      (∀ span' s', ∃ u s'', (Build.ambiguity t.items span').run s' = .ok (u, s'') ∧
        u.items = t.items) ∧
      ∀ (others : List w.Held) (span' : Span), span'.context ∈ w.session.symbols →
        (∀ x ∈ items, ∃ y ∈ others, x == y) → (∀ y ∈ others, ∃ x ∈ items, y == x) →
        ∃ u s', (Build.ambiguity (others.map (·.val)) span').run s = .ok (u, s') ∧
          t == u ∧ u == t := by
  obtain ⟨l, hl⟩ := exists_accounts h
  have hequivalence : EquivBEq w.Held := hl.equivBEq
  have members (xs : List w.Held) {k : Ledger} (hlk : l ≤ k) : ∀ t ∈ xs.map (·.val), t ∈ k :=
    List.forall_mem_map.mpr fun x _ => mem_of_le hlk (hl.mem x.property)
  rw [hl.session_eq] at hspan ⊢
  obtain ⟨t, k, hrun, hlk, ht⟩ := (yields_ambiguity (members items (le_refl l)) hspan).run
  have hitems : t.items = items.eraseDups.map (·.val) := by
    obtain ⟨rfl, -⟩ := Prod.mk.inj (Except.ok.inj ((Build.ambiguity_run _ span _).symm.trans hrun))
    exact eraseDups_map fun _ _ _ _ => rfl
  refine ⟨t, k.session, hrun, ?_, fun d finish => ?_, ?_, ?_, fun span' s' => ?_, ?_⟩
  · rw [hitems, eraseDups_eq_firstOfEach]
  · rw [hitems, distinctBy_eq]
    intro x y hxy
    rw [feed_eq_of_beq (hl.mem x.property) (hl.mem y.property) hxy]
  · rw [hitems, List.pairwise_map]
    exact (pairwise_eraseDups items).imp fun hne hxy => hne (BEq.symm hxy)
  · rintro before x after rfl
    obtain ⟨y, hy, hkept, hxy, hunique⟩ := exists_unique_mem_eraseDups before after x
    rw [hitems]
    refine ⟨y, hy, List.mem_map_of_mem hkept, hxy, List.forall_mem_map.mpr fun z hz hxz => ?_⟩
    rw [hunique z hz hxz]
  · refine ⟨_, _, Build.ambiguity_run t.items span' s', ?_⟩
    have hdistinct : t.items.Pairwise fun x y => ¬y == x := by
      rw [hitems, List.pairwise_map]
      exact pairwise_eraseDups items
    exact eraseDups_eq_self hdistinct
  · intro others span' hspan' hthere hback
    obtain ⟨u, m, hrun', hkm, hu⟩ :=
      (yields_ambiguity (members others hlk) (SymbolTable.mem_of_le (symbols_le hlk) hspan')).run
    have hlm : l ≤ m := le_trans hlk hkm
    have included {xs ys : List w.Held} (h : ∀ x ∈ xs, ∃ y ∈ ys, x == y) :
        ∀ x ∈ xs.map (·.val), ∃ y ∈ ys.map (·.val), x == y := by
      refine List.forall_mem_map.mpr fun x hx => ?_
      obtain ⟨y, hy, hxy⟩ := h x hx
      exact ⟨y.val, List.mem_map_of_mem hy, hxy⟩
    exact ⟨u, m.session, hrun',
      beq_of_stores_ambiguity (members items hlm) (members others hlm) (ht.of_le hkm) hu
        (included hthere) (included hback),
      beq_of_stores_ambiguity (members others hlm) (members items hlm) hu (ht.of_le hkm)
        (included hback) (included hthere)⟩

open Ledger in
theorem ambiguity_keeps_first_turned : ∃ (w : Workshop) (t u a : Term) (s : Session),
    w.Reachable ∧ w.Has t ∧ w.Has u ∧ t.tree = loneElement ∧ u.tree = turnedElement ∧
      (Build.ambiguity [t, u] .unknown).run w.session = .ok (a, s) ∧ a.items = [t] := by
  obtain ⟨w, t, u, hw, ht, hu, htree, htree', hagrees⟩ := exists_reachable_turned
  obtain ⟨l, hl⟩ := exists_accounts hw
  have hknown : Span.unknown.context ∈ w.session.symbols := by
    rw [hl.session_eq]
    exact SymbolTable.mem_of_le l.reserved (by decide)
  have hequal : u == t :=
    beq_symm (hl.mem ht) (hl.mem hu) ((beq_eq_agrees (hl.mem ht) (hl.mem hu)).trans hagrees)
  obtain ⟨a, s, hrun, hitems, -⟩ := ambiguity_keeps_first hw [⟨t, ht⟩, ⟨u, hu⟩] hknown
  refine ⟨w, t, u, a, s, hw, ht, hu, htree, htree', hrun, ?_⟩
  rw [hitems]
  simp [firstOfEach, List.filter_cons, hequal]

end Workshop
end ParseForest
