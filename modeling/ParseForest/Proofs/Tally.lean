import Mathlib.Data.List.Nodup
import ParseForest.Proofs.ConstantHooks
import ParseForest.Proofs.Recording

/-!
# What a memo and a record have in common

While a transformer of constants works on a term, its memo holds outcomes for some of
the nodes that occur there. A node is entered when what occurs in it has been entered,
and the constants among the entries are those for which the hook was called, once each.
This is a tally, and each part of the work leads from one tally to the next. It is there
at the start, and at the end the memo knows the term itself and so all that occurs in it.
-/
namespace ParseForest

namespace Forest
variable {ι : Type} {t u : Forest ι}

theorem Occurs.size_le (h : u.Occurs t) : u.size ≤ t.size := by
  induction h with
  | refl => exact Nat.le_refl _
  | child hv _ ih => exact Nat.le_trans ih (Nat.le_of_lt (size_lt_of_mem_items hv))

/-- A node does not occur in its children. -/
theorem not_occurs_of_mem_items (h : u ∈ t.items) : ¬t.Occurs u := fun ht =>
  Nat.lt_irrefl _ (Nat.lt_of_le_of_lt ht.size_le (size_lt_of_mem_items h))

end Forest

namespace Memo
variable {memo later : Memo} {t u : Term} {o p : Outcome}

/-- The memo has an entry for the node, with the outcome. -/
def Knows (memo : Memo) (t : Term) (o : Outcome) : Prop := memo.entries[t.number]? = some (t, o)

theorem Knows.get?_eq (h : memo.Knows t o) : memo.get? t = some o :=
  Option.map_eq_some_iff.mpr ⟨_, h, rfl⟩

theorem Knows.unique (ho : memo.Knows t o) (hp : memo.Knows t p) : o = p :=
  (Prod.mk.inj (Option.some.inj (Eq.trans (Eq.symm ho) hp))).2

theorem not_knows_empty : ¬(∅ : Memo).Knows t o := by
  rw [Knows, entries_empty]
  exact fun h => by cases h

/-- Nothing is known of nodes with a number that has no entry. -/
theorem Knows.number_ne (h : memo.Knows u p) (hnew : memo.get? t = none) :
    u.number ≠ t.number := by
  intro he
  rw [get?, ← he, h] at hnew
  cases hnew

theorem knows_insert_self : (memo.insert t o).Knows t o := by
  rw [Knows, entries_insert, if_pos rfl]

theorem Knows.insert (h : memo.Knows u p) (hnew : memo.get? t = none) :
    (memo.insert t o).Knows u p := by
  rw [Knows, entries_insert, if_neg (h.number_ne hnew)]
  exact h

theorem knows_insert_iff (hnew : memo.get? t = none) :
    (memo.insert t o).Knows u p ↔ u = t ∧ p = o ∨ memo.Knows u p := by
  constructor
  · intro h
    rw [Knows, entries_insert] at h
    split at h
    · obtain ⟨rfl, rfl⟩ := Prod.mk.inj (Option.some.inj h)
      exact .inl ⟨rfl, rfl⟩
    · exact .inr h
  · rintro (⟨rfl, rfl⟩ | h)
    · exact knows_insert_self
    · exact h.insert hnew

/-- The later memo knows all that the memo knows, and of other nodes only such as are described. -/
structure Grows (described : Term → Prop) (memo later : Memo) : Prop where
  keeps : ∀ {t o}, memo.Knows t o → later.Knows t o
  fresh : ∀ {t o}, later.Knows t o → memo.Knows t o ∨ described t

theorem Grows.refl (described : Term → Prop) (memo : Memo) : Grows described memo memo :=
  ⟨id, .inl⟩

theorem Grows.trans {described described' described'' : Term → Prop} {last : Memo}
    (h : Grows described memo later) (h' : Grows described' later last)
    (hd : ∀ t, described t → described'' t) (hd' : ∀ t, described' t → described'' t) :
    Grows described'' memo last where
  keeps ho := h'.keeps (h.keeps ho)
  fresh ho := by
    rcases h'.fresh ho with ho | ht
    · exact (h.fresh ho).imp_right (hd _)
    · exact .inr (hd' _ ht)

theorem grows_insert {described : Term → Prop} (hnew : memo.get? t = none) (ht : described t) :
    Grows described memo (memo.insert t o) where
  keeps h := h.insert hnew
  fresh h := by
    rcases (knows_insert_iff hnew).mp h with ⟨rfl, -⟩ | h
    · exact .inr ht
    · exact .inl h

/-- The nodes that the memo has entries for. -/
def nodes (memo : Memo) : List Term := memo.entries.toList.map fun entry => entry.2.1

theorem mem_nodes :
    u ∈ memo.nodes ↔ ∃ (n : Nat) (p : Outcome), memo.entries[n]? = some (u, p) := by
  constructor
  · intro h
    obtain ⟨⟨n, v, p⟩, hm, rfl⟩ := List.mem_map.mp h
    exact ⟨n, p, Std.TreeMap.mem_toList_iff_getElem?_eq_some.mp hm⟩
  · rintro ⟨n, p, h⟩
    exact List.mem_map.mpr ⟨(n, u, p), Std.TreeMap.mem_toList_iff_getElem?_eq_some.mpr h, rfl⟩

theorem length_nodes (memo : Memo) : memo.nodes.length = memo.size := by
  rw [nodes, List.length_map, Std.TreeMap.length_toList, size]

end Memo

/-- Nodes that occur in the term have different numbers. -/
def Term.Numbered (t : Term) : Prop :=
  ∀ u v : Term, u.Occurs t → v.Occurs t → u.number = v.number → u = v

/-- What the memo and the record of a hook have to do with each other at each moment while a term is
transformed. -/
structure Tally (t : Term) (memo : Memo) (visits : List Visit) : Prop where
  /-- Each entry is for the node of its number, which occurs in the term. -/
  entered : ∀ {n : Nat} {entry : Term × Outcome}, memo.entries[n]? = some entry →
    entry.1.number = n ∧ entry.1.Occurs t
  /-- The children of an entered node were entered before it, and it became what they make. -/
  joined : ∀ {u : Term} {o : Outcome}, memo.Knows u o → ¬u.isConstant → ∃ os r r',
    List.Forall₂ memo.Knows u.items os ∧ (u.join os).run r = .ok (o, r')
  /-- The visits are the entries for constants. -/
  visited : ∀ {u o}, (u, o) ∈ visits ↔ u.isConstant ∧ memo.Knows u o
  nodup : (visits.map fun visit => visit.1.number).Nodup

namespace Tally
variable {t u : Term} {memo : Memo} {visits : List Visit} {o : Outcome}

theorem start (t : Term) : Tally t ∅ [] where
  entered h := by
    rw [Memo.entries_empty] at h
    cases h
  joined h := absurd h Memo.not_knows_empty
  visited := ⟨fun h => absurd h List.not_mem_nil, fun h => absurd h.2 Memo.not_knows_empty⟩
  nodup := .nil

/-- What the memo has for a number is for the node with this number. -/
theorem knows_of_get? (h : Tally t memo visits) (ht : t.Numbered) (hu : u.Occurs t)
    (hget : memo.get? u = some o) : memo.Knows u o := by
  obtain ⟨⟨v, p⟩, hentry, rfl⟩ := Option.map_eq_some_iff.mp hget
  obtain ⟨hn, hv⟩ := h.entered hentry
  rw [ht v u hv hu hn] at hentry
  exact hentry

theorem entered_insert (h : Tally t memo visits) (hu : u.Occurs t) {n : Nat}
    {entry : Term × Outcome} (hentry : (memo.insert u o).entries[n]? = some entry) :
    entry.1.number = n ∧ entry.1.Occurs t := by
  rw [Memo.entries_insert] at hentry
  split at hentry
  · rename_i hn
    obtain rfl := Option.some.inj hentry
    exact ⟨hn.symm, hu⟩
  · exact h.entered hentry

theorem joined_insert (h : Tally t memo visits) (hnew : memo.get? u = none)
    {v : Term} {p : Outcome} (hv : memo.Knows v p) (hc : ¬v.isConstant) : ∃ os r r',
      List.Forall₂ (memo.insert u o).Knows v.items os ∧ (v.join os).run r = .ok (p, r') := by
  obtain ⟨os, r, r', hos, hrun⟩ := h.joined hv hc
  exact ⟨os, r, r', hos.imp fun _ _ hk => hk.insert hnew, hrun⟩

/-- A constant is visited and entered. -/
theorem insert_constant (h : Tally t memo visits) (hu : u.Occurs t) (hc : u.isConstant)
    (hnew : memo.get? u = none) : Tally t (memo.insert u o) (visits ++ [(u, o)]) where
  entered := h.entered_insert hu
  joined {v p} hv hv' := by
    rcases (Memo.knows_insert_iff hnew).mp hv with ⟨rfl, -⟩ | hv
    · exact absurd hc hv'
    · exact h.joined_insert hnew hv hv'
  visited {v p} := by
    rw [List.mem_append, List.mem_singleton, Memo.knows_insert_iff hnew, h.visited, Prod.mk.injEq]
    constructor
    · rintro (⟨hv, hk⟩ | ⟨rfl, rfl⟩)
      · exact ⟨hv, .inr hk⟩
      · exact ⟨hc, .inl ⟨rfl, rfl⟩⟩
    · rintro ⟨hv, hsame | hk⟩
      · exact .inr hsame
      · exact .inl ⟨hv, hk⟩
  nodup := by
    rw [List.map_append, List.map_singleton, List.nodup_append]
    refine ⟨h.nodup, List.nodup_singleton _, fun n hn m hm => ?_⟩
    obtain ⟨visit, hvisit, rfl⟩ := List.mem_map.mp hn
    rw [List.mem_singleton.mp hm]
    exact (h.visited.mp hvisit).2.number_ne hnew

/-- A node that was walked is entered. -/
theorem insert_walked (h : Tally t memo visits) (hu : u.Occurs t) (hc : ¬u.isConstant)
    (hnew : memo.get? u = none) {os : List Outcome} {r r' : Session}
    (hos : List.Forall₂ memo.Knows u.items os) (hrun : (u.join os).run r = .ok (o, r')) :
    Tally t (memo.insert u o) visits where
  entered := h.entered_insert hu
  joined {v p} hv hv' := by
    rcases (Memo.knows_insert_iff hnew).mp hv with ⟨rfl, rfl⟩ | hv
    · exact ⟨os, r, r', hos.imp fun _ _ hk => hk.insert hnew, hrun⟩
    · exact h.joined_insert hnew hv hv'
  visited {v p} := by
    rw [h.visited, Memo.knows_insert_iff hnew]
    constructor
    · rintro ⟨hv, hk⟩
      exact ⟨hv, .inr hk⟩
    · rintro ⟨hv, ⟨rfl, -⟩ | hk⟩
      · exact absurd hv hc
      · exact ⟨hv, hk⟩
  nodup := h.nodup

/-- The memo knows whatever occurs in a node that it knows. -/
theorem knows_of_occurs {v : Term} (h : Tally t memo visits) (hu : memo.Knows u o)
    (hv : v.Occurs u) : ∃ p, memo.Knows v p := by
  induction hv generalizing o with
  | refl => exact ⟨o, hu⟩
  | @child u w hw _ ih =>
    have hc : ¬u.isConstant := fun hc =>
      List.not_mem_nil (Forest.items_eq_nil_of_isConstant hc ▸ hw)
    obtain ⟨os, r, r', hos, -⟩ := h.joined hu hc
    obtain ⟨p, -, hp⟩ := forall₂_exists_right hos hw
    exact ih hp

end Tally

namespace Transformer
variable {σ : Type} {hook : Term → Pass σ Outcome} {t u : Term}
  {self : Term → Pass (List Visit × σ) Outcome} {s s' : PassState (List Visit × σ)} {memo : Memo}
  {o : Outcome}

/-- A term that the memo does not know can only be transformed by the step. -/
theorem exists_step_of_transformWithin {σ : Type} {f : Transformer σ} {depth : Nat}
    {s s' : PassState σ} (hget : (s.memo.bind fun m => m.get? t) = none)
    (h : (f.transformWithin (depth + 1) t).run s = .ok (o, s')) :
    ∃ r, (f.step (f.transformWithin depth) t).run s = .ok (o, r) ∧
      s' = { r with memo := r.memo.map fun m => m.insert t o } := by
  rw [transformWithin_of_none hget] at h
  obtain ⟨r, hstep, hr⟩ := map_eq_ok_iff.mp h
  obtain ⟨rfl, rfl⟩ := Prod.mk.inj hr
  exact ⟨r.2, hstep, rfl⟩

/-- When the hook is given a constant it does not touch the memo. -/
def KeepsMemo (hook : Term → Pass σ Outcome) : Prop :=
  ∀ {t : Term} {s s' : PassState σ} {o : Outcome}, t.isConstant →
    (hook t).run s = .ok (o, s') → s'.memo = s.memo

/-- From a tally the action leads to a tally in which the memo knows the node, and otherwise only
such nodes in addition as occur in it. -/
def Tallies (t u : Term) (action : Pass (List Visit × σ) Outcome) : Prop :=
  ∀ {s s' : PassState (List Visit × σ)} {memo : Memo} {o : Outcome}, s.memo = some memo →
    Tally t memo s.own.1 → action.run s = .ok (o, s') →
    ∃ later, s'.memo = some later ∧ Tally t later s'.own.1 ∧
      Memo.Grows (fun v => v.Occurs u) memo later ∧ later.Knows u o

theorem tally_of_mapM {us : List Term} {os : List Outcome}
    (h : ∀ u ∈ us, Tallies t u (self u)) (hm : s.memo = some memo) (ht : Tally t memo s.own.1)
    (hrun : (us.mapM self).run s = .ok (os, s')) :
    ∃ later, s'.memo = some later ∧ Tally t later s'.own.1 ∧
      Memo.Grows (fun v => ∃ u ∈ us, v.Occurs u) memo later ∧
      List.Forall₂ later.Knows us os := by
  induction us generalizing s memo os with
  | nil =>
    cases hrun
    exact ⟨memo, hm, ht, .refl _ memo, .nil⟩
  | cons u us ih =>
    obtain ⟨o, r, rest, hu, hus, rfl⟩ := exists_of_mapM_cons hrun
    obtain ⟨hhead, htail⟩ := List.forall_mem_cons.mp h
    obtain ⟨next, hnext, htally, hgrows, hk⟩ := hhead hm ht hu
    obtain ⟨later, hlater, htally', hgrows', hks⟩ := ih htail hnext htally hus
    refine ⟨later, hlater, htally', hgrows.trans hgrows' (fun v hv => ?_) fun v hv => ?_,
      .cons (hgrows'.keeps hk) hks⟩
    · exact ⟨u, List.mem_cons_self, hv⟩
    · obtain ⟨w, hw, hvw⟩ := hv
      exact ⟨w, List.mem_cons_of_mem u hw, hvw⟩

/-- When a node has been walked the memo does not know it yet, because it does not occur in its
children. -/
theorem tally_of_walk (hn : t.Numbered) (hu : u.Occurs t) (hc : ¬u.isConstant)
    (h : ∀ v ∈ u.items, Tallies t v (self v)) (hm : s.memo = some memo)
    (ht : Tally t memo s.own.1) (hnew : memo.get? u = none)
    (hrun : (walk self u).run s = .ok (o, s')) :
    ∃ later, s'.memo = some later ∧ Tally t (later.insert u o) s'.own.1 ∧
      Memo.Grows (fun v => v.Occurs u) memo (later.insert u o) := by
  obtain ⟨os, r, hchildren, hbuild⟩ := run_bind_eq_ok_iff.mp hrun
  obtain ⟨later, hlater, htally, hgrows, hos⟩ := tally_of_mapM h hm ht hchildren
  obtain ⟨session, hjoin, rfl⟩ := Pass.of_build_run hbuild
  have hstill : later.get? u = none := by
    cases hget : later.get? u with
    | none => rfl
    | some p =>
      rcases hgrows.fresh (htally.knows_of_get? hn hu hget) with hk | ⟨v, hv, huv⟩
      · cases hnew.symm.trans hk.get?_eq
      · exact absurd huv (Forest.not_occurs_of_mem_items hv)
  refine ⟨later, hlater, htally.insert_walked hu hc hstill hos hjoin, ?_⟩
  refine hgrows.trans (Memo.grows_insert hstill rfl) (fun v hv => ?_) fun v hv => ?_
  · obtain ⟨w, hw, hvw⟩ := hv
    exact .child hw hvw
  · exact hv ▸ .refl

theorem tally_of_step (hn : t.Numbered) (hu : u.Occurs t)
    (hhook : KeepsMemo hook) (h : ∀ v ∈ u.items, Tallies t v (self v)) (hm : s.memo = some memo)
    (ht : Tally t memo s.own.1) (hnew : memo.get? u = none)
    (hrun : ((onConstants (recorded hook)).step self u).run s = .ok (o, s')) :
    ∃ later, s'.memo = some later ∧ Tally t (later.insert u o) s'.own.1 ∧
      Memo.Grows (fun v => v.Occurs u) memo (later.insert u o) := by
  cases u with
  | constant m v p r =>
    obtain ⟨hvisits, hcall⟩ := of_recorded_run hrun
    have hmemo : s'.memo = s.memo := hhook rfl hcall
    refine ⟨memo, hmemo.trans hm, ?_, Memo.grows_insert hnew .refl⟩
    rw [hvisits]
    exact ht.insert_constant hu rfl hnew
  | application | ambiguity | grouping =>
    exact tally_of_walk hn hu Bool.false_ne_true h hm ht hnew hrun

theorem tallies_transformWithin (hn : t.Numbered) (hhook : KeepsMemo hook) (depth : Nat)
    (hu : u.Occurs t) :
    Tallies t u ((onConstants (recorded hook)).transformWithin depth u) := by
  induction depth generalizing u with
  | zero =>
    intro s s' memo o _ _ hrun
    cases hrun
  | succ depth ih =>
    intro s s' memo o hm ht hrun
    have hanswer : (s.memo.bind fun m => m.get? u) = memo.get? u := by rw [hm, Option.bind_some]
    cases hget : memo.get? u with
    | some p =>
      cases (transformWithin_of_some (hanswer.trans hget)).symm.trans hrun
      exact ⟨memo, hm, ht, .refl _ memo, ht.knows_of_get? hn hu hget⟩
    | none =>
      obtain ⟨r, hstep, rfl⟩ := exists_step_of_transformWithin (hanswer.trans hget) hrun
      have hchildren : ∀ v ∈ u.items,
          Tallies t v ((onConstants (recorded hook)).transformWithin depth v) :=
        fun v hv => ih (Forest.Occurs.trans (.child hv .refl) hu)
      obtain ⟨later, hlater, htally, hgrows⟩ :=
        tally_of_step hn hu hhook hchildren hm ht hget hstep
      exact ⟨later.insert u o, by rw [hlater, Option.map_some], htally, hgrows,
        Memo.knows_insert_self⟩

end Transformer

namespace Tally
variable {t u : Term} {memo : Memo} {visits : List Visit} {o : Outcome}

theorem mem_nodes_iff (h : Tally t memo visits) : u ∈ memo.nodes ↔ ∃ p, memo.Knows u p := by
  rw [Memo.mem_nodes]
  constructor
  · rintro ⟨n, p, hentry⟩
    obtain ⟨rfl, -⟩ := h.entered hentry
    exact ⟨p, hentry⟩
  · rintro ⟨p, hp⟩
    exact ⟨u.number, p, hp⟩

theorem nodup_numbers (h : Tally t memo visits) : (memo.nodes.map Term.number).Nodup := by
  have hkeys : memo.nodes.map Term.number = memo.entries.keys := by
    rw [Memo.nodes, List.map_map, ← Std.TreeMap.map_fst_toList_eq_keys]
    refine List.map_congr_left fun entry he => ?_
    exact (h.entered (Std.TreeMap.mem_toList_iff_getElem?_eq_some.mp he)).1
  rw [hkeys]
  exact Std.TreeMap.nodup_keys

/-- When a term has been transformed, the memo has one entry for each node that occurs in it and no
other, and the hook was given each constant once. -/
theorem exists_outcome (h : Tally t memo visits) (ht : memo.Knows t o) :
    ∃ outcome : Term → Outcome, (∀ u, u ∈ memo.nodes ↔ u.Occurs t) ∧
      (∀ n entry, memo.entries[n]? = some entry ↔
        ∃ u, u.Occurs t ∧ n = u.number ∧ entry = (u, outcome u)) ∧
      visits.Perm ((memo.nodes.filter Forest.isConstant).map fun c => (c, outcome c)) ∧
      ∀ u, u.Occurs t → memo.Knows u (outcome u) ∧ (¬u.isConstant →
        ∃ r r', (u.join (u.items.map outcome)).run r = .ok (outcome u, r')) := by
  let outcome (u : Term) := (memo.get? u).getD (.ok u)
  have houtcome {u : Term} {p : Outcome} (hu : memo.Knows u p) : p = outcome u := by
    change p = (memo.get? u).getD _
    rw [hu.get?_eq, Option.getD_some]
  have hknows {u : Term} (hu : u.Occurs t) : memo.Knows u (outcome u) := by
    obtain ⟨p, hp⟩ := h.knows_of_occurs ht hu
    rwa [← houtcome hp]
  have hoccurs {u : Term} {p : Outcome} (hu : memo.Knows u p) : u.Occurs t := (h.entered hu).2
  have hnodes (u : Term) : u ∈ memo.nodes ↔ u.Occurs t :=
    h.mem_nodes_iff.trans ⟨fun ⟨_, hp⟩ => hoccurs hp, fun hu => ⟨_, hknows hu⟩⟩
  refine ⟨outcome, hnodes, fun n entry => ⟨fun he => ?_, ?_⟩, ?_, fun u hu => ⟨hknows hu, ?_⟩⟩
  · obtain ⟨u, p⟩ := entry
    obtain ⟨rfl, hu⟩ := h.entered he
    exact ⟨u, hu, rfl, by rw [houtcome he]⟩
  · rintro ⟨u, hu, rfl, rfl⟩
    exact hknows hu
  · have hvisits : visits.Nodup := .of_map _ h.nodup
    have hconstants : (memo.nodes.filter Forest.isConstant).Nodup :=
      (List.Nodup.of_map _ h.nodup_numbers).filter _
    refine (List.perm_ext_iff_of_nodup hvisits (hconstants.map fun c d hcd => ?_)).mpr ?_
    · exact (Prod.mk.inj hcd).1
    · rintro ⟨u, p⟩
      rw [h.visited]
      simp only [List.mem_map, List.mem_filter, hnodes, Prod.mk.injEq]
      constructor
      · rintro ⟨hc, hu⟩
        exact ⟨u, ⟨hoccurs hu, hc⟩, rfl, (houtcome hu).symm⟩
      · rintro ⟨c, ⟨hu, hc⟩, rfl, rfl⟩
        exact ⟨hc, hknows hu⟩
  · intro hc
    obtain ⟨os, r, r', hos, hrun⟩ := h.joined (hknows hu) hc
    have hall : os = u.items.map outcome := by
      rw [← List.forall₂_eq_eq_eq, List.forall₂_map_right_iff]
      exact (hos.imp fun _ _ hp => houtcome hp).flip
    exact ⟨r, r', hall ▸ hrun⟩

end Tally

end ParseForest
