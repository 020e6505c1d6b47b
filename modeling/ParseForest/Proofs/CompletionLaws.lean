import ParseForest.Proofs.Genuine
import ParseForest.Proofs.ListInsertion
import ParseForest.Proofs.Tokens
import ParseForest.Proofs.WellSorted

/-!
# Completion comes to rest

What completion puts into a slot is at rest there: a list stays, and whatever was
neither list nor element is left as it is once more. If the elements of lists are
not lists themselves, then the new lists are at rest inside as well. So a second
run changes no node. It warns of nothing new, and of all that the first run warned
of, except where this was said of alternatives that have become equal.
-/
namespace ParseForest

/-- The elements of the lists by which slots are completed are no lists, and no list is taken for
the application of a label that is given as a term. -/
structure Grammar.FlatLists (g : Grammar) : Prop where
  element_not_list : ∀ slot d, g.lists.firstFor slot = some d → ¬g.isListSort d.element
  cons_label_ne : ∀ d ∈ g.lists.declarations, d.cons.label ≠ some .apply

theorem Grammar.isListSort_of_firstFor {g : Grammar} {slot : SortName} {d : ListDeclaration}
    (hd : g.lists.firstFor slot = some d) : g.isListSort slot := by
  rw [isListSort, ← ListCatalog.isSome_firstFor_iff, hd]
  rfl

/-- What is judged by the list sort itself may stay in a slot of that sort. -/
theorem Grammar.placement_self {g : Grammar} {slot : SortName} (hs : g.isListSort slot)
    (p : Production) : g.placement slot slot p = .keep := by
  have hle := g.subsorts.le_refl slot
  simp [placement, hle, hs]

namespace Completion
open Forest (Everywhere WellFormed)
variable {names : SymbolTable} {g : Grammar} {slot : SortName} {d : ListDeclaration} {t : Tree}
  {p : Production} {e : Issue}

theorem placedTree_of_judgedSort (hs : g.isListSort slot) (hp : t.production? = some p)
    (hf : g.judgedSort names t = some slot) : placedTree names g slot t = ⟨t, ∅⟩ :=
  placedTree_of_keep hp hf (Grammar.placement_self hs p)

/-- A list made by the declaration of the slot stays in the slot. -/
theorem placedTree_singletonTree (hg : g.FlatLists) (hd : g.lists.firstFor slot = some d) :
    placedTree names g slot (singletonTree d t) = ⟨singletonTree d t, ∅⟩ := by
  have hlabel := hg.cons_label_ne d (List.mem_of_find?_eq_some hd)
  have hf : g.judgedSort names (singletonTree d t) = some d.cons.sort :=
    judgedSort_of_label_ne names g rfl hlabel
  rw [d.cons_sort, ListCatalog.sort_of_firstFor hd] at hf
  exact placedTree_of_judgedSort (Grammar.isListSort_of_firstFor hd) rfl hf

theorem placedTree_terminator (hd : g.lists.firstFor slot = some d) (s : Span) :
    placedTree names g slot (.application () d.terminator [] s) =
      ⟨.application () d.terminator [] s, ∅⟩ := by
  have hf : g.judgedSort names (.application () d.terminator [] s) = some d.terminator.sort := rfl
  rw [d.terminator_sort, ListCatalog.sort_of_firstFor hd] at hf
  exact placedTree_of_judgedSort (Grammar.isListSort_of_firstFor hd) rfl hf

/-- To place a tree again changes nothing, and the same is warned of. -/
theorem placedTree_placedTree (hg : g.FlatLists) :
    placedTree names g slot (placedTree names g slot t).tree = placedTree names g slot t := by
  rcases placedTree_cases names g slot t with hp | ⟨d, hd, hp⟩ | ⟨found, hp⟩
  · rw [hp, hp]
  · rw [hp, placedTree_singletonTree hg hd]
  · rw [hp, hp]

theorem placed_placed_of_not_isAmbiguity (hg : g.FlatLists) (ha : ¬t.isAmbiguity) :
    placed names g slot (placed names g slot t).tree = placed names g slot t := by
  rw [placed_of_not_isAmbiguity ha, placed_of_not_isAmbiguity (not_isAmbiguity_placedTree ha),
    placedTree_placedTree hg]

theorem tree_placed_placed (hg : g.FlatLists) :
    (placed names g slot (placed names g slot t).tree).tree = (placed names g slot t).tree := by
  induction t using Forest.induction with
  | ambiguity m ts s ih =>
    have hstay : ∀ u ∈ (ts.map fun v => (placed names g slot v).tree).eraseDups,
        (placed names g slot u).tree = u := by
      intro u hu
      obtain ⟨v, hv, rfl⟩ := List.mem_map.mp (mem_of_mem_eraseDups hu)
      exact ih v hv
    rw [placed_ambiguity, placed_ambiguity, List.map_congr_left hstay, List.map_id',
      eraseDups_eq_self (pairwise_eraseDups _)]
  | constant | application | grouping =>
    rw [placed_placed_of_not_isAmbiguity hg (by simp [Forest.isAmbiguity])]

/-- What is warned of when a tree is placed again was warned of before. -/
theorem mem_warnings_of_placed_placed (hg : g.FlatLists)
    (he : e ∈ (placed names g slot (placed names g slot t).tree).warnings) :
    e ∈ (placed names g slot t).warnings := by
  induction t using Forest.induction with
  | ambiguity m ts s ih =>
    rw [placed_ambiguity, placed_ambiguity] at he
    rw [placed_ambiguity]
    obtain ⟨u, hu, he⟩ := OrderedSet.mem_unions_map.mp he
    obtain ⟨v, hv, rfl⟩ := List.mem_map.mp (mem_of_mem_eraseDups hu)
    exact OrderedSet.mem_unions_map.mpr ⟨v, hv, ih v hv he⟩
  | constant | application | grouping =>
    rwa [placed_placed_of_not_isAmbiguity hg (by simp [Forest.isAmbiguity])] at he

theorem filled_filled_of_not_isAmbiguity (hg : g.FlatLists) (ha : ¬t.isAmbiguity) :
    filled names g p slot (filled names g p slot t).tree = filled names g p slot t := by
  unfold filled
  split
  · exact placed_placed_of_not_isAmbiguity hg ha
  · rfl

theorem tree_filled_filled (hg : g.FlatLists) :
    (filled names g p slot (filled names g p slot t).tree).tree =
      (filled names g p slot t).tree := by
  unfold filled
  split
  · exact tree_placed_placed hg
  · rfl

theorem mem_warnings_of_filled_filled (hg : g.FlatLists)
    (he : e ∈ (filled names g p slot (filled names g p slot t).tree).warnings) :
    e ∈ (filled names g p slot t).warnings := by
  unfold filled at he ⊢
  split
  · rename_i h
    rw [if_pos h, if_pos h] at he
    exact mem_warnings_of_placed_placed hg he
  · rename_i h
    rwa [if_neg h, if_neg h] at he

/-- Every child of the node stays as it is in its slot. -/
def NodeAtRest (names : SymbolTable) (g : Grammar) : Tree → Prop
  | .application _ p items _ => ∀ c ∈ p.slots.zip items, (filled names g p c.1 c.2).tree = c.2
  | _ => True

theorem filled_element (hg : g.FlatLists) (hd : g.lists.firstFor slot = some d) :
    filled names g p d.element t = ⟨t, ∅⟩ := by
  have hs := hg.element_not_list slot d hd
  simp [filled, hs]

theorem filled_terminator (hd : g.lists.firstFor slot = some d) (s : Span) :
    filled names g p d.sort (.application () d.terminator [] s) =
      ⟨.application () d.terminator [] s, ∅⟩ := by
  unfold filled
  split
  · rw [ListCatalog.sort_of_firstFor hd, placed_of_not_isAmbiguity (by simp [Forest.isAmbiguity]),
      placedTree_terminator hd]
  · rfl

theorem slots_zip_singletonTree (d : ListDeclaration) (t u : Tree) :
    d.cons.slots.zip [t, u] = [(d.element, t), (d.sort, u)] := by
  rw [d.cons_slots]
  rfl

theorem nodeAtRest_completed {m : Unit} {ts : List Tree} {s : Span} (hg : g.FlatLists) :
    NodeAtRest names g (completed names g (.application m p ts s)).tree := by
  rw [completed_application]
  rintro ⟨slot, u⟩ hu
  obtain ⟨x, -, rfl⟩ := exists_of_mem_zip_map_zip hu
  exact tree_filled_filled hg

/-- Where the children stay in their slots, completion lets them do so. -/
theorem keeps_nodeAtRest (hg : g.FlatLists) : Keeps names g (NodeAtRest names g) where
  singleton {slot d t} hd _ ht := by
    refine everywhere_singletonTree ?_ (by simp [NodeAtRest]) ht
    intro c hc
    rw [slots_zip_singletonTree] at hc
    rcases List.mem_pair.mp hc with rfl | rfl
    · exact congrArg Warned.tree (filled_element hg hd)
    · exact congrArg Warned.tree (filled_terminator hd t.span)
  withItems {t us} hna _ _ := by
    cases t with
    | application m p ts s => exact absurd rfl (hna m p ts s)
    | _ => trivial
  application _ := nodeAtRest_completed hg

/-- Everything in a completed tree is at rest, also in the lists that are new. -/
theorem atRest_completed (hg : g.FlatLists) (t : Tree) :
    Everywhere (NodeAtRest names g) (completed names g t).tree := by
  induction t using Forest.items_induction with
  | node t ih =>
    rcases application_or_ne t with ⟨m, p, ts, s, rfl⟩ | hna
    · refine Forest.everywhere_iff.mpr ⟨nodeAtRest_completed hg, fun u hu => ?_⟩
      rw [completed_application] at hu
      obtain ⟨c, hc, rfl⟩ := List.mem_map.mp hu
      exact (keeps_nodeAtRest hg).filled (ih c.2 (List.of_mem_zip hc).2)
    · rw [completed_of_not_application hna]
      refine Forest.everywhere_iff.mpr ⟨?_, fun u hu => ?_⟩
      · cases t with
        | application m p ts s => exact absurd rfl (hna m p ts s)
        | _ => trivial
      · obtain ⟨v, hv, rfl⟩ := List.mem_map.mp (Forest.mem_of_mem_items_withItems hu)
        exact ih v hv

/-- Completion does not change a tree in which everything is at rest. -/
theorem tree_completed_of_atRest (hw : t.WellFormed) (ht : Everywhere (NodeAtRest names g) t) :
    (completed names g t).tree = t := by
  induction t using Forest.items_induction with
  | node t ih =>
    have hitems : ∀ u ∈ t.items, (completed names g u).tree = u :=
      fun u hu => ih u hu (hw.items hu) (ht.of_mem_items hu)
    rcases application_or_ne t with ⟨m, p, ts, s, rfl⟩ | hna
    · have hlen : ts.length = p.slots.length := hw.self
      have hslots : ∀ c ∈ p.slots.zip ts, (slotted names g p c.1 c.2).tree = c.2 := by
        intro c hc
        rw [slotted, hitems c.2 (List.of_mem_zip hc).2]
        exact ht.self c hc
      rw [completed_application, List.map_congr_left hslots,
        List.map_snd_zip (Nat.le_of_eq hlen)]
    · rw [completed_of_not_application hna,
        List.map_congr_left hitems, List.map_id']
      exact Forest.withItems_self hw.self

/-- To complete a tree again does not change it. -/
theorem tree_completed_completed (hg : g.FlatLists) (hw : t.WellFormed) :
    (completed names g (completed names g t).tree).tree = (completed names g t).tree :=
  tree_completed_of_atRest (wellFormed_completed hw) (atRest_completed hg t)

/-- Nothing is said of a new list but what is said of its element. -/
theorem warnings_completed_singletonTree (hg : g.FlatLists) (hd : g.lists.firstFor slot = some d) :
    (completed names g (singletonTree d t)).warnings = (completed names g t).warnings := by
  have hleaf (s : Span) : completed names g (.application () d.terminator [] s) =
      ⟨.application () d.terminator [] s, ∅⟩ := by
    rw [completed_application, List.zip_nil_right]
    exact congrArg (Warned.mk _) (OrderedSet.ext fun e => by simp)
  rw [singletonTree, completed_application, slots_zip_singletonTree]
  simp only [slotted, hleaf, List.map_cons, List.map_nil, filled_element hg hd,
    filled_terminator hd]
  exact OrderedSet.ext fun e => by simp

theorem warnings_completed_placedTree (hg : g.FlatLists) :
    (completed names g (placedTree names g slot t).tree).warnings =
      (completed names g t).warnings := by
  rcases placedTree_cases names g slot t with hp | ⟨d, hd, hp⟩ | ⟨found, hp⟩
  · rw [hp]
  · rw [hp, warnings_completed_singletonTree hg hd]
  · rw [hp]

/-- If no alternatives are merged, the same is said of a tree in its slot. -/
theorem warnings_completed_filled (hg : g.FlatLists) (ha : ¬t.isAmbiguity) :
    (completed names g (filled names g p slot t).tree).warnings =
      (completed names g t).warnings := by
  unfold filled
  split
  · rw [placed_of_not_isAmbiguity ha, warnings_completed_placedTree hg]
  · rfl

theorem mem_warnings_of_completed_placed (hg : g.FlatLists)
    (he : e ∈ (completed names g (placed names g slot t).tree).warnings) :
    e ∈ (completed names g t).warnings := by
  induction t using Forest.induction with
  | ambiguity m ts s ih =>
    rw [placed_ambiguity, completed_ambiguity] at he
    rw [completed_ambiguity]
    obtain ⟨u, hu, he⟩ := OrderedSet.mem_unions_map.mp he
    obtain ⟨v, hv, rfl⟩ := List.mem_map.mp (mem_of_mem_eraseDups hu)
    exact OrderedSet.mem_unions_map.mpr ⟨v, hv, ih v hv he⟩
  | constant | application | grouping =>
    rwa [placed_of_not_isAmbiguity (by simp [Forest.isAmbiguity]),
      warnings_completed_placedTree hg] at he

theorem mem_warnings_of_completed_filled (hg : g.FlatLists)
    (he : e ∈ (completed names g (filled names g p slot t).tree).warnings) :
    e ∈ (completed names g t).warnings := by
  unfold filled at he
  split at he
  · exact mem_warnings_of_completed_placed hg he
  · exact he

/-- What is said when a completed application is completed again, child by child. -/
theorem warnings_completed_completed_application (hg : g.FlatLists) {m : Unit} {ts : List Tree}
    {s : Span} (hw : WellFormed (.application m p ts s : Tree)) :
    (completed names g (completed names g (.application m p ts s)).tree).warnings =
      .unions ((p.slots.zip ts).map fun c =>
        (filled names g p c.1 (slotted names g p c.1 c.2).tree).warnings) ∪
      .unions ((p.slots.zip ts).map fun c =>
        (completed names g (slotted names g p c.1 c.2).tree).warnings) := by
  have hrest (c : SortName × Tree) (hc : c ∈ p.slots.zip ts) :
      (completed names g (slotted names g p c.1 c.2).tree).tree =
        (slotted names g p c.1 c.2).tree := by
    have hm := (List.of_mem_zip hc).2
    refine tree_completed_of_atRest ?_ ((keeps_nodeAtRest hg).filled (atRest_completed hg c.2))
    exact keeps_wellFormed.filled (wellFormed_completed (hw.items hm))
  have hslots : ((p.slots.zip ts).map fun c =>
        (slotted names g p c.1 (slotted names g p c.1 c.2).tree).warnings) =
      (p.slots.zip ts).map fun c =>
        (filled names g p c.1 (slotted names g p c.1 c.2).tree).warnings :=
    List.map_congr_left fun c hc => by rw [slotted, hrest c hc]
  rw [completed_application, completed_application]
  simp only [zip_map_zip, List.map_map, Function.comp_def, hslots]

/-- To complete a tree again warns of nothing new. -/
theorem mem_warnings_of_completed_completed (hg : g.FlatLists) (hw : t.WellFormed)
    (he : e ∈ (completed names g (completed names g t).tree).warnings) :
    e ∈ (completed names g t).warnings := by
  induction t using Forest.items_induction with
  | node t ih =>
    rcases application_or_ne t with ⟨m, p, ts, s, rfl⟩ | hna
    · rw [warnings_completed_completed_application hg hw] at he
      rw [completed_application]
      rcases OrderedSet.mem_union.mp he with he | he
      · obtain ⟨c, hc, he⟩ := OrderedSet.mem_unions_map.mp he
        refine OrderedSet.mem_union.mpr (.inl (OrderedSet.mem_unions_map.mpr ⟨c, hc, ?_⟩))
        exact mem_warnings_of_filled_filled hg he
      · obtain ⟨c, hc, he⟩ := OrderedSet.mem_unions_map.mp he
        have hm := (List.of_mem_zip hc).2
        refine OrderedSet.mem_union.mpr (.inr (OrderedSet.mem_unions_map.mpr ⟨c.2, hm, ?_⟩))
        exact ih c.2 hm (hw.items hm) (mem_warnings_of_completed_filled hg he)
    · rw [completed_of_not_application hna,
        completed_of_not_application (withItems_ne_application hna _)] at he
      rw [completed_of_not_application hna]
      obtain ⟨u, hu, he⟩ := OrderedSet.mem_unions_map.mp he
      obtain ⟨v, hv, rfl⟩ := List.mem_map.mp (Forest.mem_of_mem_items_withItems hu)
      exact OrderedSet.mem_unions_map.mpr ⟨v, hv, ih v hv (hw.items hv) he⟩

/-- Without ambiguities, to complete a tree again warns of all that the first run warned of. -/
theorem warnings_completed_completed (hg : g.FlatLists) (hw : t.WellFormed)
    (hu : t.Unambiguous) :
    (completed names g (completed names g t).tree).warnings = (completed names g t).warnings := by
  induction t using Forest.induction with
  | constant => simp only [completed_constant]
  | application m p ts s ih =>
    have hlen : ts.length = p.slots.length := hw.self
    have ha {c : SortName × Tree} (hc : c ∈ p.slots.zip ts) :
        ¬(completed names g c.2).tree.isAmbiguity := by
      rw [isAmbiguity_completed]
      exact (hu.of_mem_items (List.of_mem_zip hc).2).self
    have hslots : ∀ c ∈ p.slots.zip ts,
        (filled names g p c.1 (slotted names g p c.1 c.2).tree).warnings =
          (slotted names g p c.1 c.2).warnings :=
      fun c hc => congrArg Warned.warnings (filled_filled_of_not_isAmbiguity hg (ha hc))
    have hitems : ∀ c ∈ p.slots.zip ts,
        (completed names g (slotted names g p c.1 c.2).tree).warnings =
          (completed names g c.2).warnings := by
      intro c hc
      have hm := (List.of_mem_zip hc).2
      exact (warnings_completed_filled hg (ha hc)).trans
        (ih c.2 hm (hw.items hm) (hu.of_mem_items hm))
    have hsnd := congrArg (List.map fun u => (completed names g u).warnings)
      (List.map_snd_zip (Nat.le_of_eq hlen))
    rw [List.map_map] at hsnd
    rw [warnings_completed_completed_application hg hw, completed_application,
      List.map_congr_left hslots, List.map_congr_left hitems]
    exact congrArg (_ ∪ OrderedSet.unions ·) hsnd
  | ambiguity => exact absurd rfl hu.self
  | grouping m ts s ih =>
    have hitems : ∀ u ∈ ts, (completed names g (completed names g u).tree).warnings =
        (completed names g u).warnings :=
      fun u hm => ih u hm (hw.items hm) (hu.of_mem_items hm)
    simp only [completed_grouping, List.map_map]
    exact congrArg OrderedSet.unions (List.map_congr_left hitems)

end Completion

namespace Ledger
variable {l : Ledger} {g : Grammar} {t u : Term}

/-- A term whose tree is left alone by completion is completed to the very same node. -/
theorem result_completion_of_tree_eq (hg : g.KnownTo l.symbols) (ht : t ∈ l) (memo : Option Memo)
    (htree : (Completion.completed l.symbols g t.tree).tree = t.tree) :
    ∃ o : Outcome, l.completion g memo t = .ok o ∧ o.result = .ok t ∧
      o.warnings = (Completion.completed l.symbols g t.tree).warnings := by
  obtain ⟨o, u, ho, hu, hut, hwarnings, hworked, -⟩ :=
    exists_completion_with placingRules_refitted completionRules_reworked hg ht memo
  obtain rfl : u = t := hworked.eq_of_tree_eq (hut.trans htree)
  exact ⟨o, ho, hu, hwarnings⟩

/-- Completion is stable, if the elements of lists are no lists: it succeeds, and to complete what
it gives again, at any later time and whatever is remembered, returns the very same node and warns
of nothing new. If there is no ambiguity in the term, it warns of the same. -/
theorem completion_stable (hg : g.KnownTo l.symbols) (hlists : g.FlatLists) (ht : t ∈ l)
    (memo : Option Memo) : ∃ o u s k,
      (complete g t).run ⟨l.session, memo, ()⟩ = .ok (o, s) ∧ s.session = k.session ∧ l ≤ k ∧
        o.result = .ok u ∧ u ∈ k ∧
          ∀ (m : Ledger) memo', k ≤ m → ∃ o' : Outcome, m.completion g memo' u = .ok o' ∧
            o'.result = .ok u ∧ (∀ e ∈ o'.warnings, e ∈ o.warnings) ∧
              (t.Unambiguous → o'.warnings = o.warnings) := by
  obtain ⟨o, s, k, hrun, hlk, hs, ho⟩ :=
    ensures_complete placingRules_true completionRules_true hg ht ⟨l.session, memo, ()⟩
      ⟨le_refl l, rfl⟩
  have hw : t.tree.WellFormed := Forest.wellFormed_tree.mpr (wellFormed_of_mem ht)
  obtain ⟨u, hu, htree⟩ := Outcome.result_map_eq_ok_iff.mp (congrArg Outcome.result ho.tree_eq)
  have hwarnings : o.warnings = (Completion.completed k.symbols g t.tree).warnings :=
    congrArg Outcome.warnings ho.tree_eq
  refine ⟨o, u, s, k, hrun, hs.2, hlk, hu, ho.mem u hu, fun m memo' hkm => ?_⟩
  have hgm : g.KnownTo m.symbols := hg.of_le (symbols_le (le_trans hlk hkm))
  have hsame := Completion.completed_of_le (hg.of_le (symbols_le hlk)) (symbols_le hkm)
    (knownTo_tree_of_le ht hlk)
  rw [← hsame] at htree hwarnings
  obtain ⟨o', hrun', hresult, hagain⟩ :=
    result_completion_of_tree_eq hgm (mem_of_le hkm (ho.mem u hu)) memo'
      (by rw [htree, Completion.tree_completed_completed hlists hw])
  rw [htree] at hagain
  refine ⟨o', hrun', hresult, fun e he => ?_, fun hplain => ?_⟩
  · rw [hagain] at he
    rw [hwarnings]
    exact Completion.mem_warnings_of_completed_completed hlists hw he
  · rw [hagain, hwarnings]
    exact Completion.warnings_completed_completed hlists hw (Forest.unambiguous_tree.mpr hplain)

/-- A token in the slot of a list that it is no element of. -/
def strayAt (offset : Nat) : Tree :=
  .application () ofList
    [.constant () .bracket ⟨.any, [], none, ∅⟩ ⟨offset, 1, Symbol.unknownContext⟩] .unknown

/-- Two alternatives, an element and a list of an element, which completion makes equal up to the
places of their tokens. -/
def strays : Tree :=
  .application () ofList
    [.ambiguity () [strayAt 0, .application () listCons
      [strayAt 1, .application () listEnd [] .unknown] .unknown] .unknown] .unknown

theorem completion_stable_strays : ∃ (l : Ledger) (t : Term), t ∈ l ∧ t.tree = strays ∧
    ∃ o u s k, (complete listGrammar t).run ⟨l.session, none, ()⟩ = .ok (o, s) ∧
      o.result = .ok u ∧ u.tree ≠ strays ∧ ∀ (m : Ledger) memo', k ≤ m →
        ∃ o' : Outcome, m.completion listGrammar memo' u = .ok o' ∧ o'.result = .ok u ∧
          ∀ e ∈ o'.warnings, e ∈ o.warnings := by
  obtain ⟨l, t, hl, ht, htree⟩ :=
    exists_stores (l := listNames) (r := strays) (by decide) (by decide)
  have hg : listGrammar.KnownTo l.symbols := knownTo_listGrammar.of_le (symbols_le hl)
  have hlists : listGrammar.FlatLists := by
    refine ⟨fun slot d hd => ?_, by decide⟩
    obtain rfl := List.mem_singleton.mp (List.mem_of_find?_eq_some hd)
    decide
  obtain ⟨o, u, s, k, hrun, -, -, hu, -, hagain⟩ := completion_stable hg hlists ht none
  refine ⟨l, t, ht, htree, o, u, s, k, hrun, hu, ?_, fun m memo' hkm => ?_⟩
  · have ho : l.completion listGrammar none t = .ok o := by
      rw [completion, StateT.run'_eq, hrun]
      rfl
    obtain ⟨hcompleted, -⟩ := completed_of_completion hg ht ho hu
    rw [← hcompleted, htree,
      Completion.completed_of_le knownTo_listGrammar (symbols_le hl) (by decide)]
    intro hstill
    exact absurd (congrArg Forest.size hstill) (by decide)
  · obtain ⟨o', hrun', hresult, hwarnings, -⟩ := hagain m memo' hkm
    exact ⟨o', hrun', hresult, hwarnings⟩

/-- The warning of an alternative that was merged into another one is not given again. -/
example :
    let once := Completion.completed listNames.symbols listGrammar strays
    (Completion.completed listNames.symbols listGrammar once.tree).warnings.size = 1 ∧
      once.warnings.size = 2 := by decide

end Ledger
end ParseForest
