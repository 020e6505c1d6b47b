import ParseForest.Proofs.Closure
import ParseForest.Proofs.Disambiguated
import ParseForest.Proofs.Slots

/-!
# Well-sorted terms

A term is well-sorted if whatever occupies a slot is of a sort at most the sort of
the slot. An injection that is removed leaves a term of a smaller sort, and a term
is made a list only where its sort admits it as an element. So a well-sorted term
stays so, and nothing has to be warned of, as long as elements are what is below
their list sort.
-/
namespace ParseForest

/-- The production applies no label that is given as a term, and if it injects one sort into
another, then this is declared. -/
structure Production.Sound (l : Lattice) (p : Production) : Prop where
  label_ne : p.label ≠ some .apply
  injects : p.label = none → ∀ sub, p.slots = [sub] → l.le sub p.sort

instance {l : Lattice} {p : Production} : Decidable (p.Sound l) :=
  decidable_of_iff (p.label ≠ some .apply ∧
      (p.label = none → ∀ sub ∈ p.slots, p.slots = [sub] → l.le sub p.sort))
    ⟨fun h => ⟨h.1, fun hl sub hs => h.2 hl sub (by simp [hs]) hs⟩,
      fun h => ⟨h.label_ne, fun hl sub _ => h.injects hl sub⟩⟩

namespace Forest
variable {ι : Type} {c t u : Forest ι}

/-- The constant or application `c` is the forest, seen through ambiguities and groups. -/
inductive Occupant (c : Forest ι) : Forest ι → Prop
  | self (h : c.production?.isSome) : Occupant c c
  | inside {t x : Forest ι} (ht : t.production? = none) (hx : x ∈ t.items) (h : Occupant c x) :
      Occupant c t

/-- Whatever the forest stands for is of a sort at most the given one. -/
def AtMost (l : Lattice) (slot : SortName) (t : Forest ι) : Prop :=
  ∀ c sort, Occupant c t → c.sort? = some sort → l.le sort slot

/-- What occupies the slots of the node is of the right sorts. -/
def SlotsFit (l : Lattice) (t : Forest ι) : Prop :=
  match t with
  | application _ p ts _ => ∀ e ∈ p.slots.zip ts, e.2.AtMost l e.1
  | _ => True

/-- What occupies a slot is of the right sort, everywhere. -/
def WellSorted (l : Lattice) (t : Forest ι) : Prop := Everywhere (SlotsFit l) t

variable {l : Lattice} {slot : SortName} {p : Production}

theorem atMost_iff_of_some (h : t.production? = some p) : t.AtMost l slot ↔ l.le p.sort slot := by
  have hsort : t.sort? = some p.sort := by rw [sort?, h]; rfl
  constructor
  · intro ht
    exact ht t p.sort (.self (by rw [h]; rfl)) hsort
  · intro hle c sort hc hs
    cases hc with
    | self =>
      rw [hsort] at hs
      exact Option.some.inj hs ▸ hle
    | inside hn => simp [h] at hn

theorem atMost_iff_of_none (h : t.production? = none) :
    t.AtMost l slot ↔ ∀ u ∈ t.items, u.AtMost l slot := by
  constructor
  · intro ht u hu c sort hc
    exact ht c sort (.inside h hu hc)
  · intro hall c sort hc
    cases hc with
    | self hs => simp [h] at hs
    | inside _ hx hc => exact hall _ hx c sort hc

/-- What is seen through a group or an ambiguity is at most as great as all of it. -/
theorem AtMost.of_mem_items (h : t.AtMost l slot) (ht : t.production? = none) (hu : u ∈ t.items) :
    u.AtMost l slot := (atMost_iff_of_none ht).mp h u hu

instance : Decidable (t.AtMost l slot) :=
  decidable_of_iff (t.fold (fun u (answers : List Bool) =>
    u.production?.elim (answers.all id) fun p => l.le p.sort slot) = true) <| by
    induction t using items_induction with
    | node t ih =>
      rw [fold_eq]
      cases hp : t.production? with
      | some p => exact (atMost_iff_of_some hp).symm
      | none =>
        rw [atMost_iff_of_none hp, Option.elim_none, List.all_map, List.all_eq_true]
        exact forall₂_congr ih

instance : DecidablePred (SlotsFit (ι := ι) l)
  | application _ p ts _ => inferInstanceAs (Decidable (∀ e ∈ p.slots.zip ts, e.2.AtMost l e.1))
  | constant .. | ambiguity .. | grouping .. => isTrue trivial

instance : Decidable (t.WellSorted l) := inferInstanceAs (Decidable (Everywhere _ t))

theorem atMost_tree : t.tree.AtMost l slot ↔ t.AtMost l slot := by
  induction t using items_induction with
  | node t ih =>
    cases hp : t.production? with
    | some p => rw [atMost_iff_of_some hp, atMost_iff_of_some ((production?_tree t).trans hp)]
    | none =>
      rw [atMost_iff_of_none hp, atMost_iff_of_none ((production?_tree t).trans hp), items_tree,
        List.forall_mem_map]
      exact forall₂_congr ih

theorem slotsFit_tree : t.tree.SlotsFit l ↔ t.SlotsFit l := by
  cases t with
  | application m p ts s =>
    rw [tree_application, SlotsFit, SlotsFit, List.zip_map_right, List.forall_mem_map]
    exact forall₂_congr fun e _ => atMost_tree
  | _ => simp [SlotsFit]

theorem wellSorted_tree : t.tree.WellSorted l ↔ t.WellSorted l :=
  everywhere_tree fun _ => slotsFit_tree.symm

/-- What the node needs in order that injections can be removed: what occupies its slots fits, and
its production is sound. -/
structure Orderly (l : Lattice) (t : Tree) : Prop where
  slots : t.SlotsFit l
  sound : ∀ p, t.production? = some p → p.Sound l

theorem orderly_of_none {t : Tree} (h : t.production? = none) : Orderly l t where
  slots := by
    cases t with
    | application => cases h
    | _ => trivial
  sound p hp := by simp [h] at hp

section Cleaning
variable {t u : Tree}

theorem production?_withItems (t : Tree) (ts : List Tree) :
    (t.withItems ts).production? = t.production? := by
  cases t <;> rfl

theorem atMost_collapsed (hp : t.production? = none) (h : ∀ u ∈ t.items, u.AtMost l slot) :
    t.collapsed.AtMost l slot := by
  refine collapsed_cases (motive := AtMost l slot) ?_ h fun _ => ?_
  · exact (atMost_iff_of_none rfl).mpr (by simp [items])
  · refine (atMost_iff_of_none ((production?_withItems t _).trans hp)).mpr fun u hu => h u ?_
    exact (mem_proper.mp (mem_of_mem_items_withItems hu)).1

theorem orderly_collapsed (hp : t.production? = none)
    (h : ∀ u ∈ t.items, Everywhere (Orderly l) u) : Everywhere (Orderly l) t.collapsed := by
  refine collapsed_cases ?_ h fun _ => ?_
  · exact everywhere_iff.mpr ⟨orderly_of_none rfl, by simp [items]⟩
  · refine everywhere_iff.mpr ⟨orderly_of_none ((production?_withItems t _).trans hp), ?_⟩
    exact fun u hu => h u (mem_proper.mp (mem_of_mem_items_withItems hu)).1

/-- Cleaning keeps a term orderly, and it makes no sort greater. -/
theorem CleansTo.orderly (htrans : ∀ {a b c}, l.le a b → l.le b c → l.le a c) (hw : t.WellFormed)
    (ht : Everywhere (Orderly l) t) (h : t.CleansTo u) :
    Everywhere (Orderly l) u ∧ ∀ slot, t.AtMost l slot → u.AtMost l slot := by
  have collapsed {t n : Tree} (ht : t.production? = none) (hn : n.production? = none)
      (hall : ∀ x ∈ t.items, ∀ y, x.CleansTo y →
        Everywhere (Orderly l) y ∧ ∀ slot, x.AtMost l slot → y.AtMost l slot)
      (hfrom : ∀ y ∈ n.items, ∃ x ∈ t.items, x.CleansTo y) : Everywhere (Orderly l) n.collapsed ∧
        ∀ slot, t.AtMost l slot → n.collapsed.AtMost l slot := by
    refine ⟨orderly_collapsed hn fun y hy => ?_, fun slot hs => atMost_collapsed hn fun y hy => ?_⟩
    · obtain ⟨x, hx, hxy⟩ := hfrom y hy
      exact (hall x hx y hxy).1
    · obtain ⟨x, hx, hxy⟩ := hfrom y hy
      exact (hall x hx y hxy).2 slot (hs.of_mem_items ht hx)
  induction t using Forest.induction generalizing u with
  | constant m v p s =>
    obtain rfl := cleansTo_constant_iff.mp h
    exact ⟨ht, fun _ h => h⟩
  | application m p ts s ih =>
    cases hl : p.label with
    | some lab =>
      obtain ⟨us, hf, rfl⟩ := (cleansTo_labeled_iff hl).mp h
      refine ⟨everywhere_iff.mpr ⟨⟨?_, ht.self.sound⟩, fun y hy => ?_⟩, ?_⟩
      · intro e he
        obtain ⟨x, hx, hex, hxy⟩ := exists_mem_zip_of_forall₂ hf he
        exact (ih x hx (hw.items hx) (ht.of_mem_items hx) hxy).2 e.1 (ht.self.slots _ hex)
      · obtain ⟨x, hx, hxy⟩ := forall₂_exists_left hf hy
        exact (ih x hx (hw.items hx) (ht.of_mem_items hx) hxy).1
      · exact fun slot h => (atMost_iff_of_some rfl).mpr ((atMost_iff_of_some rfl).mp h)
    | none =>
      obtain ⟨x, rfl, hx⟩ := (cleansTo_unlabeled_iff hl).mp h
      have hxm : x ∈ [x] := List.mem_cons_self
      obtain ⟨hu, hle⟩ := ih x hxm (hw.items hxm) (ht.of_mem_items hxm) hx
      refine ⟨hu, fun slot hs => hle slot fun c sort hc hsort => ?_⟩
      -- The injected term is of a sort at most its slot, this at most the injection's sort.
      have harity : 1 = p.slots.length := hw.self
      obtain ⟨sub, hsub⟩ := List.length_eq_one_iff.mp harity.symm
      have hslot : x.AtMost l sub := ht.self.slots (sub, x) (by simp [hsub])
      have hinject := (ht.self.sound p rfl).injects hl sub hsub
      have hsort' := (atMost_iff_of_some rfl).mp hs
      exact htrans (hslot c sort hc hsort) (htrans hinject hsort')
  | ambiguity m ts s ih =>
    obtain ⟨-, rfl⟩ := cleansTo_ambiguity_iff.mp h
    exact collapsed rfl rfl (fun x hx _ => ih x hx (hw.items hx) (ht.of_mem_items hx))
      fun y hy => mem_cleanings.mp (mem_of_mem_eraseDups hy)
  | grouping m ts s ih =>
    obtain ⟨us, hf, rfl⟩ := cleansTo_grouping_iff.mp h
    exact collapsed rfl rfl (fun x hx _ => ih x hx (hw.items hx) (ht.of_mem_items hx))
      fun y hy => forall₂_exists_left hf hy

end Cleaning

end Forest

/-- The list declarations go with the subsort relation: whatever is below a list sort, if it is no
list sort itself, may be an element, and the sort of all terms is below no list sort. -/
structure Grammar.ElementsBelow (g : Grammar) : Prop where
  le_element : ∀ sort d, g.lists.firstFor sort = some d →
    ∀ found, ¬g.isListSort found → g.subsorts.lt found sort → g.subsorts.le found d.element
  not_any_lt : ∀ sort, g.isListSort sort → ¬g.subsorts.lt .any sort
  cons_ne : ∀ d ∈ g.lists.declarations, d.cons.label ≠ some .apply
  terminator_ne : ∀ d ∈ g.lists.declarations, d.terminator.label ≠ some .apply

namespace Completion
open Forest (Everywhere Orderly AtMost)
variable {names : SymbolTable} {g : Grammar} {slot : SortName} {p : Production} {t : Tree}

/-- What a pass has made for a slot fits in there, and nothing is warned of. -/
structure Suits (g : Grammar) (slot : SortName) (w : Warned) : Prop where
  orderly : Everywhere (Orderly g.subsorts) w.tree
  atMost : w.tree.AtMost g.subsorts slot
  silent : w.warnings = ∅

/-- A tree that applies no label as a term is judged by its production. -/
theorem judgedSort_of_label_ne (names : SymbolTable) (g : Grammar) (hp : t.production? = some p)
    (hl : p.label ≠ some .apply) : g.judgedSort names t = some p.sort := by
  have happlied : t.appliedLabel names = none := by
    cases t with
    | application m q ts s =>
      obtain rfl := Option.some.inj hp
      cases ts with
      | nil => rfl
      | cons u ts => exact if_neg hl
    | _ => rfl
  rw [Grammar.judgedSort, happlied, Forest.sort?, hp]
  rfl

theorem sound_cons (hg : g.ElementsBelow) {d : ListDeclaration}
    (hd : d ∈ g.lists.declarations) : d.cons.Sound g.subsorts where
  label_ne := hg.cons_ne d hd
  injects _ sub hsub := by simp [d.cons_slots] at hsub

theorem sound_terminator (hg : g.ElementsBelow) {d : ListDeclaration}
    (hd : d ∈ g.lists.declarations) : d.terminator.Sound g.subsorts where
  label_ne := hg.terminator_ne d hd
  injects _ sub hsub := by
    have harity := d.terminator_arity
    rw [Production.arity, hsub] at harity
    cases harity

theorem orderly_singletonTree (hg : g.ElementsBelow) {d : ListDeclaration}
    (hd : d ∈ g.lists.declarations) (ht : Everywhere (Orderly g.subsorts) t)
    (hm : t.AtMost g.subsorts d.element) :
    Everywhere (Orderly g.subsorts) (singletonTree d t) := by
  refine everywhere_singletonTree ⟨fun e he => ?_, fun p hp => ?_⟩
    ⟨fun e he => ?_, fun p hp => ?_⟩ ht
  · rw [d.cons_slots] at he
    rcases List.mem_cons.mp he with rfl | he
    · exact hm
    · obtain rfl := List.mem_singleton.mp he
      refine (Forest.atMost_iff_of_some rfl).mpr ?_
      rw [d.terminator_sort]
      exact g.subsorts.le_refl d.sort
  · obtain rfl := Option.some.inj hp
    exact sound_cons hg hd
  · simp at he
  · obtain rfl := Option.some.inj hp
    exact sound_terminator hg hd

/-- What fits in the slot of a list sort stays or becomes a list, which fits as well. -/
theorem suits_placedTree (hg : g.ElementsBelow) (hs : g.isListSort slot)
    (ht : Everywhere (Orderly g.subsorts) t) (hm : t.AtMost g.subsorts slot) :
    Suits g slot (placedTree names g slot t) := by
  cases hp : t.production? with
  | none =>
    rw [placedTree_of_production?_eq_none hp]
    exact ⟨ht, hm, rfl⟩
  | some p =>
    have hf := judgedSort_of_label_ne names g hp (ht.self.sound p hp).label_ne
    have hle := (Forest.atMost_iff_of_some hp).mp hm
    cases h : g.placement slot p.sort p with
    | keep =>
      rw [placedTree_of_keep hp hf h]
      exact ⟨ht, hm, rfl⟩
    | element d =>
      obtain ⟨hnot, -, -, -, hlt, hd⟩ := Grammar.placement_eq_element_iff.mp h
      rw [placedTree_of_element hp hf h]
      have hlist : ¬g.isListSort p.sort := fun hlist => hnot ⟨hle, hlist⟩
      have helement := hg.le_element slot d hd p.sort hlist hlt
      refine ⟨?_, (Forest.atMost_iff_of_some rfl).mpr ?_, rfl⟩
      · exact orderly_singletonTree hg (List.mem_of_find?_eq_some hd) ht
          ((Forest.atMost_iff_of_some hp).mpr helement)
      · rw [d.cons_sort, ListCatalog.sort_of_firstFor hd]
        exact g.subsorts.le_refl slot
    | misplaced =>
      -- A sort that fits is a list sort or strictly below, and it is not the sort of all terms.
      obtain ⟨hnot, -, -, hbad⟩ := Grammar.placement_eq_misplaced_iff.mp h
      rcases Lattice.le_iff.mp hle with heq | hlt
      · exact absurd ⟨hle, heq ▸ hs⟩ hnot
      · rcases hbad with hany | hnlt
        · exact absurd (hany ▸ hlt) (hg.not_any_lt slot hs)
        · exact absurd hlt hnlt

theorem suits_placed (hg : g.ElementsBelow) (hs : g.isListSort slot)
    (ht : Everywhere (Orderly g.subsorts) t) (hm : t.AtMost g.subsorts slot) :
    Suits g slot (placed names g slot t) := by
  induction t using Forest.induction with
  | ambiguity m ts s ih =>
    have hall : ∀ u ∈ ts, Suits g slot (placed names g slot u) := fun u hu =>
      ih u hu (ht.of_mem_items hu) (hm.of_mem_items rfl hu)
    rw [placed_ambiguity]
    refine ⟨Forest.everywhere_iff.mpr ⟨Forest.orderly_of_none rfl, fun v hv => ?_⟩,
      (Forest.atMost_iff_of_none rfl).mpr fun v hv => ?_, ?_⟩
    · obtain ⟨u, hu, rfl⟩ := List.mem_map.mp (mem_of_mem_eraseDups hv)
      exact (hall u hu).orderly
    · obtain ⟨u, hu, rfl⟩ := List.mem_map.mp (mem_of_mem_eraseDups hv)
      exact (hall u hu).atMost
    · exact OrderedSet.unions_map_eq_empty fun u hu => (hall u hu).silent
  | constant | application | grouping =>
    rw [placed_of_not_isAmbiguity (by simp [Forest.isAmbiguity])]
    exact suits_placedTree hg hs ht hm

theorem suits_filled (hg : g.ElementsBelow) (ht : Everywhere (Orderly g.subsorts) t)
    (hm : t.AtMost g.subsorts slot) : Suits g slot (filled names g p slot t) := by
  unfold filled
  split
  · rename_i hexpects
    exact suits_placed hg (Bool.and_eq_true_iff.mp hexpects).2 ht hm
  · exact ⟨ht, hm, rfl⟩

/-- Completion keeps a tree orderly, which fits where it did, and nothing is warned of. -/
theorem completed_of_orderly (hg : g.ElementsBelow) (ht : Everywhere (Orderly g.subsorts) t) :
    Everywhere (Orderly g.subsorts) (completed names g t).tree ∧
      (∀ slot, t.AtMost g.subsorts slot → (completed names g t).tree.AtMost g.subsorts slot) ∧
      (completed names g t).warnings = ∅ := by
  induction t using Forest.induction with
  | constant m v p s =>
    rw [completed_constant]
    exact ⟨ht, fun _ hm => hm, rfl⟩
  | application m p ts s ih =>
    have hslot : ∀ e ∈ p.slots.zip ts, Suits g e.1 (slotted names g p e.1 e.2) := by
      intro e he
      have hmem := (List.of_mem_zip he).2
      obtain ⟨horderly, hle, -⟩ := ih e.2 hmem (ht.of_mem_items hmem)
      exact suits_filled hg horderly (hle e.1 (ht.self.slots e he))
    rw [completed_application]
    refine ⟨Forest.everywhere_iff.mpr ⟨⟨fun e he => ?_, ht.self.sound⟩, fun v hv => ?_⟩,
      fun slot hm => ?_, ?_⟩
    · obtain ⟨x, hx, hfill⟩ := exists_of_mem_zip_map_zip he
      rw [← hfill]
      exact (hslot _ hx).atMost
    · obtain ⟨e, he, rfl⟩ := List.mem_map.mp hv
      exact (hslot e he).orderly
    · exact (Forest.atMost_iff_of_some rfl).mpr ((Forest.atMost_iff_of_some rfl).mp hm)
    · rw [OrderedSet.unions_map_eq_empty fun e he => (hslot e he).silent,
        OrderedSet.unions_map_eq_empty fun u hu => (ih u hu (ht.of_mem_items hu)).2.2]
      rfl
  | ambiguity m ts s ih =>
    have hall := fun u hu => ih u hu (ht.of_mem_items hu)
    have from_item {v : Tree} (hv : v ∈ (ts.map fun u => (completed names g u).tree).eraseDups) :
        ∃ u ∈ ts, (completed names g u).tree = v := List.mem_map.mp (mem_of_mem_eraseDups hv)
    rw [completed_ambiguity]
    refine ⟨Forest.everywhere_iff.mpr ⟨Forest.orderly_of_none rfl, fun v hv => ?_⟩,
      fun slot hm => (Forest.atMost_iff_of_none rfl).mpr fun v hv => ?_,
      OrderedSet.unions_map_eq_empty fun u hu => (hall u hu).2.2⟩
    · obtain ⟨u, hu, rfl⟩ := from_item hv
      exact (hall u hu).1
    · obtain ⟨u, hu, rfl⟩ := from_item hv
      exact (hall u hu).2.1 slot (hm.of_mem_items rfl hu)
  | grouping m ts s ih =>
    have hall := fun u hu => ih u hu (ht.of_mem_items hu)
    rw [completed_grouping]
    refine ⟨Forest.everywhere_iff.mpr ⟨Forest.orderly_of_none rfl, List.forall_mem_map.mpr
      fun u hu => (hall u hu).1⟩, fun slot hm => (Forest.atMost_iff_of_none rfl).mpr
      (List.forall_mem_map.mpr fun u hu => ?_),
      OrderedSet.unions_map_eq_empty fun u hu => (hall u hu).2.2⟩
    exact (hall u hu).2.1 slot (hm.of_mem_items rfl hu)

end Completion

namespace Ledger
variable {l : Ledger} {t : Term} {g : Grammar} {d : SortDeclarations}

/-- In a built lattice, a well-sorted term of sound productions stays well-sorted if it is accepted,
and nothing is warned of, as long as list sorts have nothing below them but their elements and other
list sorts. -/
theorem disambiguation_keeps_wellSorted (hd : d.build = .ok g.subsorts) (hlists : g.ElementsBelow)
    (hg : g.KnownTo l.symbols) (ht : t ∈ l) (hsorted : t.WellSorted g.subsorts)
    (hsound : ∀ (u : Term) (p : Production), u.Occurs t → u.production? = some p →
      p.Sound g.subsorts) (config : PassConfig) :
    ∃ v, l.disambiguation g config t = .ok v ∧ ∀ accepted, v = .ok accepted →
      accepted.term.WellSorted g.subsorts ∧ accepted.warnings = ∅ := by
  have hw : t.tree.WellFormed := Forest.wellFormed_tree.mpr (wellFormed_of_mem ht)
  have horderly : t.tree.Everywhere (Forest.Orderly g.subsorts) := by
    intro u hu
    obtain ⟨v, hv, rfl⟩ := Forest.occurs_tree.mp hu
    refine ⟨Forest.slotsFit_tree.mpr (hsorted v hv), fun p hp => ?_⟩
    exact hsound v p hv ((Forest.production?_tree v).symm.trans hp)
  obtain ⟨o, k, hrun, -, ho⟩ := exists_disambiguation_eq hg ht config
  refine ⟨o.verdict, hrun, fun accepted ha => ?_⟩
  cases hu : t.tree.cleaned.result with
  | error f =>
    rw [ho.rejects hu] at ha
    cases ha
  | ok u =>
    have hclean : u.Everywhere (Forest.Orderly g.subsorts) :=
      (Forest.CleansTo.orderly (SortDeclarations.le_trans_of_build hd) hw horderly hu).1
    obtain ⟨hcompleted, -, hsilent⟩ := Completion.completed_of_orderly hlists hclean
    obtain ⟨d, hok, -, htree⟩ := ho.accepts hu
    obtain rfl := Except.ok.inj (ha.symm.trans hok)
    refine ⟨?_, hsilent⟩
    rw [← Forest.wellSorted_tree, htree]
    exact hcompleted.imp fun v hv => hv.slots

theorem elementsBelow_listGrammar : listGrammar.ElementsBelow where
  le_element sort d hd found hlist hlt := by
    have hfound : found ∈ [elementSort, listSort] := Lattice.mem_sorts_of_lt hlt
    obtain rfl := List.mem_singleton.mp (List.mem_of_find?_eq_some hd)
    rcases List.mem_pair.mp hfound with rfl | rfl
    · decide
    · exact absurd (by decide) hlist
  not_any_lt sort _ hlt := absurd (Lattice.mem_sorts_of_lt hlt) (by decide)
  cons_ne := by decide
  terminator_ne := by decide

/-- An element that becomes a list stands beside a list. -/
theorem disambiguation_keeps_wellSorted_loneElement : ∃ (l : Ledger) (t : Term), t ∈ l ∧
    t.tree = loneElement ∧ ∃ d, l.disambiguation listGrammar {} t = .ok (.ok d) ∧
      d.term.WellSorted listGrammar.subsorts ∧ d.warnings = ∅ := by
  obtain ⟨l, t, hl, ht, htree⟩ :=
    exists_stores (l := listNames) (r := loneElement) (by decide) (by decide)
  have hg : listGrammar.KnownTo l.symbols :=
    Grammar.KnownTo.of_le ⟨by decide, by decide, by decide⟩ (symbols_le hl)
  have hd : (SortDeclarations.ofLists [] [(elementSort, listSort)]).build =
      .ok listGrammar.subsorts := rfl
  have hsorted : t.WellSorted listGrammar.subsorts := by
    rw [← Forest.wellSorted_tree, htree]
    decide
  have hsound : loneElement.Everywhere fun u =>
      ∀ p ∈ u.production?, p.Sound listGrammar.subsorts := by
    decide
  obtain ⟨v, hv, hall⟩ := disambiguation_keeps_wellSorted hd elementsBelow_listGrammar hg ht hsorted
    (fun u p hu hp => hsound u.tree (htree ▸ Forest.occurs_tree.mpr ⟨u, hu, rfl⟩) p
      ((Forest.production?_tree u).trans hp)) {}
  have hclean : loneElement.CleansTo loneElement := rfl
  obtain ⟨accepted, hrun⟩ := exists_accepted hg ht {} (htree ▸ hclean)
  have haccepted : v = .ok accepted := Except.ok.inj (hv.symm.trans hrun)
  exact ⟨l, t, ht, htree, accepted, hrun, hall accepted haccepted⟩

end Ledger
end ParseForest
