import ParseForest.Proofs.CompletedReadings

/-!
# What stands in the slots of a completed tree

In a completed tree the slot of a list sort holds a list, something exempt, a new
list of one element, or something that is warned of. There is one exception. A new
list is not completed itself, so its element may stand where another list sort is
expected. This cannot happen if the elements of lists are never lists, and the
exact condition is one on the grammar.
-/
namespace ParseForest
namespace Completion
variable {names : SymbolTable} {g : Grammar} {slot : SortName} {w w' : Issues}
  {c t u : Tree}

/-- The tree `c` is the other tree or one of its alternatives, also at some depth. -/
inductive Fills (c : Tree) : Tree → Prop
  | self (h : ¬c.isAmbiguity) : Fills c c
  | alternative {m : Unit} {ts : List Tree} {s : Span} {x : Tree} (hx : x ∈ ts) (h : Fills c x) :
      Fills c (.ambiguity m ts s)

/-- The tree `c` stands in a slot of the node where a list of the given sort is expected. -/
inductive Occupies (names : SymbolTable) (g : Grammar) (slot : SortName) (c : Tree) : Tree → Prop
  | slot {m : Unit} {p : Production} {ts : List Tree} {s : Span} {x : Tree}
      (hs : g.isListSort slot) (hp : p.expects names) (hx : (slot, x) ∈ p.slots.zip ts)
      (hc : Fills c x) : Occupies names g slot c (.application m p ts s)

/-- What stands in the slot of a list sort is in order. -/
inductive Settled (names : SymbolTable) (g : Grammar) (w : Issues) (slot : SortName) (c : Tree) :
    Prop
  /-- It is a list of the right kind. -/
  | list {found : SortName} (hsort : g.judgedSort names c = some found)
      (hlist : g.isListSort found) (hle : g.subsorts.le found slot)
  /-- It is exempt, being a bracket or an arrow. -/
  | escape {p : Production} (hp : c.production? = some p) (he : p.isBracket ∨ p.isArrow)
  /-- It is a cons of the declaration by which the slot is completed. -/
  | wrapped {d : ListDeclaration} {m : Unit} {ts : List Tree} {s : Span}
      (hd : g.lists.firstFor slot = some d) (hc : c = .application m d.cons ts s)
  /-- It is warned of. -/
  | warned {found : SortName} (hsort : g.judgedSort names c = some found)
      (hw : Issue.listSortExpected found slot c.span ∈ w)

/-- Whatever has a sort and stands in the slot of a list sort is in order. -/
def SlotsSettled (names : SymbolTable) (g : Grammar) (w : Issues) (u : Tree) : Prop :=
  ∀ t slot c, t.Occurs u → Occupies names g slot c t → c.production?.isSome →
    Settled names g w slot c

/-- The tree is made a list by the declaration in a slot of the given sort. -/
def Wraps (names : SymbolTable) (g : Grammar) (sort : SortName) (d : ListDeclaration) (c : Tree) :
    Prop :=
  ∃ p found, c.production? = some p ∧ g.judgedSort names c = some found ∧
    g.placement sort found p = .element d

/-- The node is a new list, and its element `c` stands where another list sort is expected. -/
def Nested (names : SymbolTable) (g : Grammar) (slot : SortName) (c t : Tree) : Prop :=
  ∃ d sort, Wraps names g sort d c ∧ t = singletonTree d c ∧ slot = d.element

theorem Settled.mono (h : Settled names g w slot c) (hw : ∀ e ∈ w, e ∈ w') :
    Settled names g w' slot c := by
  cases h with
  | list hsort hlist hle => exact .list hsort hlist hle
  | escape hp he => exact .escape hp he
  | wrapped hd hc => exact .wrapped hd hc
  | warned hsort hm => exact .warned hsort (hw _ hm)

theorem fills_iff_of_not_isAmbiguity (h : ¬t.isAmbiguity) : Fills c t ↔ c = t := by
  constructor
  · intro hf
    cases hf with
    | self => rfl
    | alternative => exact absurd rfl h
  · intro hc
    subst hc
    exact .self h

theorem fills_ambiguity_iff {m : Unit} {ts : List Tree} {s : Span} :
    Fills c (.ambiguity m ts s) ↔ ∃ x ∈ ts, Fills c x := by
  constructor
  · intro hf
    cases hf with
    | self h => exact absurd rfl h
    | alternative hx h => exact ⟨_, hx, h⟩
  · intro ⟨x, hx, h⟩
    exact .alternative hx h

/-- In the slot of a list sort only lists, brackets and arrows may stay without a warning. -/
theorem keep_of_isListSort {found : SortName} {p : Production} (hs : g.isListSort slot)
    (h : g.placement slot found p = .keep) :
    (g.subsorts.le found slot ∧ g.isListSort found) ∨ p.isBracket ∨ p.isArrow := by
  unfold Grammar.placement at h
  split at h
  · rename_i hlist
    exact .inl (Bool.and_eq_true_iff.mp hlist)
  · split at h
    · rename_i hexempt
      exact .inr (Bool.or_eq_true_iff.mp hexempt)
    · split at h
      · cases h
      · split at h
        · cases h
        · rename_i hnone
          have hsome := ListCatalog.isSome_firstFor_iff.mpr hs
          rw [hnone] at hsome
          cases hsome

/-- A tree that is wrapped becomes a list of one, and all others stay. -/
theorem placedTree_cases_wraps (names : SymbolTable) (g : Grammar) (slot : SortName) (t : Tree) :
    (placedTree names g slot t).tree = t ∨
      ∃ d, Wraps names g slot d t ∧ (placedTree names g slot t).tree = singletonTree d t := by
  cases hp : t.production? with
  | none =>
    rw [placedTree_of_production?_eq_none hp]
    exact .inl rfl
  | some p =>
    obtain ⟨found, hf⟩ := exists_judgedSort names g hp
    cases h : g.placement slot found p with
    | keep =>
      rw [placedTree_of_keep hp hf h]
      exact .inl rfl
    | element d =>
      rw [placedTree_of_element hp hf h]
      exact .inr ⟨d, ⟨p, found, hp, hf, h⟩, rfl⟩
    | misplaced =>
      rw [placedTree_of_misplaced hp hf h]
      exact .inl rfl

theorem occurs_singletonTree {d : ListDeclaration} (h : u.Occurs (singletonTree d t)) :
    u = singletonTree d t ∨ u = .application () d.terminator [] t.span ∨ u.Occurs t := by
  rcases Forest.occurs_iff.mp h with hu | ⟨v, hv, hu⟩
  · exact .inl hu
  · rcases List.mem_cons.mp hv with rfl | hv
    · exact .inr (.inr hu)
    · obtain rfl := List.mem_singleton.mp hv
      rcases Forest.occurs_iff.mp hu with hu | ⟨x, hx, -⟩
      · exact .inr (.inl hu)
      · cases hx

/-- What becomes of a tree in the slot of a list sort is in order there. -/
theorem settled_placedTree (hs : g.isListSort slot)
    (hc : (placedTree names g slot t).tree.production?.isSome) :
    Settled names g (placedTree names g slot t).warnings slot (placedTree names g slot t).tree := by
  cases hp : t.production? with
  | none =>
    rw [placedTree_of_production?_eq_none hp, hp] at hc
    cases hc
  | some p =>
    obtain ⟨found, hf⟩ := exists_judgedSort names g hp
    cases h : g.placement slot found p with
    | keep =>
      rw [placedTree_of_keep hp hf h]
      rcases keep_of_isListSort hs h with ⟨hle, hlist⟩ | he
      · exact .list hf hlist hle
      · exact .escape hp he
    | element d =>
      rw [placedTree_of_element hp hf h]
      exact .wrapped (Grammar.placement_eq_element_iff.mp h).2.2.2.2.2 rfl
    | misplaced =>
      rw [placedTree_of_misplaced hp hf h]
      exact .warned hf (OrderedSet.mem_singleton.mpr rfl)

theorem settled_of_fills_placed (hs : g.isListSort slot)
    (hfill : Fills c (placed names g slot t).tree) (hc : c.production?.isSome) :
    Settled names g (placed names g slot t).warnings slot c := by
  induction t using Forest.induction with
  | ambiguity m ts s ih =>
    rw [placed_ambiguity] at hfill ⊢
    obtain ⟨x, hx, hfill⟩ := fills_ambiguity_iff.mp hfill
    obtain ⟨y, hy, rfl⟩ := List.mem_map.mp (mem_of_mem_eraseDups hx)
    refine (ih y hy hfill).mono fun e he => ?_
    exact OrderedSet.mem_unions_map.mpr ⟨y, hy, he⟩
  | constant | application | grouping =>
    rw [placed_of_not_isAmbiguity (by simp [Forest.isAmbiguity])] at hfill ⊢
    rw [fills_iff_of_not_isAmbiguity (not_isAmbiguity_placedTree (by simp [Forest.isAmbiguity]))]
      at hfill
    subst hfill
    exact settled_placedTree hs hc

/-- What occurs in a placed tree is an ambiguity, occurs in the tree, or is a node that was made to
wrap something in it. -/
theorem occurs_placed (h : u.Occurs (placed names g slot t).tree) :
    u.isAmbiguity ∨ u.Occurs t ∨ ∃ d c, ¬c.isAmbiguity ∧ Wraps names g slot d c ∧
      (u = singletonTree d c ∨ u = .application () d.terminator [] c.span) := by
  induction t using Forest.induction with
  | ambiguity m ts s ih =>
    rw [placed_ambiguity] at h
    rcases Forest.occurs_iff.mp h with rfl | ⟨v, hv, hu⟩
    · exact .inl rfl
    · obtain ⟨x, hx, rfl⟩ := List.mem_map.mp (mem_of_mem_eraseDups hv)
      rcases ih x hx hu with ha | ho | hnew
      · exact .inl ha
      · exact .inr (.inl (.child hx ho))
      · exact .inr (.inr hnew)
  | constant | application | grouping =>
    rw [placed_of_not_isAmbiguity (by simp [Forest.isAmbiguity])] at h
    refine .inr ?_
    rcases placedTree_cases_wraps names g slot _ with hstay | ⟨d, hd, hnew⟩
    · rw [hstay] at h
      exact .inl h
    · rw [hnew] at h
      rcases occurs_singletonTree h with rfl | rfl | ho
      · exact .inr ⟨d, _, by simp [Forest.isAmbiguity], hd, .inl rfl⟩
      · exact .inr ⟨d, _, by simp [Forest.isAmbiguity], hd, .inr rfl⟩
      · exact .inl ho

theorem not_occupies_of_not_application (h : ∀ m p ts s, t ≠ .application m p ts s) :
    ¬Occupies names g slot c t := by
  intro ho
  cases ho with
  | slot => exact h _ _ _ _ rfl

/-- A new list has a list in its second slot, and the element in the first. -/
theorem settled_or_nested_singletonTree {d : ListDeclaration} {sort : SortName}
    (hna : ¬t.isAmbiguity) (hd : Wraps names g sort d t)
    (h : Occupies names g slot c (singletonTree d t)) :
    Settled names g w slot c ∨ Nested names g slot c (singletonTree d t) := by
  rw [singletonTree] at h
  cases h with
  | slot hs hp hx hfill =>
    rw [d.cons_slots] at hx
    rcases List.mem_cons.mp hx with he | hx
    · injection he with hslot he
      subst hslot he
      obtain rfl := (fills_iff_of_not_isAmbiguity hna).mp hfill
      exact .inr ⟨d, sort, hd, rfl, rfl⟩
    · obtain he := List.mem_singleton.mp hx
      injection he with hslot he
      subst hslot he
      obtain rfl := (fills_iff_of_not_isAmbiguity (by simp [Forest.isAmbiguity])).mp hfill
      exact .inl (.list (congrArg some d.terminator_sort) hs (g.subsorts.le_refl d.sort))

/-- In a completed tree every slot of a list sort is in order, except for the element of a new list
whose elements are lists themselves. -/
theorem settled_or_nested_completed (h : u.Occurs (completed names g t).tree)
    (ho : Occupies names g slot c u) (hc : c.production?.isSome) :
    Settled names g (completed names g t).warnings slot c ∨ Nested names g slot c u := by
  have all {w : Issues} {ts : List Tree} (ih : ∀ x ∈ ts, u.Occurs (completed names g x).tree →
      Settled names g (completed names g x).warnings slot c ∨ Nested names g slot c u)
      (hw : ∀ x ∈ ts, ∀ e ∈ (completed names g x).warnings, e ∈ w)
      {x : Tree} (hx : x ∈ ts) (hu : u.Occurs (completed names g x).tree) :
      Settled names g w slot c ∨ Nested names g slot c u := by
    rcases ih x hx hu with hsettled | hnested
    · exact .inl (hsettled.mono (hw x hx))
    · exact .inr hnested
  have below {ts : List Tree} : ∀ x ∈ ts, ∀ e ∈ (completed names g x).warnings,
      e ∈ OrderedSet.unions (ts.map fun x => (completed names g x).warnings) :=
    fun x hx e he => OrderedSet.mem_unions_map.mpr ⟨x, hx, he⟩
  induction t using Forest.induction with
  | constant m v p s =>
    rw [completed_constant] at h
    rcases Forest.occurs_iff.mp h with rfl | ⟨x, hx, -⟩
    · exact absurd ho (not_occupies_of_not_application (by simp))
    · cases hx
  | application m p ts s ih =>
    rw [completed_application] at h ⊢
    rcases Forest.occurs_iff.mp h with rfl | ⟨v, hv, hu⟩
    · cases ho with
      | slot hs hp hx hfill =>
        obtain ⟨y, hy, rfl⟩ := exists_of_mem_zip_map_zip hx
        have hplaced : slotted names g p slot y = placed names g slot (completed names g y).tree :=
          if_pos (by simp [hp, hs])
        rw [hplaced] at hfill
        refine .inl ((settled_of_fills_placed hs hfill hc).mono fun e he => ?_)
        rw [← hplaced] at he
        exact OrderedSet.mem_union.mpr (.inl (OrderedSet.mem_unions_map.mpr ⟨_, hy, he⟩))
    · obtain ⟨⟨sort, y⟩, he, rfl⟩ := List.mem_map.mp hv
      have hm := (List.of_mem_zip he).2
      rw [slotted, filled] at hu
      split at hu
      · rcases occurs_placed hu with ha | hin | ⟨d, x, hx, hwraps, rfl | rfl⟩
        · obtain ⟨m', us, s', rfl⟩ := Forest.isAmbiguity_iff.mp ha
          exact absurd ho (not_occupies_of_not_application (by simp))
        · exact all ih (fun x hx e he => OrderedSet.mem_union.mpr (.inr (below x hx e he))) hm hin
        · exact settled_or_nested_singletonTree hx hwraps ho
        · cases ho with
          | slot _ _ hx => simp at hx
      · exact all ih (fun x hx e he => OrderedSet.mem_union.mpr (.inr (below x hx e he))) hm hu
  | ambiguity m ts s ih =>
    rw [completed_ambiguity] at h ⊢
    rcases Forest.occurs_iff.mp h with rfl | ⟨v, hv, hu⟩
    · exact absurd ho (not_occupies_of_not_application (by simp))
    · obtain ⟨x, hx, rfl⟩ := List.mem_map.mp (mem_of_mem_eraseDups hv)
      exact all ih below hx hu
  | grouping m ts s ih =>
    rw [completed_grouping] at h ⊢
    rcases Forest.occurs_iff.mp h with rfl | ⟨v, hv, hu⟩
    · exact absurd ho (not_occupies_of_not_application (by simp))
    · obtain ⟨x, hx, rfl⟩ := List.mem_map.mp hv
      exact all ih below hx hu

/-- A constant that has nothing about it but its sort. -/
def bare (found : SortName) : Tree := .constant () .bracket ⟨found, [], none, ∅⟩ .unknown

theorem not_exempt_bare {found : SortName} {p : Production}
    (hp : (bare found).production? = some p) : ¬p.isBracket ∧ ¬p.isArrow := by
  obtain rfl := Option.some.inj hp
  have hbracket : Symbol.bracket ∉ (∅ : Attributes) := OrderedSet.not_mem_empty _
  simp [hbracket]

/-- The slot of a list sort holds a constant of some sort. -/
def bareElement (sort found : SortName) : Tree :=
  .application () (.subsort sort sort) [bare found] .unknown

theorem wellFormed_bareElement (sort found : SortName) : (bareElement sort found).WellFormed := by
  have hbare : (bare found).WellFormed :=
    Forest.everywhere_iff.mpr ⟨trivial, by simp [bare, Forest.items]⟩
  exact Forest.everywhere_iff.mpr ⟨rfl, List.forall_mem_singleton.mpr hbare⟩

theorem knownTo_bareElement {sort found : SortName} (h : .initial ≤ names)
    (hsort : sort.symbol ∈ names) (hfound : found.symbol ∈ names) :
    (bareElement sort found).KnownTo names := by
  have hbracket : Symbol.bracket ∈ names := SymbolTable.mem_of_le h (by decide)
  have hcontext : Symbol.unknownContext ∈ names := SymbolTable.mem_of_le h (by decide)
  have hbare : (bare found).KnownTo names := by
    refine Forest.everywhere_iff.mpr ⟨?_, by simp [bare, Forest.items]⟩
    exact List.forall_mem_cons.mpr ⟨hbracket, List.forall_mem_cons.mpr
      ⟨hcontext, List.forall_mem_singleton.mpr hfound⟩⟩
  refine Forest.everywhere_iff.mpr ⟨?_, List.forall_mem_singleton.mpr hbare⟩
  exact List.forall_mem_cons.mpr ⟨hcontext, List.forall_mem_cons.mpr
    ⟨hsort, List.forall_mem_singleton.mpr hsort⟩⟩

/-- A constant of a sort below that of the slot becomes a list, and nothing is warned of. -/
theorem completed_bareElement (names : SymbolTable) {sort found : SortName} {d : ListDeclaration}
    (hd : g.lists.firstFor sort = some d) (hlt : g.subsorts.lt found sort) (hany : found ≠ .any)
    (hlist : ¬g.isListSort found) :
    (completed names g (bareElement sort found)).tree =
        .application () (.subsort sort sort) [singletonTree d (bare found)] .unknown ∧
      ∀ e, e ∉ (completed names g (bareElement sort found)).warnings := by
  have hs : g.isListSort sort := ListCatalog.isSome_firstFor_iff.mp (by rw [hd]; rfl)
  have hplace : g.placement sort found ⟨found, [], none, ∅⟩ = .element d :=
    Grammar.placement_eq_element_iff.mpr ⟨fun h => hlist h.2, (not_exempt_bare rfl).1,
      (not_exempt_bare rfl).2, hany, hlt, hd⟩
  have hbare : completed names g (bare found) = ⟨bare found, ∅⟩ := completed_constant _ _ _ _
  have hslotted : slotted names g (.subsort sort sort) sort (bare found) =
      ⟨singletonTree d (bare found), ∅⟩ := by
    rw [slotted, hbare, filled, hs, placed_of_not_isAmbiguity (by simp [bare, Forest.isAmbiguity]),
      placedTree_of_element rfl rfl hplace]
    rfl
  rw [bareElement, completed_application]
  constructor
  · change Forest.application () _ [(slotted names g _ sort (bare found)).tree] _ = _
    rw [hslotted]
  · intro e he
    rcases OrderedSet.mem_union.mp he with he | he
    · obtain ⟨x, hx, he⟩ := OrderedSet.mem_unions_map.mp he
      obtain rfl : x = (sort, bare found) := List.mem_singleton.mp hx
      rw [hslotted] at he
      exact OrderedSet.not_mem_empty e he
    · obtain ⟨x, hx, he⟩ := OrderedSet.mem_unions_map.mp he
      rw [List.mem_singleton.mp hx, hbare] at he
      exact OrderedSet.not_mem_empty e he

/-- If the elements of the lists are expected to be lists, the slot of the constant is not in
order. -/
theorem not_slotsSettled_bareElement {sort found : SortName} {d : ListDeclaration}
    (hp : d.cons.expects names) (he : g.isListSort d.element) (hw : ∀ e, e ∉ w)
    (hlist : ¬g.isListSort found) :
    ¬SlotsSettled names g w
      (.application () (.subsort sort sort) [singletonTree d (bare found)] .unknown) := by
  intro h
  have hslot : (d.element, bare found) ∈ d.cons.slots.zip
      [bare found, .application () d.terminator [] (bare found).span] := by
    rw [d.cons_slots]
    exact List.mem_cons_self
  have hoccupies : Occupies names g d.element (bare found) (singletonTree d (bare found)) :=
    .slot he hp hslot (.self (by simp [bare, Forest.isAmbiguity]))
  have hsettled := h _ d.element (bare found) (.child List.mem_cons_self .refl) hoccupies rfl
  cases hsettled with
  | list hsort hf =>
    obtain rfl := Option.some.inj hsort
    exact hlist hf
  | escape hp he => exact he.elim (not_exempt_bare hp).1 (not_exempt_bare hp).2
  | wrapped _ hc => cases hc
  | warned _ hm => exact hw _ hm

end Completion

namespace Grammar

/-- Where the elements of a list sort are lists, no sorts are below the list sort but list sorts and
the sort of all terms. -/
def OnlyListsBelow (names : SymbolTable) (g : Grammar) : Prop :=
  ∀ sort d, g.lists.firstFor sort = some d → d.cons.expects names → g.isListSort d.element →
    ∀ found, g.subsorts.lt found sort → found = .any ∨ g.isListSort found

end Grammar

theorem Lattice.mem_sorts_of_lt {l : Lattice} {a b : SortName} (h : l.lt a b) : a ∈ l.sorts := by
  by_contra ha
  rw [lt, position?, List.idxOf?_eq_none_iff.mpr ha] at h
  cases h

namespace Ledger
variable {l k : Ledger} {t : Term} {g : Grammar}

/-- Completing a term puts every slot of a list sort in order, except that the element of a new list
may stand where another list sort is expected. -/
theorem completion_settles_slots (hg : g.KnownTo l.symbols) (ht : t ∈ l) (memo : Option Memo) :
    ∃ (o : Outcome) (u : Term), l.completion g memo t = .ok o ∧ o.result = .ok u ∧
      ∀ n slot c : _, n.Occurs u.tree → Completion.Occupies l.symbols g slot c n →
        c.production?.isSome → Completion.Settled l.symbols g o.warnings slot c ∨
          Completion.Nested l.symbols g slot c n := by
  obtain ⟨o, hrun, hmap⟩ := exists_completion_eq hg ht memo
  obtain ⟨u, hu, htree⟩ := Outcome.result_map_eq_ok_iff.mp (congrArg Outcome.result hmap)
  have hwarnings : o.warnings = (Completion.completed l.symbols g t.tree).warnings :=
    congrArg Outcome.warnings hmap
  refine ⟨o, u, hrun, hu, fun n slot c hn ho hc => ?_⟩
  rw [htree] at hn
  rw [hwarnings]
  exact Completion.settled_or_nested_completed hn ho hc

/-- Completion puts every slot of a list sort in order, whatever the term, if and only if lists of
lists have only lists below their sorts: the element of a new list is no list itself. -/
theorem completion_settles_slots_iff (hg : g.KnownTo l.symbols)
    (hs : ∀ s ∈ g.subsorts.sorts, s.symbol ∈ l.symbols) :
    (∀ (k : Ledger) (t : Term) (memo : Option Memo), l ≤ k → t ∈ k →
      ∃ (o : Outcome) (u : Term), k.completion g memo t = .ok o ∧ o.result = .ok u ∧
        Completion.SlotsSettled k.symbols g o.warnings u.tree) ↔ g.OnlyListsBelow l.symbols := by
  constructor
  · intro h sort d hd hp he found hlt
    by_contra hbad
    have hany : found ≠ .any := fun h => hbad (.inl h)
    have hlist : ¬g.isListSort found := fun h => hbad (.inr h)
    have hmem : d ∈ g.lists.declarations := List.mem_of_find?_eq_some hd
    have hsort : sort.symbol ∈ l.symbols := by
      rw [← ListCatalog.sort_of_firstFor hd, ← d.cons_sort]
      exact hg.cons d hmem _ List.mem_cons_self
    have hfound : found.symbol ∈ l.symbols := hs found (Lattice.mem_sorts_of_lt hlt)
    obtain ⟨k, t, hlk, hstores⟩ := exists_stores (Completion.wellFormed_bareElement sort found)
      (Completion.knownTo_bareElement l.reserved hsort hfound)
    obtain ⟨o, u, hrun, hu, hsettled⟩ := h k t none hlk hstores.mem
    obtain ⟨htree, hwarnings⟩ :=
      completed_of_completion (hg.of_le (symbols_le hlk)) hstores.mem hrun hu
    rw [hstores.tree_eq] at htree hwarnings
    obtain ⟨hbare, hnone⟩ := Completion.completed_bareElement k.symbols hd hlt hany hlist
    rw [← htree, ← hwarnings, hbare] at hsettled
    refine Completion.not_slotsSettled_bareElement ?_ he hnone hlist hsettled
    rw [Production.expects_of_le (symbols_le hlk) (hg.cons d hmem)]
    exact hp
  · intro hbelow k t memo hlk ht
    obtain ⟨o, u, hrun, hu, hall⟩ :=
      completion_settles_slots (hg.of_le (symbols_le hlk)) ht memo
    refine ⟨o, u, hrun, hu, fun n slot c hn ho hc => ?_⟩
    rcases hall n slot c hn ho hc with hsettled | ⟨d, sort, ⟨p, found, hp, hf, hplace⟩, rfl, rfl⟩
    · exact hsettled
    · obtain ⟨hnot, -, -, hany, hlt, hd⟩ := Grammar.placement_eq_element_iff.mp hplace
      cases ho with
      | slot he hexpects _ _ =>
        rw [Production.expects_of_le (symbols_le hlk)
          (hg.cons d (List.mem_of_find?_eq_some hd))] at hexpects
        rcases hbelow sort d hd hexpects he found hlt with hfa | hlist
        · exact absurd hfa hany
        · exact absurd ⟨Lattice.le_of_lt hlt, hlist⟩ hnot

/-- The sort of lists whose elements are lists. -/
def rowSort : SortName := ⟨⟨15⟩⟩

/-- Lists of lists: an element is below its list sort, and this is below the sort of rows. -/
def rowGrammar : Grammar where
  subsorts := ⟨[elementSort, listSort, rowSort], #[6, 4, 0], rfl⟩
  lists := listGrammar.lists.insert {
    sort := rowSort
    element := listSort
    terminator := ⟨rowSort, [], some ⟨⟨16⟩⟩, ∅⟩
    cons := ⟨rowSort, [.nonterminal listSort, .nonterminal rowSort], some ⟨⟨17⟩⟩, ∅⟩
    terminator_sort := rfl
    cons_sort := rfl
    terminator_arity := rfl
    cons_slots := rfl }
  labeled := []

def rowNames : Ledger := ["Rows", ".Rows", "_;_"].foldl intern listNames

/-- An element in a slot for rows becomes a row that holds the element and not a list of it. -/
theorem completion_settles_slots_iff_rows : ¬∀ (k : Ledger) (t : Term) (memo : Option Memo),
    rowNames ≤ k → t ∈ k → ∃ (o : Outcome) (u : Term), k.completion rowGrammar memo t = .ok o ∧
      o.result = .ok u ∧ Completion.SlotsSettled k.symbols rowGrammar o.warnings u.tree := by
  intro h
  have hg : rowGrammar.KnownTo rowNames.symbols := ⟨by decide, by decide, by decide⟩
  have hbelow := (completion_settles_slots_iff hg (by decide)).mp h
  have hfirst : (rowGrammar.lists.firstFor rowSort).isSome := by decide
  obtain ⟨d, hd⟩ := Option.isSome_iff_exists.mp hfirst
  have hcons : d.cons.expects rowNames.symbols ∧ rowGrammar.isListSort d.element := by
    obtain rfl := Option.some.inj hd
    decide
  rcases hbelow rowSort d hd hcons.1 hcons.2 elementSort (by decide) with hany | hlist
  · exact absurd hany (by decide)
  · exact absurd hlist (by decide)

end Ledger
end ParseForest
