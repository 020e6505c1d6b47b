import ParseForest.Completion
import ParseForest.Proofs.Joining

/-!
# What completion makes of a tree

Completion is a function of the tree of a term and of the table of symbols, in
which it looks up the labels that literals spell. A label that has to be interned
first has no productions, so it makes no difference that the table grows along
the way.
-/
namespace ParseForest

/-- A tree that a pass has made, and what it warns of. -/
structure Warned where
  tree : Tree
  warnings : Issues

/-- The production has slots in which lists are expected. -/
def Production.expects (names : SymbolTable) (p : Production) : Bool :=
  match p.expectsLists names with
  | .ok b => b
  | .error _ => false

/-- The symbols of all productions of the grammar are in the table. -/
structure Grammar.KnownTo (names : SymbolTable) (g : Grammar) : Prop where
  labeled : ∀ p ∈ g.labeled, p.KnownTo names
  cons : ∀ d ∈ g.lists.declarations, d.cons.KnownTo names
  terminator : ∀ d ∈ g.lists.declarations, d.terminator.KnownTo names

namespace Forest

/-- The label spelled by a label literal, if the table has the string. -/
def literal (names : SymbolTable) (t : Tree) : Option Label :=
  match t with
  | constant _ value production _ =>
      if production.sort = SortName.label then
        ((names.name? value).bind unquoted).bind fun name => (names.find? name).map Label.mk
      else none
  | _ => none

/-- The label that a tree applies, if the label is given as a literal. -/
def appliedLabel (names : SymbolTable) (t : Tree) : Option Label :=
  match t with
  | application _ production (operator :: _) _ =>
      if production.label = some Label.apply then operator.literal names else none
  | _ => none

end Forest

namespace Grammar
variable (g : Grammar) (names : SymbolTable)

/-- The sort by which a tree is judged in a slot. -/
def judgedSort (t : Tree) : Option SortName :=
  t.sort?.map fun sort => ((t.appliedLabel names).bind g.sortOf).getD sort

end Grammar

namespace Completion

/-- The list of one element. -/
def singletonTree (d : ListDeclaration) (t : Tree) : Tree :=
  .application () d.cons [t, .application () d.terminator [] t.span] t.span

section Trees
variable (names : SymbolTable) (g : Grammar)

/-- What becomes of a tree that is no ambiguity in the slot of a list sort. -/
def placedTree (slot : SortName) (t : Tree) : Warned :=
  match t.production?, g.judgedSort names t with
  | some p, some found =>
      match g.placement slot found p with
      | .keep => ⟨t, ∅⟩
      | .element d => ⟨singletonTree d t, ∅⟩
      | .misplaced => ⟨t, .singleton (.listSortExpected found slot t.span)⟩
  | _, _ => ⟨t, ∅⟩

def placedNode (slot : SortName) (t : Tree) (ws : List Warned) : Warned :=
  match t with
  | .ambiguity .. => ⟨t.withItems (ws.map Warned.tree), .unions (ws.map Warned.warnings)⟩
  | _ => placedTree names g slot t

/-- What becomes of a tree in the slot of a list sort. -/
def placed (slot : SortName) (t : Tree) : Warned := t.fold (placedNode names g slot)

/-- What becomes of a tree in a slot of the production. -/
def filled (p : Production) (slot : SortName) (t : Tree) : Warned :=
  if p.expects names && g.isListSort slot then placed names g slot t else ⟨t, ∅⟩

/-- What becomes of a tree whose children are complete. -/
def completedSlots (t : Tree) : Warned :=
  match t with
  | .application _ p items span =>
      let ws := (p.slots.zip items).map fun c => filled names g p c.1 c.2
      ⟨.application () p (ws.map Warned.tree) span, .unions (ws.map Warned.warnings)⟩
  | _ => ⟨t, ∅⟩

/-- What becomes of a node, given what becomes of its children. -/
def completedNode (t : Tree) (ws : List Warned) : Warned :=
  let slots := completedSlots names g (t.withItems (ws.map Warned.tree))
  ⟨slots.tree, slots.warnings ∪ .unions (ws.map Warned.warnings)⟩

def completed (t : Tree) : Warned := t.fold (completedNode names g)

/-- Completion never fails. -/
def completedOutcome (t : Tree) : Outcome Tree :=
  ⟨.ok (completed names g t).tree, (completed names g t).warnings⟩

end Trees
end Completion

namespace SymbolTable
variable {names later : SymbolTable}

theorem name?_of_le (h : names ≤ later) {s : Symbol} (hs : s ∈ names) :
    later.name? s = names.name? s := by
  obtain ⟨name, hn⟩ := mem_iff.mp hs
  rw [hn, h s name hn]

/-- A string that gets a symbol later gets a new one. -/
theorem find?_of_le (h : names ≤ later) (name : String) :
    later.find? name = names.find? name ∨
      names.find? name = none ∧ ∃ s, later.find? name = some s ∧ s ∉ names := by
  cases hf : names.find? name with
  | some s => exact .inl (find?_eq_some_iff.mpr (h s name (find?_eq_some_iff.mp hf)))
  | none =>
    cases hl : later.find? name with
    | none => exact .inl rfl
    | some s =>
      refine .inr ⟨rfl, s, rfl, fun hs => ?_⟩
      have hn := name?_of_le h hs
      rw [find?_eq_some_iff.mp hl] at hn
      rw [find?_eq_some_iff.mpr hn.symm] at hf
      cases hf

end SymbolTable

namespace Label
variable {names later : SymbolTable} {l : Label}

theorem exists_isCast_eq_ok (h : l.symbol ∈ names) : ∃ b, l.isCast names = .ok b := by
  obtain ⟨name, hn⟩ := SymbolTable.mem_iff.mp h
  unfold isCast
  rw [SymbolTable.resolve_eq_ok_iff.mpr hn]
  split
  · exact ⟨_, rfl⟩
  · exact ⟨_, rfl⟩

theorem isCast_of_le (h : names ≤ later) (hl : l.symbol ∈ names) :
    l.isCast later = l.isCast names := by
  unfold isCast
  rw [SymbolTable.resolve_of_le h hl]

end Label

namespace Production
variable {names later : SymbolTable} {p : Production}

theorem expectsLists_of_knownTo (h : p.KnownTo names) :
    p.expectsLists names = .ok (p.expects names) := by
  have hok : ∃ b, p.expectsLists names = .ok b := by
    unfold expectsLists
    split
    · rename_i l hl
      obtain ⟨b, hb⟩ := Label.exists_isCast_eq_ok (h.label hl)
      rw [hb]
      exact ⟨_, rfl⟩
    · exact ⟨true, rfl⟩
  obtain ⟨b, hb⟩ := hok
  rw [expects, hb]

theorem expects_of_le (h : names ≤ later) (hp : p.KnownTo names) :
    p.expects later = p.expects names := by
  have hlists : p.expectsLists later = p.expectsLists names := by
    unfold expectsLists
    split
    · rename_i l hl
      rw [Label.isCast_of_le h (hp.label hl)]
    · rfl
  rw [expects, expects, hlists]

end Production

namespace Grammar
variable {g : Grammar} {names later : SymbolTable}

theorem KnownTo.of_le (hg : g.KnownTo names) (h : names ≤ later) : g.KnownTo later :=
  ⟨fun p hp => (hg.labeled p hp).of_le h, fun d hd => (hg.cons d hd).of_le h,
    fun d hd => (hg.terminator d hd).of_le h⟩

/-- A label that is not in the table has no productions. -/
theorem KnownTo.sortOf_eq_none (hg : g.KnownTo names) {l : Label} (hl : l.symbol ∉ names) :
    g.sortOf l = none := by
  have hnone : g.productionsFor l = [] := by
    refine List.filter_eq_nil_iff.mpr fun p hp hpl => ?_
    exact hl ((hg.labeled p hp).label (beq_iff_eq.mp hpl))
  rw [sortOf, hnone]
  rfl

theorem KnownTo.judgedSort_of_le (hg : g.KnownTo names) (h : names ≤ later) {t : Tree}
    (ht : t.KnownTo names) : g.judgedSort later t = g.judgedSort names t := by
  have hliteral {u : Tree} (hu : u.KnownTo names) :
      (u.literal later).bind g.sortOf = (u.literal names).bind g.sortOf := by
    cases u with
    | constant m v p s =>
      have hv : v ∈ names := hu.self v (by simp [Forest.nodeSymbols])
      dsimp only [Forest.literal]
      rw [SymbolTable.name?_of_le h hv]
      split
      · cases (names.name? v).bind unquoted with
        | none => rfl
        | some name =>
          rw [Option.bind_some, Option.bind_some]
          rcases SymbolTable.find?_of_le h name with hf | ⟨hn, s, hs, hout⟩
          · rw [hf]
          · rw [hn, hs]
            exact hg.sortOf_eq_none hout
      · rfl
    | _ => rfl
  unfold judgedSort
  cases t with
  | application m p ts s =>
    cases ts with
    | nil => rfl
    | cons u ts =>
      have hu := hliteral (ht.of_mem_items (u := u) List.mem_cons_self)
      simp only [Forest.appliedLabel]
      split
      · rw [hu]
      · rfl
  | _ => rfl

end Grammar

namespace Completion
open Forest (Everywhere)
variable {names later : SymbolTable} {g : Grammar} {slot : SortName} {t : Tree}

theorem placed_ambiguity (m : Unit) (ts : List Tree) (s : Span) :
    placed names g slot (.ambiguity m ts s) =
      ⟨.ambiguity () (ts.map fun u => (placed names g slot u).tree).eraseDups s,
        .unions (ts.map fun u => (placed names g slot u).warnings)⟩ := by
  rw [placed, Forest.fold_eq]
  simp only [placedNode, Forest.items, List.map_map]
  rfl

theorem placed_of_not_isAmbiguity (h : ¬t.isAmbiguity) :
    placed names g slot t = placedTree names g slot t := by
  rw [placed, Forest.fold_eq]
  cases t with
  | ambiguity => exact absurd rfl h
  | _ => rfl

theorem completedSlots_application (m : Unit) (p : Production) (ts : List Tree) (s : Span) :
    completedSlots names g (.application m p ts s) =
      ⟨.application () p ((p.slots.zip ts).map fun c => (filled names g p c.1 c.2).tree) s,
        .unions ((p.slots.zip ts).map fun c => (filled names g p c.1 c.2).warnings)⟩ := by
  rw [completedSlots]
  simp only [List.map_map]
  rfl

theorem completedSlots_of_not_application (h : ∀ m p ts s, t ≠ .application m p ts s) :
    completedSlots names g t = ⟨t, ∅⟩ := by
  cases t with
  | application m p ts s => exact absurd rfl (h m p ts s)
  | _ => rfl

/-- A production that expects no lists leaves its slots alone. -/
theorem completedSlots_of_not_expects {m : Unit} {p : Production} {ts : List Tree} {s : Span}
    (hp : ¬p.expects names) (hlen : ts.length = p.arity) :
    completedSlots names g (.application m p ts s) = ⟨.application m p ts s, ∅⟩ := by
  have hf (c : SortName × Tree) : filled names g p c.1 c.2 = ⟨c.2, ∅⟩ := by
    rw [filled, if_neg (by simp [hp])]
  rw [completedSlots_application]
  simp only [hf]
  have hts : ((p.slots.zip ts).map fun c => c.2) = ts :=
    List.map_snd_zip (Nat.le_of_eq hlen)
  have hnone : OrderedSet.unions ((p.slots.zip ts).map fun _ => (∅ : Issues)) = ∅ :=
    OrderedSet.unions_map_eq_empty fun _ _ => rfl
  rw [hts, hnone]

theorem completed_eq (t : Tree) :
    completed names g t = completedNode names g t (t.items.map (completed names g)) :=
  Forest.fold_eq _ t

theorem exists_judgedSort (names : SymbolTable) (g : Grammar) {p : Production}
    (hp : t.production? = some p) : ∃ found, g.judgedSort names t = some found := by
  rw [Grammar.judgedSort, Forest.sort?, hp]
  exact ⟨_, rfl⟩

section Placement
variable {p : Production} {found : SortName}

theorem placedTree_of_keep (hp : t.production? = some p)
    (hf : g.judgedSort names t = some found) (h : g.placement slot found p = .keep) :
    placedTree names g slot t = ⟨t, ∅⟩ := by
  simp only [placedTree, hp, hf, h]

theorem placedTree_of_element {d : ListDeclaration} (hp : t.production? = some p)
    (hf : g.judgedSort names t = some found) (h : g.placement slot found p = .element d) :
    placedTree names g slot t = ⟨singletonTree d t, ∅⟩ := by
  simp only [placedTree, hp, hf, h]

theorem placedTree_of_misplaced (hp : t.production? = some p)
    (hf : g.judgedSort names t = some found) (h : g.placement slot found p = .misplaced) :
    placedTree names g slot t = ⟨t, .singleton (.listSortExpected found slot t.span)⟩ := by
  simp only [placedTree, hp, hf, h]

theorem placedTree_of_production?_eq_none (hp : t.production? = none) :
    placedTree names g slot t = ⟨t, ∅⟩ := by
  simp only [placedTree, hp]

end Placement

/-- A tree stays, becomes a list of the declaration that comes first, or is warned of. -/
theorem placedTree_cases (names : SymbolTable) (g : Grammar) (slot : SortName) (t : Tree) :
    placedTree names g slot t = ⟨t, ∅⟩ ∨
      (∃ d, g.lists.firstFor slot = some d ∧
        placedTree names g slot t = ⟨singletonTree d t, ∅⟩) ∨
      ∃ found, placedTree names g slot t =
        ⟨t, .singleton (.listSortExpected found slot t.span)⟩ := by
  cases hp : t.production? with
  | none => exact .inl (placedTree_of_production?_eq_none hp)
  | some p =>
    obtain ⟨found, hf⟩ := exists_judgedSort names g hp
    cases h : g.placement slot found p with
    | keep => exact .inl (placedTree_of_keep hp hf h)
    | element d =>
      have hd := (Grammar.placement_eq_element_iff.mp h).2.2.2.2.2
      exact .inr (.inl ⟨d, hd, placedTree_of_element hp hf h⟩)
    | misplaced => exact .inr (.inr ⟨found, placedTree_of_misplaced hp hf h⟩)

theorem application_or_ne (t : Tree) :
    (∃ m p ts s, t = .application m p ts s) ∨ ∀ m p ts s, t ≠ .application m p ts s := by
  cases t with
  | application m p ts s => exact .inl ⟨m, p, ts, s, rfl⟩
  | _ => exact .inr (by simp)

theorem withItems_ne_application (h : ∀ m p ts s, t ≠ .application m p ts s) (us : List Tree) :
    ∀ m p ts s, t.withItems us ≠ .application m p ts s := by
  intro m p ts s he
  cases t with
  | application m' p' ts' s' => exact h m' p' ts' s' rfl
  | _ => cases he

theorem completed_of_not_application (h : ∀ m p ts s, t ≠ .application m p ts s) :
    completed names g t = ⟨t.withItems (t.items.map fun u => (completed names g u).tree),
      .unions (t.items.map fun u => (completed names g u).warnings)⟩ := by
  rw [completed_eq, completedNode,
    completedSlots_of_not_application (withItems_ne_application h _)]
  simp only [List.map_map]
  exact congrArg (Warned.mk _) (OrderedSet.ext fun e => by simp)

/-- What becomes of a child in a slot of the production: it is completed and then placed. -/
def slotted (names : SymbolTable) (g : Grammar) (p : Production) (slot : SortName) (t : Tree) :
    Warned := filled names g p slot (completed names g t).tree

theorem completed_application (m : Unit) (p : Production) (ts : List Tree) (s : Span) :
    completed names g (.application m p ts s) =
      ⟨.application () p ((p.slots.zip ts).map fun c => (slotted names g p c.1 c.2).tree) s,
        .unions ((p.slots.zip ts).map fun c => (slotted names g p c.1 c.2).warnings) ∪
          .unions (ts.map fun u => (completed names g u).warnings)⟩ := by
  rw [completed_eq, completedNode, Forest.items, Forest.withItems_application,
    completedSlots_application, List.map_map, List.map_map, List.zip_map_right, List.map_map,
    List.map_map]
  rfl

theorem completed_constant (m : Unit) (v : Symbol) (p : Production) (s : Span) :
    completed names g (.constant m v p s) = ⟨.constant m v p s, ∅⟩ :=
  completed_of_not_application (by simp)

theorem completed_ambiguity (m : Unit) (ts : List Tree) (s : Span) :
    completed names g (.ambiguity m ts s) =
      ⟨.ambiguity () (ts.map fun u => (completed names g u).tree).eraseDups s,
        .unions (ts.map fun u => (completed names g u).warnings)⟩ :=
  completed_of_not_application (by simp)

theorem completed_grouping (m : Unit) (ts : List Tree) (s : Span) :
    completed names g (.grouping m ts s) =
      ⟨.grouping () (ts.map fun u => (completed names g u).tree) s,
        .unions (ts.map fun u => (completed names g u).warnings)⟩ :=
  completed_of_not_application (by simp)

theorem not_isAmbiguity_placedTree (h : ¬t.isAmbiguity) :
    ¬(placedTree names g slot t).tree.isAmbiguity := by
  rcases placedTree_cases names g slot t with hp | ⟨d, -, hp⟩ | ⟨found, hp⟩
  · rwa [hp]
  · rw [hp]
    simp [singletonTree, Forest.isAmbiguity]
  · rwa [hp]

theorem isAmbiguity_placed (slot : SortName) (t : Tree) :
    (placed names g slot t).tree.isAmbiguity = t.isAmbiguity := by
  by_cases h : t.isAmbiguity
  · obtain ⟨m, ts, s, rfl⟩ := Forest.isAmbiguity_iff.mp h
    rw [placed_ambiguity]
    rfl
  · rw [placed_of_not_isAmbiguity h, Bool.eq_false_iff.mpr h]
    exact Bool.eq_false_iff.mpr (not_isAmbiguity_placedTree h)

theorem isAmbiguity_filled (p : Production) (slot : SortName) (t : Tree) :
    (filled names g p slot t).tree.isAmbiguity = t.isAmbiguity := by
  unfold filled
  split
  · exact isAmbiguity_placed slot t
  · rfl

theorem isAmbiguity_completed (t : Tree) :
    (completed names g t).tree.isAmbiguity = t.isAmbiguity := by
  rcases application_or_ne t with ⟨m, p, ts, s, rfl⟩ | hna
  · rw [completed_application]
    rfl
  · rw [completed_of_not_application hna]
    exact Forest.isAmbiguity_withItems t _

/-- A tree that is placed is an empty marker only if it was one. -/
theorem isEmptyMarker_placed (slot : SortName) (t : Tree) :
    (placed names g slot t).tree.isEmptyMarker = t.isEmptyMarker := by
  cases t with
  | ambiguity =>
    rw [placed_ambiguity]
    rfl
  | grouping =>
    rw [placed_of_not_isAmbiguity (by simp [Forest.isAmbiguity]),
      placedTree_of_production?_eq_none rfl]
  | constant | application =>
    rw [placed_of_not_isAmbiguity (by simp [Forest.isAmbiguity])]
    rcases placedTree_cases names g slot _ with hp | ⟨d, -, hp⟩ | ⟨found, hp⟩
    · rw [hp]
    · rw [hp]
      rfl
    · rw [hp]

theorem isEmptyMarker_completed (t : Tree) :
    (completed names g t).tree.isEmptyMarker = t.isEmptyMarker := by
  cases t with
  | constant => rw [completed_constant]
  | application =>
    rw [completed_application]
    rfl
  | ambiguity =>
    rw [completed_ambiguity]
    rfl
  | grouping m ts s =>
    rw [completed_grouping]
    cases ts <;> rfl

/-- The slots of a tree, as an outcome: completing them never fails. -/
def slotsOutcome (names : SymbolTable) (g : Grammar) (t : Tree) : Outcome Tree :=
  ⟨.ok (completedSlots names g t).tree, (completedSlots names g t).warnings⟩

theorem joined_completedOutcome (t : Tree) : t.joined (t.items.map (completedOutcome names g)) =
    ⟨.ok (t.withItems (t.items.map fun u => (completed names g u).tree)),
      .unions (t.items.map fun u => (completed names g u).warnings)⟩ :=
  Forest.joined_of_ok t (fun u => (completed names g u).tree) fun u =>
    (completed names g u).warnings

theorem completedOutcome_eq (t : Tree) : completedOutcome names g t =
    (t.joined (t.items.map (completedOutcome names g))).followedBy (slotsOutcome names g) := by
  rw [joined_completedOutcome, Outcome.followedBy_of_ok rfl, completedOutcome, completed_eq]
  simp only [completedNode, List.map_map]
  rfl

theorem completedOutcome_of_not_application (h : ∀ m p ts s, t ≠ .application m p ts s) :
    completedOutcome names g t = t.joined (t.items.map (completedOutcome names g)) := by
  rw [joined_completedOutcome, completedOutcome, completed_of_not_application h]

section Keeps
variable {P : Tree → Prop}

/-- What holds everywhere in a tree holds everywhere in the list of the tree, if it holds of the two
new nodes. -/
theorem everywhere_singletonTree {d : ListDeclaration} (hlist : P (singletonTree d t))
    (hleaf : P (.application () d.terminator [] t.span)) (ht : Everywhere P t) :
    Everywhere P (singletonTree d t) := by
  have hterminator : Everywhere P (.application () d.terminator [] t.span) :=
    Forest.everywhere_iff.mpr ⟨hleaf, by simp [Forest.items]⟩
  refine Forest.everywhere_iff.mpr ⟨hlist, ?_⟩
  exact List.forall_mem_cons.mpr ⟨ht, List.forall_mem_singleton.mpr hterminator⟩

/-- What completion does to each node keeps the property. The items of a node that is no application
are replaced one by one, empty markers by empty markers and other items by other items. -/
structure Keeps (names : SymbolTable) (g : Grammar) (P : Tree → Prop) : Prop where
  singleton : ∀ {slot d t}, g.lists.firstFor slot = some d → ¬t.isAmbiguity → Everywhere P t →
    Everywhere P (singletonTree d t)
  withItems : ∀ {t : Tree} {us : List Tree}, (∀ m p ts s, t ≠ .application m p ts s) →
    us.map Forest.isEmptyMarker = t.items.map Forest.isEmptyMarker → P t → P (t.withItems us)
  application : ∀ {m p ts s}, P (.application m p ts s) →
    P (completed names g (.application m p ts s)).tree

theorem Keeps.placed (h : Keeps names g P) (ht : Everywhere P t) :
    Everywhere P (placed names g slot t).tree := by
  induction t using Forest.induction with
  | ambiguity m ts s ih =>
    rw [placed_ambiguity]
    have hmarkers : (ts.map fun u => (Completion.placed names g slot u).tree).map
        Forest.isEmptyMarker = ts.map Forest.isEmptyMarker := by simp [isEmptyMarker_placed]
    refine Forest.everywhere_iff.mpr
      ⟨h.withItems (by simp) hmarkers ht.self, fun u hu => ?_⟩
    obtain ⟨v, hv, rfl⟩ := List.mem_map.mp (mem_of_mem_eraseDups hu)
    exact ih v hv (ht.of_mem_items hv)
  | constant | application | grouping =>
    rw [placed_of_not_isAmbiguity (by simp [Forest.isAmbiguity])]
    rcases placedTree_cases names g slot _ with hp | ⟨d, hd, hp⟩ | ⟨found, hp⟩
    · rwa [hp]
    · rw [hp]
      exact h.singleton hd (by simp [Forest.isAmbiguity]) ht
    · rwa [hp]

theorem Keeps.filled {p : Production} (h : Keeps names g P) (ht : Everywhere P t) :
    Everywhere P (filled names g p slot t).tree := by
  unfold Completion.filled
  split
  · exact h.placed ht
  · exact ht

/-- What holds everywhere in a tree holds everywhere in the completed tree. -/
theorem Keeps.completed (h : Keeps names g P) (ht : Everywhere P t) :
    Everywhere P (completed names g t).tree := by
  induction t using Forest.items_induction with
  | node t ih =>
    rcases application_or_ne t with ⟨m, p, ts, s, rfl⟩ | hna
    · have hnode := h.application ht.self
      rw [completed_application] at hnode ⊢
      refine Forest.everywhere_iff.mpr ⟨hnode, fun u hu => ?_⟩
      obtain ⟨c, hc, rfl⟩ := List.mem_map.mp hu
      have hm := (List.of_mem_zip hc).2
      exact h.filled (ih c.2 hm (ht.of_mem_items hm))
    · have hmarkers : (t.items.map fun u => (Completion.completed names g u).tree).map
          Forest.isEmptyMarker = t.items.map Forest.isEmptyMarker := by
        simp [isEmptyMarker_completed]
      rw [completed_of_not_application hna]
      refine Forest.everywhere_iff.mpr
        ⟨h.withItems hna hmarkers ht.self, fun u hu => ?_⟩
      obtain ⟨v, hv, rfl⟩ := List.mem_map.mp (Forest.mem_of_mem_items_withItems hu)
      exact ih v hv (ht.of_mem_items hv)

end Keeps

/-- Completion brings in no symbols but those of the grammar. -/
theorem keeps_knownTo (hg : g.KnownTo names) :
    Keeps names g fun u => ∀ s ∈ u.nodeSymbols, s ∈ names where
  singleton {slot d t} hd _ ht := by
    have hcontext : t.span.context ∈ names := Forest.KnownTo.context ht
    have hm := List.mem_of_find?_eq_some hd
    exact everywhere_singletonTree (List.forall_mem_cons.mpr ⟨hcontext, hg.cons d hm⟩)
      (List.forall_mem_cons.mpr ⟨hcontext, hg.terminator d hm⟩) ht
  withItems {t us} _ _ ht := by
    cases t <;> exact ht
  application ht := by
    rw [completed_application]
    exact ht

theorem knownTo_completed (hg : g.KnownTo names) (ht : t.KnownTo names) :
    (completed names g t).tree.KnownTo names := (keeps_knownTo hg).completed ht

theorem placedTree_of_le (hg : g.KnownTo names) (h : names ≤ later) (ht : t.KnownTo names) :
    placedTree later g slot t = placedTree names g slot t := by
  unfold placedTree
  rw [hg.judgedSort_of_le h ht]

theorem placed_of_le (hg : g.KnownTo names) (h : names ≤ later) (ht : t.KnownTo names) :
    placed later g slot t = placed names g slot t := by
  induction t using Forest.induction with
  | ambiguity m ts s ih =>
    have hts : ∀ u ∈ ts, placed later g slot u = placed names g slot u :=
      fun u hu => ih u hu (ht.of_mem_items hu)
    have htrees := List.map_congr_left fun u hu => congrArg Warned.tree (hts u hu)
    have hwarnings := List.map_congr_left fun u hu => congrArg Warned.warnings (hts u hu)
    rw [placed_ambiguity, placed_ambiguity, htrees, hwarnings]
  | _ =>
    rw [placed_of_not_isAmbiguity (by simp [Forest.isAmbiguity]),
      placed_of_not_isAmbiguity (by simp [Forest.isAmbiguity])]
    exact placedTree_of_le hg h ht

theorem filled_of_le {p : Production} (hg : g.KnownTo names) (h : names ≤ later)
    (hp : p.KnownTo names) (ht : t.KnownTo names) :
    filled later g p slot t = filled names g p slot t := by
  unfold filled
  rw [Production.expects_of_le h hp, placed_of_le hg h ht]

theorem completedSlots_of_le (hg : g.KnownTo names) (h : names ≤ later) (ht : t.KnownTo names) :
    completedSlots later g t = completedSlots names g t := by
  cases t with
  | application m p ts s =>
    have hmap : ((p.slots.zip ts).map fun c => filled later g p c.1 c.2) =
        (p.slots.zip ts).map fun c => filled names g p c.1 c.2 := by
      refine List.map_congr_left fun c hc => ?_
      exact filled_of_le hg h (ht.production rfl) (ht.of_mem_items (List.of_mem_zip hc).2)
    rw [completedSlots, completedSlots, hmap]
  | _ => rfl

theorem completed_of_le (hg : g.KnownTo names) (h : names ≤ later) (ht : t.KnownTo names) :
    completed later g t = completed names g t := by
  induction t using Forest.items_induction with
  | node t ih =>
    have hts : t.items.map (completed later g) = t.items.map (completed names g) :=
      List.map_congr_left fun u hu => ih u hu (ht.of_mem_items hu)
    have hwalked : (t.withItems ((t.items.map (completed names g)).map Warned.tree)).KnownTo
        names := by
      refine ht.withItems fun u hu => ?_
      rw [List.map_map] at hu
      obtain ⟨v, hv, rfl⟩ := List.mem_map.mp hu
      exact knownTo_completed hg (ht.of_mem_items hv)
    rw [completed_eq, completed_eq, hts, completedNode, completedNode,
      completedSlots_of_le hg h hwalked]

end Completion
end ParseForest
