import ParseForest.Proofs.CompletedReadings

/-!
# Where completion inserts lists

Completion changes a tree in slots of list sorts only, where it makes a list of
one of each element that it finds there. So its result is given by a recursion
over the tree. A node of the result is new only where the tree has changed:
completion drops alternatives and adds applications, and neither can make up for
the other.
-/
namespace ParseForest
namespace Completion

section Trees
variable (names : SymbolTable) (g : Grammar)

/-- In a slot of the list sort, the tree stands for the list of which it is the only element. Its
sort is strictly below the list sort, but neither that of all terms nor of lists itself, and its
production is neither a bracket nor an arrow. -/
def isElement (slot : SortName) (t : Tree) : Bool :=
  match t.production?, g.judgedSort names t with
  | some p, some found => !p.isBracket && !p.isArrow &&
      (g.subsorts.lt found slot && found != .any && !g.isListSort found)
  | _, _ => false

mutual

/-- The tree with a list in place of each element that is reached through ambiguities. -/
def listed (slot : SortName) (d : ListDeclaration) : Tree → Tree
  | .ambiguity _ items span => .ambiguity () (listedAll slot d items).eraseDups span
  | t => if isElement names g slot t then singletonTree d t else t

def listedAll (slot : SortName) (d : ListDeclaration) : List Tree → List Tree
  | [] => []
  | t :: ts => listed slot d t :: listedAll slot d ts

end

/-- What a tree becomes in a slot of the production. -/
def slotImage (p : Production) (slot : SortName) (t : Tree) : Tree :=
  match p.expects names, g.lists.firstFor slot with
  | true, some d => listed names g slot d t
  | _, _ => t

mutual

/-- The tree with lists inserted. -/
def image : Tree → Tree
  | .constant _ value production span => .constant () value production span
  | .application _ production items span =>
      .application () production
        (List.zipWith (slotImage names g production) production.slots (imageAll items)) span
  | .ambiguity _ items span => .ambiguity () (imageAll items).eraseDups span
  | .grouping _ items span => .grouping () (imageAll items) span

def imageAll : List Tree → List Tree
  | [] => []
  | t :: ts => image t :: imageAll ts

end
end Trees

variable {names : SymbolTable} {g : Grammar} {slot : SortName} {d : ListDeclaration} {t : Tree}

@[simp] theorem listedAll_eq (ts : List Tree) :
    listedAll names g slot d ts = ts.map (listed names g slot d) := by
  induction ts with
  | nil => rfl
  | cons t ts ih => rw [listedAll, ih, List.map_cons]

@[simp] theorem imageAll_eq (ts : List Tree) : imageAll names g ts = ts.map (image names g) := by
  induction ts with
  | nil => rfl
  | cons t ts ih => rw [imageAll, ih, List.map_cons]

theorem listed_of_not_isAmbiguity (h : ¬t.isAmbiguity) :
    listed names g slot d t = if isElement names g slot t then singletonTree d t else t := by
  cases t with
  | ambiguity => exact absurd rfl h
  | _ => rw [listed]; simp

theorem isElement_iff {p : Production} {found : SortName} (hp : t.production? = some p)
    (hf : g.judgedSort names t = some found) (hd : g.lists.firstFor slot = some d) :
    isElement names g slot t ↔ g.placement slot found p = .element d := by
  simp only [isElement, hp, hf, Grammar.placement_eq_element_iff, hd, Bool.and_eq_true,
    Bool.not_eq_true', bne_iff_ne]
  grind [Lattice.le_of_lt]

theorem tree_placedTree_eq (hd : g.lists.firstFor slot = some d) :
    (placedTree names g slot t).tree =
      if isElement names g slot t then singletonTree d t else t := by
  cases hp : t.production? with
  | none =>
    rw [placedTree_of_production?_eq_none hp, isElement, hp]
    rfl
  | some p =>
    obtain ⟨found, hf⟩ := exists_judgedSort names g hp
    have hiff := isElement_iff hp hf hd
    split
    · rename_i he
      rw [placedTree_of_element hp hf (hiff.mp he)]
    · rename_i he
      cases hplace : g.placement slot found p with
      | keep => rw [placedTree_of_keep hp hf hplace]
      | misplaced => rw [placedTree_of_misplaced hp hf hplace]
      | element e =>
        have hde : g.lists.firstFor slot = some e :=
          (Grammar.placement_eq_element_iff.mp hplace).2.2.2.2.2
        obtain rfl := Option.some.inj (hd.symm.trans hde)
        exact absurd (hiff.mpr hplace) he

theorem tree_placed_eq_listed (hd : g.lists.firstFor slot = some d) :
    (placed names g slot t).tree = listed names g slot d t := by
  induction t using Forest.induction with
  | ambiguity m ts s ih =>
    rw [placed_ambiguity, listed, listedAll_eq, List.map_congr_left ih]
  | constant | application | grouping =>
    have ha : ∀ {u : Tree}, ¬u.isAmbiguity →
        (placed names g slot u).tree = listed names g slot d u := fun h => by
      rw [placed_of_not_isAmbiguity h, tree_placedTree_eq hd, listed_of_not_isAmbiguity h]
    exact ha (by simp [Forest.isAmbiguity])

theorem tree_filled_eq_slotImage (p : Production) :
    (filled names g p slot t).tree = slotImage names g p slot t := by
  unfold filled slotImage
  cases he : p.expects names with
  | false => rfl
  | true =>
    cases hd : g.lists.firstFor slot with
    | none =>
      have hs : ¬g.isListSort slot := by
        rw [Grammar.isListSort, ← ListCatalog.isSome_firstFor_iff, hd]
        simp
      simp [hs]
    | some d =>
      have hs : g.isListSort slot := by
        rw [Grammar.isListSort, ← ListCatalog.isSome_firstFor_iff, hd]
        rfl
      simp [hs, tree_placed_eq_listed hd]

/-- What completion makes of a tree is the tree with lists inserted. -/
theorem tree_completed_eq_image (t : Tree) : (completed names g t).tree = image names g t := by
  induction t using Forest.induction with
  | constant m v p s =>
    rw [completed_constant, image]
  | application m p ts s ih =>
    have hslots : ((p.slots.zip ts).map fun c => (slotted names g p c.1 c.2).tree) =
        (p.slots.zip ts).map fun c => slotImage names g p c.1 (image names g c.2) :=
      List.map_congr_left fun c hc => by
        rw [slotted, tree_filled_eq_slotImage, ih c.2 (List.of_mem_zip hc).2]
    rw [completed_application, image, imageAll_eq, hslots, List.map_zip_eq_zipWith,
      List.zipWith_map_right]
    rfl
  | ambiguity m ts s ih =>
    rw [completed_ambiguity, image, imageAll_eq, List.map_congr_left ih]
  | grouping m ts s ih =>
    rw [completed_grouping, image, imageAll_eq, List.map_congr_left ih]

end Completion

namespace Forest
variable {ι : Type}

mutual

/-- Number of alternatives of all ambiguities; those that occur several times count as often. -/
def alternatives : Forest ι → Nat
  | constant .. => 0
  | application _ _ items _ | grouping _ items _ => allAlternatives items
  | ambiguity _ items _ => items.length + allAlternatives items

/-- Number of alternatives in all members of a list. -/
def allAlternatives : List (Forest ι) → Nat
  | [] => 0
  | t :: ts => t.alternatives + allAlternatives ts

end

theorem allAlternatives_le_of_sublist {ts us : List (Forest ι)} (h : ts.Sublist us) :
    allAlternatives ts ≤ allAlternatives us := by
  induction h with
  | slnil => exact Nat.le_refl _
  | cons u _ ih => exact Nat.le_trans ih (Nat.le_add_left _ _)
  | cons_cons u _ ih => exact Nat.add_le_add_left ih _

theorem alternatives_tree (t : Forest ι) : t.tree.alternatives = t.alternatives := by
  have all {ts : List (Forest ι)} (ih : ∀ u ∈ ts, u.tree.alternatives = u.alternatives) :
      allAlternatives (ts.map tree) = allAlternatives ts := by
    induction ts with
    | nil => rfl
    | cons u ts ihs =>
      rw [List.map_cons, allAlternatives, allAlternatives, ih u List.mem_cons_self,
        ihs fun v hv => ih v (List.mem_cons_of_mem u hv)]
  induction t using Forest.induction with
  | constant => rfl
  | application m p ts s ih => rw [tree_application, alternatives, alternatives, all ih]
  | ambiguity m ts s ih =>
    rw [tree_ambiguity, alternatives, alternatives, all ih, List.length_map]
  | grouping m ts s ih => rw [tree_grouping, alternatives, alternatives, all ih]

end Forest

namespace Ledger
open Forest (alternatives allAlternatives sizes)
variable {l : Ledger} {g : Grammar} {t u v : Term} {ts us vs : List Term}

/-- The second node is another one only if it has fewer alternatives, or just as many and more
nodes. -/
def Outgrown (t u : Term) : Prop :=
  u = t ∨ u.alternatives < t.alternatives ∨ u.alternatives = t.alternatives ∧ t.size < u.size

theorem Outgrown.refl (t : Term) : Outgrown t t := .inl rfl

theorem Outgrown.trans (htu : Outgrown t u) (huv : Outgrown u v) : Outgrown t v := by
  rcases htu with rfl | htu
  · exact huv
  rcases huv with rfl | huv
  · exact .inr htu
  · exact .inr (by omega)

/-- Another node has another tree. -/
theorem Outgrown.tree_ne (h : Outgrown t u) (hne : u ≠ t) : u.tree ≠ t.tree := by
  intro htree
  have halternatives := congrArg alternatives htree
  have hsize := congrArg Forest.size htree
  rw [Forest.alternatives_tree, Forest.alternatives_tree] at halternatives
  rw [Forest.size_tree, Forest.size_tree] at hsize
  rcases h with h | h
  · exact hne h
  · omega

theorem outgrown_items (h : List.Forall₂ Outgrown ts us) :
    us = ts ∨ allAlternatives us < allAlternatives ts ∨
      allAlternatives us = allAlternatives ts ∧ sizes ts < sizes us := by
  induction h with
  | nil => exact .inl rfl
  | cons h _ ih =>
    simp only [allAlternatives, sizes]
    rcases h with rfl | h <;> rcases ih with rfl | ih
    · exact .inl rfl
    · exact .inr (by omega)
    · exact .inr (by omega)
    · exact .inr (by omega)

/-- A node is outgrown if it is rebuilt from what outgrows its items. -/
theorem Outgrown.of_rebuilt (hus : List.Forall₂ Outgrown t.items us) (hu : t.Rebuilt us u) :
    Outgrown t u := by
  rcases hu with ⟨-, rfl⟩ | ⟨hne, m, rfl⟩
  · exact .refl u
  have hitems := (outgrown_items hus).resolve_left hne
  refine .inr ?_
  cases t with
  | constant => exact absurd (List.forall₂_nil_left_iff.mp hus) hne
  | application | grouping =>
    simp only [Forest.renewed, Forest.items, alternatives, Forest.size] at hitems ⊢
    omega
  | ambiguity n ts s =>
    have hsub := eraseDups_sublist us
    have hlen : us.length = ts.length := hus.length_eq.symm
    simp only [Forest.renewed, Forest.items, alternatives, Forest.size] at hitems ⊢
    rcases Nat.lt_or_eq_of_le hsub.length_le with hlt | heq
    · have hle := Forest.allAlternatives_le_of_sublist hsub
      omega
    · rw [hsub.eq_of_length heq]
      omega

/-- What becomes of a node in the slot of a list sort. An ambiguity is made anew only if its tree
changes. -/
inductive Refitted (g : Grammar) : Term → Term → Prop
  | kept (t : Term) : Refitted g t t
  | listed {slot : SortName} {d : ListDeclaration} {t : Term} (m n : Tag) :
      g.lists.firstFor slot = some d → ¬t.isAmbiguity →
      Refitted g t (.application m d.cons [t, .application n d.terminator [] t.span] t.span)
  | merged {t : Term} {us : List Term} (m : Tag) : List.Forall₂ (Refitted g) t.items us →
      (t.renewed m us).tree ≠ t.tree → Refitted g t (t.renewed m us)

/-- What completion makes of a node: its items are completed and then put into their slots. A node
is made anew only if its tree changes. -/
inductive Reworked (g : Grammar) : Term → Term → Prop
  | kept (t : Term) : Reworked g t t
  | renewed {t : Term} {us vs : List Term} (m : Tag) : List.Forall₂ (Reworked g) t.items us →
      List.Forall₂ (Refitted g) us vs → (t.renewed m vs).tree ≠ t.tree →
      Reworked g t (t.renewed m vs)

/-- A node that is reworked into its own tree stays the very same node. -/
theorem Reworked.eq_of_tree_eq (h : Reworked g t u) (htree : u.tree = t.tree) : u = t := by
  cases h with
  | kept => rfl
  | renewed m _ _ hne => exact absurd htree hne

theorem placingRules_refitted : PlacingRules g fun t u => Refitted g t u ∧ Outgrown t u where
  stays t := ⟨.kept t, .refl t⟩
  listed {slot d t m n} hd ha := by
    refine ⟨.listed m n hd ha, .inr (.inr ?_)⟩
    simp only [alternatives, allAlternatives, Forest.size, sizes]
    omega
  ambiguity {m ts s us u} hus hu := by
    have hgrown : Outgrown (.ambiguity m ts s) u := .of_rebuilt (hus.imp fun _ _ h => h.2) hu
    refine ⟨?_, hgrown⟩
    by_cases hsame : u = .ambiguity m ts s
    · exact hsame ▸ .kept _
    · obtain ⟨-, n, rfl⟩ := hu.resolve_left fun h => hsame h.2
      exact .merged n (hus.imp fun _ _ h => h.1) (hgrown.tree_ne hsame)

theorem completionRules_reworked :
    CompletionRules (fun t u => Refitted g t u ∧ Outgrown t u)
      fun t u => Reworked g t u ∧ Outgrown t u where
  walked {t us u} _ hus hu := by
    have hgrown : Outgrown t u := .of_rebuilt (hus.imp fun _ _ h => h.2) hu
    refine ⟨?_, hgrown⟩
    by_cases hsame : u = t
    · exact hsame ▸ .kept _
    · obtain ⟨-, n, rfl⟩ := hu.resolve_left fun h => hsame h.2
      exact .renewed n (hus.imp fun _ _ h => h.1) (List.forall₂_same.mpr fun v _ => .kept v)
        (hgrown.tree_ne hsame)
  slots {m p ts s us w vs v} hus hw hvs hv := by
    have hgrown : Outgrown (.application m p ts s) v :=
      (Outgrown.of_rebuilt (hus.imp fun _ _ h => h.2) hw).trans
        (.of_rebuilt (hvs.imp fun _ _ h => h.2) hv)
    refine ⟨?_, hgrown⟩
    obtain ⟨n, rfl⟩ := Forest.exists_of_rebuilt_application hw
    obtain ⟨k, rfl⟩ := Forest.exists_of_rebuilt_application hv
    by_cases hsame : (.application k p vs s : Term) = .application m p ts s
    · exact hsame ▸ .kept _
    · exact .renewed (t := .application m p ts s) k (hus.imp fun _ _ h => h.1)
        (hvs.imp fun _ _ h => h.1) (hgrown.tree_ne hsame)

/-- Completion succeeds with the tree in which lists are inserted. It makes new nodes only where
this changes something, so a term in which nothing changes stays the very same node. -/
theorem completion_inserts_lists (hg : g.KnownTo l.symbols) (ht : t ∈ l) (memo : Option Memo) :
    ∃ o u, l.completion g memo t = .ok o ∧ o.result = .ok u ∧
      u.tree = Completion.image l.symbols g t.tree ∧ Reworked g t u ∧
        (u = t ↔ Completion.image l.symbols g t.tree = t.tree) := by
  obtain ⟨o, s, k, hrun, hlk, -, ho⟩ := ensures_complete placingRules_refitted
    completionRules_reworked hg ht ⟨l.session, memo, ()⟩ ⟨le_refl l, rfl⟩
  have hmap := congrArg Outcome.result ho.tree_eq
  rw [Completion.completedOutcome, Completion.completed_of_le hg (symbols_le hlk)
    (knownTo_tree_of_le ht (le_refl l)), Completion.tree_completed_eq_image] at hmap
  obtain ⟨u, hu, htree⟩ := Outcome.result_map_eq_ok_iff.mp hmap
  obtain ⟨hworked, -⟩ := ho.holds u hu
  refine ⟨o, u, ?_, hu, htree, hworked, ?_, fun himage => ?_⟩
  · rw [completion, StateT.run'_eq, hrun]
    rfl
  · rintro rfl
    exact htree.symm
  · exact hworked.eq_of_tree_eq (htree.trans himage)

/-- The lone element of a list, which is made a list, next to an empty list, which stays. -/
def listOfElement : Tree :=
  .application () ofList
    [.ambiguity () [.application () listCons [element, .application () listEnd [] .unknown] .unknown,
      .application () listEnd [] .unknown] .unknown] .unknown

theorem completion_inserts_lists_loneElement : ∃ (l : Ledger) (t : Term), t ∈ l ∧
    t.tree = loneElement ∧ ∃ (o : Outcome) (u : Term), l.completion listGrammar none t = .ok o ∧
      o.result = .ok u ∧ u.tree = listOfElement ∧ Reworked listGrammar t u ∧ u ≠ t := by
  obtain ⟨l, t, hl, ht, htree⟩ :=
    exists_stores (l := listNames) (r := loneElement) (by decide) (by decide)
  have hg : listGrammar.KnownTo l.symbols := knownTo_listGrammar.of_le (symbols_le hl)
  obtain ⟨o, u, ho, hu, himage, hworked, hsame⟩ := completion_inserts_lists hg ht none
  have hlist : Completion.image l.symbols listGrammar loneElement = listOfElement := by
    rw [← Completion.tree_completed_eq_image,
      Completion.completed_of_le knownTo_listGrammar (symbols_le hl) (by decide)]
    rfl
  rw [htree, hlist] at himage hsame
  refine ⟨l, t, ht, htree, o, u, ho, hu, himage, hworked, fun h => ?_⟩
  have hsize := congrArg Forest.size (hsame.mp h)
  exact absurd hsize (by decide)

end Ledger
end ParseForest
