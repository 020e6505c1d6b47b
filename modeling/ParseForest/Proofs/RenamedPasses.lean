import ParseForest.Proofs.Renaming

/-!
# Renaming and the passes

Cleaning and completion make of a tree with other symbols what they make of the
tree, with other symbols. Cleaning only compares symbols. Completion also looks
strings up, so it has to be given the table of the other symbols.
-/
namespace ParseForest

/-- The result with other symbols. -/
def renameResult {α : Type} (rename : α → α) (ρ : Symbol → Symbol) :
    Except Failures α → Except Failures α
  | .ok a => .ok (rename a)
  | .error f => .error (f.rename ρ)

def Outcome.rename (ρ : Symbol → Symbol) (o : Outcome Tree) : Outcome Tree :=
  ⟨renameResult (Forest.rename ρ) ρ o.result, o.warnings.image (Issue.rename ρ)⟩

section Results
variable {α β : Type} {ρ : Symbol → Symbol}

theorem renameResult_map {rename : α → α} {rename' : β → β} {f f' : α → β}
    (h : ∀ a, f' (rename a) = rename' (f a)) (r : Except Failures α) :
    (renameResult rename ρ r).map f' = renameResult rename' ρ (r.map f) := by
  cases r with
  | ok a => exact congrArg Except.ok (h a)
  | error => rfl

theorem Failures.rename_singleton (e : Issue) :
    (singleton e).rename ρ = singleton (e.rename ρ) := by
  refine Failures.ext fun x => ?_
  change x ∈ (OrderedSet.singleton e).image (Issue.rename ρ) ↔ _
  rw [OrderedSet.image_singleton]
  rfl

theorem Failures.ofIssues?_image (es : Issues) :
    ofIssues? (es.image (Issue.rename ρ)) = (ofIssues? es).map (Failures.rename ρ) := by
  cases hf : ofIssues? es with
  | none =>
    rw [ofIssues?_eq_none_iff.mp hf]
    rfl
  | some f =>
    refine ofIssues?_eq_some_iff.mpr ?_
    rw [← ofIssues?_eq_some_iff.mp hf]
    rfl

theorem Outcome.rename_followedBy {o : Outcome Tree} {f f' : Tree → Outcome Tree}
    (h : ∀ t, f' (t.rename ρ) = (f t).rename ρ) :
    (o.rename ρ).followedBy f' = (o.followedBy f).rename ρ := by
  cases hr : o.result with
  | ok t =>
    have hr' : (o.rename ρ).result = .ok (t.rename ρ) := by rw [Outcome.rename, hr, renameResult]
    rw [followedBy_of_ok hr, followedBy_of_ok hr', h, mergeWarnings, mergeWarnings,
      Outcome.rename, Outcome.rename, Outcome.rename, OrderedSet.image_union]
  | error f =>
    have hr' : (o.rename ρ).result = .error (f.rename ρ) := by
      rw [Outcome.rename, hr, renameResult]
    rw [followedBy_of_error hr, followedBy_of_error hr']

end Results

namespace Forest
variable {ρ : Symbol → Symbol}

theorem reasons_rename (rs : List (Except Failures Tree)) :
    reasons (rs.map (renameResult (rename ρ) ρ)) = (reasons rs).image (Issue.rename ρ) := by
  rw [reasons, reasons, OrderedSet.image_unions, List.map_map, List.map_map]
  refine congrArg OrderedSet.unions (List.map_congr_left fun r _ => ?_)
  cases r <;> rfl

theorem successes_rename (rs : List (Except Failures Tree)) :
    successes (rs.map (renameResult (rename ρ) ρ)) = (successes rs).map (rename ρ) := by
  rw [successes, successes, List.filterMap_map, List.map_filterMap]
  refine List.filterMap_congr fun r _ => ?_
  cases r <;> rfl

theorem allOf_rename (rs : List (Except Failures Tree)) :
    allOf (rs.map (renameResult (rename ρ) ρ)) =
      renameResult (List.map (rename ρ)) ρ (allOf rs) := by
  rw [allOf, allOf, reasons_rename, successes_rename, Failures.ofIssues?_image]
  cases Failures.ofIssues? (reasons rs) <;> rfl

theorem someOf_rename (rs : List (Except Failures Tree)) :
    someOf (rs.map (renameResult (rename ρ) ρ)) =
      renameResult (List.map (rename ρ)) ρ (someOf rs) := by
  rw [someOf, someOf, reasons_rename, successes_rename, Failures.ofIssues?_image]
  cases successes rs <;> cases Failures.ofIssues? (reasons rs) <;> rfl

theorem bundled_rename {together together' : List Tree → Tree} {s : Span} (ts : List Tree)
    (h : together' (ts.map (rename ρ)) = (together ts).rename ρ) :
    bundled together' (s.rename ρ) (ts.map (rename ρ)) = (bundled together s ts).rename ρ := by
  match ts with
  | [] => rfl
  | [_] => rfl
  | _ :: _ :: _ => exact h

theorem filter_proper_rename (ts : List Tree) :
    ((ts.map (rename ρ)).filter fun t => !t.isEmptyMarker) =
      (ts.filter fun t => !t.isEmptyMarker).map (rename ρ) := by
  rw [List.filter_map]
  simp only [Function.comp_def, isEmptyMarker_rename]

/-- To tidy up a tree with other symbols is to tidy it up, with other symbols. -/
theorem tidied_rename (h : Function.Injective ρ) (t : Tree) :
    (t.rename ρ).tidied = renameResult (rename ρ) ρ t.tidied := by
  have all {ts : List Tree} (ih : ∀ u ∈ ts, (u.rename ρ).tidied =
      renameResult (rename ρ) ρ u.tidied) : (ts.map (rename ρ)).map tidied =
        (ts.map tidied).map (renameResult (rename ρ) ρ) := by
    rw [List.map_map, List.map_map]
    exact List.map_congr_left ih
  induction t using Forest.induction with
  | constant => rfl
  | application m p ts s ih =>
    cases hl : p.label with
    | some l =>
      have hl' : (p.rename ρ).label = some (l.rename ρ) := congrArg (Option.map _) hl
      rw [rename_application, tidied, tidied, tidiedAll_eq, tidiedAll_eq, all ih, hl, hl']
      dsimp only
      rw [allOf_rename]
      exact renameResult_map (fun us => (rename_application () p us s).symm) _
    | none =>
      have hl' : (p.rename ρ).label = none := congrArg (Option.map _) hl
      by_cases hlen : ts.length = 1
      · obtain ⟨u, rfl⟩ := List.length_eq_one_iff.mp hlen
        rw [rename_application, tidied, tidied, tidiedAll_eq, tidiedAll_eq, all ih, hl, hl']
        rfl
      · have hlen' : (ts.map (rename ρ)).length ≠ 1 := by rwa [List.length_map]
        rw [rename_application, tidied_unlabeled_of_length_ne hl hlen,
          tidied_unlabeled_of_length_ne hl' hlen', List.length_map, renameResult,
          Failures.rename_singleton]
        rfl
  | ambiguity m ts s ih =>
    rw [rename_ambiguity, tidied, tidied, tidiedAll_eq, tidiedAll_eq, all ih, someOf_rename]
    refine renameResult_map (fun us => ?_) _
    rw [eraseDups_map_rename h, filter_proper_rename]
    exact bundled_rename _ (rename_ambiguity () _ s).symm
  | grouping m ts s ih =>
    rw [rename_grouping, tidied, tidied, tidiedAll_eq, tidiedAll_eq, all ih, allOf_rename]
    refine renameResult_map (fun us => ?_) _
    rw [filter_proper_rename]
    exact bundled_rename _ (rename_grouping () _ s).symm

theorem cleaned_rename (h : Function.Injective ρ) (t : Tree) :
    (t.rename ρ).cleaned = t.cleaned.rename ρ := by
  have hresult : (t.rename ρ).cleaned.result = (t.cleaned.rename ρ).result := by
    rw [result_cleaned, tidied_rename h, Outcome.rename, result_cleaned]
  have hwarnings : (t.rename ρ).cleaned.warnings = (t.cleaned.rename ρ).warnings := by
    rw [warnings_cleaned, Outcome.rename, warnings_cleaned]
    rfl
  exact congrArg₂ Outcome.mk hresult hwarnings

end Forest

/-- What is made, with other symbols. -/
def Warned.rename (ρ : Symbol → Symbol) (w : Warned) : Warned :=
  ⟨w.tree.rename ρ, w.warnings.image (Issue.rename ρ)⟩

def Placement.rename (ρ : Symbol → Symbol) : Placement → Placement
  | keep => keep
  | element d => element (d.rename ρ)
  | misplaced => misplaced

section Tables
variable {ρ : Symbol → Symbol} {names other : SymbolTable} {g : Grammar} {p : Production}
  {slot : SortName} {t : Tree}

theorem SortName.rename_eq_iff_of_reserved (h : names.Translates ρ other) {s r : SortName}
    (hr : r.symbol ∈ Symbol.reserved.map Prod.fst) : s.rename ρ = r ↔ s = r := by
  obtain ⟨s⟩ := s
  obtain ⟨r⟩ := r
  simp only [rename, SortName.mk.injEq, h.eq_reserved_iff hr]

theorem Label.rename_eq_iff_of_reserved (h : names.Translates ρ other) {l r : Label}
    (hr : r.symbol ∈ Symbol.reserved.map Prod.fst) : l.rename ρ = r ↔ l = r := by
  obtain ⟨l⟩ := l
  obtain ⟨r⟩ := r
  simp only [rename, Label.mk.injEq, h.eq_reserved_iff hr]

namespace Production

theorem isBracket_rename (h : names.Translates ρ other) : (p.rename ρ).isBracket = p.isBracket := by
  rw [Bool.eq_iff_iff, isBracket_iff, isBracket_iff, rename, OrderedSet.mem_image]
  have hreserved (s : Symbol) : ρ s = Symbol.bracket ↔ s = Symbol.bracket :=
    h.eq_reserved_iff (by decide)
  simp only [hreserved, exists_eq_right]

theorem label_rename_eq_some_iff (h : names.Translates ρ other) {r : Label}
    (hr : r.symbol ∈ Symbol.reserved.map Prod.fst) :
    (p.rename ρ).label = some r ↔ p.label = some r := by
  rw [rename, Option.map_eq_some_iff]
  simp only [Label.rename_eq_iff_of_reserved h hr, exists_eq_right]

theorem isArrow_rename (h : names.Translates ρ other) : (p.rename ρ).isArrow = p.isArrow := by
  rw [Bool.eq_iff_iff, isArrow_iff, isArrow_iff, label_rename_eq_some_iff h (by decide)]

theorem expects_rename (h : names.Translates ρ other) :
    (p.rename ρ).expects other = p.expects names := by
  have hcast (l : Label) : l.symbol = Symbol.syntacticCast ∨ l.symbol = Symbol.innerCast ↔
      (l.rename ρ).symbol = Symbol.syntacticCast ∨ (l.rename ρ).symbol = Symbol.innerCast := by
    rw [Label.rename, h.eq_reserved_iff (by decide), h.eq_reserved_iff (by decide)]
  have harrow (l : Label) : (l.rename ρ).isArrow = l.isArrow := by
    rw [Bool.eq_iff_iff, Label.isArrow_iff, Label.isArrow_iff,
      Label.rename_eq_iff_of_reserved h (by decide)]
  unfold expects expectsLists
  cases hl : p.label with
  | none =>
    have hl' : (p.rename ρ).label = none := congrArg (Option.map _) hl
    rw [hl']
  | some l =>
    have hl' : (p.rename ρ).label = some (l.rename ρ) := congrArg (Option.map _) hl
    simp only [hl', harrow, Label.isCast, ← hcast]
    by_cases hc : l.symbol = Symbol.syntacticCast ∨ l.symbol = Symbol.innerCast
    · rw [if_pos hc, if_pos hc]
    · rw [if_neg hc, if_neg hc, SymbolTable.resolve, SymbolTable.resolve, Label.rename, h.name?_eq]
      cases names.name? l.symbol <;> rfl

end Production

namespace Lattice
variable {l : Lattice} {a b : SortName}

theorem lt_rename (h : Function.Injective ρ) :
    (l.rename ρ).lt (a.rename ρ) (b.rename ρ) = l.lt a b := by
  have position (s : SortName) : (l.rename ρ).position? (s.rename ρ) = l.position? s := by
    rw [position?, position?, rename, List.idxOf?, List.idxOf?, List.findIdx?_map]
    simp only [Function.comp_def, (SortName.rename_injective h).beq_eq]
  rw [lt, lt, position, position]
  rfl

theorem le_rename (h : Function.Injective ρ) :
    (l.rename ρ).le (a.rename ρ) (b.rename ρ) = l.le a b := by
  rw [le, le, lt_rename h, (SortName.rename_injective h).beq_eq]

theorem greatest_rename (h : Function.Injective ρ) (sorts : List SortName) :
    (l.rename ρ).greatest (sorts.map (SortName.rename ρ)) =
      (l.greatest sorts).map (SortName.rename ρ) := by
  have better (a b : SortName) : (l.rename ρ).better (a.rename ρ) (b.rename ρ) =
      (l.better a b).rename ρ := by
    unfold Lattice.better ge
    rw [le_rename h]
    split <;> rfl
  cases sorts with
  | nil => rfl
  | cons s rest =>
    have hfold : (rest.map (SortName.rename ρ)).foldl (l.rename ρ).better (s.rename ρ) =
        (rest.foldl l.better s).rename ρ := by
      rw [List.foldl_map]
      exact (List.foldl_hom (SortName.rename ρ) fun a b => better a b)
    have hall : (((s :: rest).map (SortName.rename ρ)).all
        ((l.rename ρ).ge ((rest.foldl l.better s).rename ρ))) =
          (s :: rest).all (l.ge (rest.foldl l.better s)) := by
      rw [List.all_map]
      exact congrArg (List.all (s :: rest)) (funext fun x => le_rename h)
    rw [List.map_cons] at hall ⊢
    simp only [greatest, hfold, hall]
    split <;> rfl

end Lattice

namespace Grammar

theorem firstFor_rename (h : Function.Injective ρ) (s : SortName) :
    (g.rename ρ).lists.firstFor (s.rename ρ) =
      (g.lists.firstFor s).map (ListDeclaration.rename ρ) := by
  unfold ListCatalog.firstFor
  rw [rename, List.find?_map]
  simp only [Function.comp_def, ListDeclaration.rename, (SortName.rename_injective h).beq_eq]

theorem isListSort_rename (h : Function.Injective ρ) (s : SortName) :
    (g.rename ρ).isListSort (s.rename ρ) = g.isListSort s := by
  rw [Bool.eq_iff_iff, isListSort, isListSort, ← ListCatalog.isSome_firstFor_iff,
    ← ListCatalog.isSome_firstFor_iff, firstFor_rename h, Option.isSome_map]

theorem sortOf_rename (h : Function.Injective ρ) (l : Label) :
    (g.rename ρ).sortOf (l.rename ρ) = (g.sortOf l).map (SortName.rename ρ) := by
  have hproductions : (g.rename ρ).productionsFor (l.rename ρ) =
      (g.productionsFor l).map (Production.rename ρ) := by
    unfold productionsFor
    have hlabel (p : Production) :
        ((p.rename ρ).label == some (l.rename ρ)) = (p.label == some l) := by
      rw [Bool.eq_iff_iff, beq_iff_eq, beq_iff_eq]
      exact (Option.map_injective (Label.rename_injective h)).eq_iff (b := some l)
    rw [rename, List.filter_map]
    simp only [Function.comp_def, hlabel]
  rw [sortOf, sortOf, hproductions, ← Lattice.greatest_rename h, List.map_map, List.map_map]
  rfl

theorem placement_rename (h : names.Translates ρ other) (found : SortName) (p : Production) :
    (g.rename ρ).placement (slot.rename ρ) (found.rename ρ) (p.rename ρ) =
      (g.placement slot found p).rename ρ := by
  have hany : (found.rename ρ == SortName.any) = (found == SortName.any) := by
    rw [Bool.eq_iff_iff, beq_iff_eq, beq_iff_eq,
      SortName.rename_eq_iff_of_reserved h (by decide)]
  unfold placement
  rw [isListSort_rename h.injective, firstFor_rename h.injective, Production.isBracket_rename h,
    Production.isArrow_rename h, hany]
  simp only [rename, Lattice.le_rename h.injective, Lattice.lt_rename h.injective]
  split
  · rfl
  · split
    · rfl
    · split
      · rfl
      · cases g.lists.firstFor slot <;> rfl

/-- The sort by which a tree is judged is renamed with it. -/
theorem judgedSort_rename (h : names.Translates ρ other) (t : Tree) :
    (g.rename ρ).judgedSort other (t.rename ρ) =
      (g.judgedSort names t).map (SortName.rename ρ) := by
  have hliteral (u : Tree) :
      (u.rename ρ).literal other = (u.literal names).map (Label.rename ρ) := by
    cases u with
    | constant m v p s =>
      have hsort : (p.rename ρ).sort = SortName.label ↔ p.sort = SortName.label :=
        SortName.rename_eq_iff_of_reserved h (by decide)
      simp only [Forest.rename, Forest.literal, hsort, h.name?_eq, h.find?_eq]
      split
      · cases (names.name? v).bind unquoted with
        | none => rfl
        | some name => simp only [Option.bind_some, Option.map_map]; rfl
      · rfl
    | _ => rfl
  have happlied : (t.rename ρ).appliedLabel other =
      (t.appliedLabel names).map (Label.rename ρ) := by
    cases t with
    | application m p ts s =>
      rw [Forest.rename_application]
      cases ts with
      | nil => rfl
      | cons u ts =>
        simp only [List.map_cons, Forest.appliedLabel,
          Production.label_rename_eq_some_iff h (r := Label.apply) (by decide), hliteral]
        split <;> rfl
    | _ => rfl
  have hsort : (t.rename ρ).sort? = t.sort?.map (SortName.rename ρ) := by
    rw [Forest.sort?, Forest.sort?, Forest.production?_rename, Option.map_map, Option.map_map]
    rfl
  have hbind : ((t.rename ρ).appliedLabel other).bind (g.rename ρ).sortOf =
      ((t.appliedLabel names).bind g.sortOf).map (SortName.rename ρ) := by
    rw [happlied]
    cases t.appliedLabel names with
    | none => rfl
    | some l => exact sortOf_rename h.injective l
  rw [judgedSort, judgedSort, hsort, hbind, Option.map_map, Option.map_map]
  cases t.sort? with
  | none => rfl
  | some sort => cases (t.appliedLabel names).bind g.sortOf <;> rfl

end Grammar

namespace Completion

theorem singletonTree_rename (d : ListDeclaration) (t : Tree) :
    singletonTree (d.rename ρ) (t.rename ρ) = (singletonTree d t).rename ρ := by
  rw [singletonTree, singletonTree, Forest.rename_application, Forest.span_rename]
  rfl

theorem placedTree_rename (h : names.Translates ρ other) (slot : SortName) (t : Tree) :
    placedTree other (g.rename ρ) (slot.rename ρ) (t.rename ρ) =
      (placedTree names g slot t).rename ρ := by
  cases hp : t.production? with
  | none =>
    have hp' : (t.rename ρ).production? = none := by rw [Forest.production?_rename, hp]; rfl
    rw [placedTree_of_production?_eq_none hp, placedTree_of_production?_eq_none hp']
    rfl
  | some p =>
    have hp' : (t.rename ρ).production? = some (p.rename ρ) := by
      rw [Forest.production?_rename, hp]
      rfl
    obtain ⟨found, hf⟩ := exists_judgedSort names g hp
    have hf' : (g.rename ρ).judgedSort other (t.rename ρ) = some (found.rename ρ) := by
      rw [Grammar.judgedSort_rename h, hf]
      rfl
    have hplace : (g.rename ρ).placement (slot.rename ρ) (found.rename ρ) (p.rename ρ) =
        (g.placement slot found p).rename ρ := Grammar.placement_rename h found p
    cases hg : g.placement slot found p with
    | keep =>
      rw [hg] at hplace
      rw [placedTree_of_keep hp hf hg, placedTree_of_keep hp' hf' hplace]
      rfl
    | element d =>
      rw [hg] at hplace
      rw [placedTree_of_element hp hf hg, placedTree_of_element hp' hf' hplace,
        singletonTree_rename]
      rfl
    | misplaced =>
      rw [hg] at hplace
      rw [placedTree_of_misplaced hp hf hg, placedTree_of_misplaced hp' hf' hplace, Warned.rename,
        OrderedSet.image_singleton, Forest.span_rename]
      rfl

/-- The trees and the warnings that are made of the members of a list. -/
theorem map_rename_warned {α : Type} {f f' : α → Warned} {xs : List α}
    (h : ∀ x ∈ xs, f' x = (f x).rename ρ) :
    (xs.map fun x => (f' x).tree) = (xs.map fun x => (f x).tree).map (Forest.rename ρ) ∧
      .unions (xs.map fun x => (f' x).warnings) =
        (OrderedSet.unions (xs.map fun x => (f x).warnings)).image (Issue.rename ρ) := by
  rw [OrderedSet.image_unions, List.map_map, List.map_map]
  exact ⟨List.map_congr_left fun x hx => congrArg Warned.tree (h x hx),
    congrArg OrderedSet.unions (List.map_congr_left fun x hx => congrArg Warned.warnings (h x hx))⟩

theorem placed_rename (h : names.Translates ρ other) (slot : SortName) (t : Tree) :
    placed other (g.rename ρ) (slot.rename ρ) (t.rename ρ) = (placed names g slot t).rename ρ := by
  induction t using Forest.induction with
  | ambiguity m ts s ih =>
    obtain ⟨htrees, hwarnings⟩ := map_rename_warned ih
    rw [Forest.rename_ambiguity, placed_ambiguity, placed_ambiguity, List.map_map, List.map_map,
      Warned.rename, Forest.rename_ambiguity, ← Forest.eraseDups_map_rename h.injective, ← htrees,
      ← hwarnings]
    rfl
  | _ =>
    rw [placed_of_not_isAmbiguity (by simp [Forest.isAmbiguity, Forest.rename]),
      placed_of_not_isAmbiguity (by simp [Forest.isAmbiguity])]
    exact placedTree_rename h slot _

theorem filled_rename (h : names.Translates ρ other) (p : Production) (slot : SortName)
    (t : Tree) : filled other (g.rename ρ) (p.rename ρ) (slot.rename ρ) (t.rename ρ) =
      (filled names g p slot t).rename ρ := by
  rw [filled, filled, Production.expects_rename h, Grammar.isListSort_rename h.injective]
  split
  · exact placed_rename h slot t
  · rfl

/-- Completion makes of a tree with other symbols what it makes of the tree, with other symbols. -/
theorem completed_rename (h : names.Translates ρ other) (t : Tree) :
    completed other (g.rename ρ) (t.rename ρ) = (completed names g t).rename ρ := by
  induction t using Forest.induction with
  | constant => rw [Forest.rename, completed_constant, completed_constant]; rfl
  | application m p ts s ih =>
    obtain ⟨-, hwarnings⟩ := map_rename_warned ih
    have hslots : ∀ c ∈ p.slots.zip ts,
        slotted other (g.rename ρ) (p.rename ρ) (c.1.rename ρ) (c.2.rename ρ) =
          (slotted names g p c.1 c.2).rename ρ := by
      intro c hc
      rw [slotted, ih c.2 (List.of_mem_zip hc).2]
      exact filled_rename h p c.1 _
    obtain ⟨hslotted, hslotWarnings⟩ := map_rename_warned hslots
    rw [Forest.rename_application, completed_application, completed_application,
      Production.slots_rename, List.zip_map, List.map_map, List.map_map, List.map_map,
      Warned.rename, Forest.rename_application, OrderedSet.image_union, ← hslotted,
      ← hslotWarnings, ← hwarnings]
    rfl
  | ambiguity m ts s ih =>
    obtain ⟨htrees, hwarnings⟩ := map_rename_warned ih
    rw [Forest.rename_ambiguity, completed_ambiguity, completed_ambiguity, List.map_map,
      List.map_map, Warned.rename, Forest.rename_ambiguity,
      ← Forest.eraseDups_map_rename h.injective, ← htrees, ← hwarnings]
    rfl
  | grouping m ts s ih =>
    obtain ⟨htrees, hwarnings⟩ := map_rename_warned ih
    rw [Forest.rename_grouping, completed_grouping, completed_grouping, List.map_map,
      List.map_map, Warned.rename, Forest.rename_grouping, ← htrees, ← hwarnings]
    rfl

end Completion

/-- To disambiguate a tree with other symbols, by a grammar with other symbols, is to disambiguate
it, with other symbols. -/
theorem Forest.disambiguated_rename (h : names.Translates ρ other) (t : Tree) :
    (t.rename ρ).disambiguated other (g.rename ρ) = (t.disambiguated names g).rename ρ := by
  rw [disambiguated, disambiguated, cleaned_rename h.injective]
  refine Outcome.rename_followedBy fun u => ?_
  rw [Completion.completedOutcome, Completion.completed_rename h]
  rfl

end Tables

end ParseForest
