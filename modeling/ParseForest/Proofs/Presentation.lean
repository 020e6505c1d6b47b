import ParseForest.Proofs.CompletedReadings
import ParseForest.Proofs.Declared
import ParseForest.Proofs.Disambiguated

/-!
# Grammars that are written down differently

Completion reads a grammar through three questions only: whether a sort is below
another, which sort a label has, and which declaration comes first for a list sort.
The answers do not depend on the order in which things are declared, or on how
often they are, so neither does disambiguation: written down in different ways, a
grammar makes the same nodes of a term, with the same numbers.
-/
namespace ParseForest
namespace Grammar

/-- Whatever completion asks about a grammar, the other one answers as well. -/
structure Alike (g h : Grammar) : Prop where
  lt_eq : ∀ a b, g.subsorts.lt a b = h.subsorts.lt a b
  sortOf_eq : ∀ l, g.sortOf l = h.sortOf l
  firstFor_eq : ∀ s, g.lists.firstFor s = h.lists.firstFor s

namespace Alike
variable {g h : Grammar} {slot : SortName}

theorem isListSort_eq (hgh : g.Alike h) (s : SortName) : g.isListSort s = h.isListSort s := by
  rw [Bool.eq_iff_iff, isListSort, isListSort, ← ListCatalog.isSome_firstFor_iff,
    ← ListCatalog.isSome_firstFor_iff, hgh.firstFor_eq]

theorem placement_eq (hgh : g.Alike h) (found : SortName) (p : Production) :
    g.placement slot found p = h.placement slot found p := by
  unfold placement Lattice.le
  rw [hgh.lt_eq, hgh.isListSort_eq, hgh.firstFor_eq]

theorem effectiveSort_eq (hgh : g.Alike h) (t : Term) : g.effectiveSort t = h.effectiveSort t := by
  have hsort : g.sortOf = h.sortOf := funext hgh.sortOf_eq
  unfold effectiveSort
  rw [hsort]

theorem placeTerm_eq (hgh : g.Alike h) (t : Term) :
    Completion.placeTerm g slot t = Completion.placeTerm h slot t := by
  simp only [Completion.placeTerm, hgh.effectiveSort_eq, hgh.placement_eq]

theorem place_eq (hgh : g.Alike h) (t : Term) :
    Completion.place g slot t = Completion.place h slot t := by
  have all (ts : List Term)
      (ih : ∀ u ∈ ts, Completion.place g slot u = Completion.place h slot u) :
      Completion.placeAll g slot ts = Completion.placeAll h slot ts := by
    induction ts with
    | nil => rfl
    | cons u ts ihts =>
      obtain ⟨hu, hts⟩ := List.forall_mem_cons.mp ih
      rw [Completion.placeAll, Completion.placeAll, hu, ihts hts]
  induction t using Forest.induction with
  | ambiguity m ts s ih => rw [Completion.place, Completion.place, all ts ih]
  | constant | application | grouping =>
    rw [Completion.place, Completion.place, hgh.placeTerm_eq] <;> simp

theorem fill_eq (hgh : g.Alike h) (t : Term) :
    Completion.fill g slot t = Completion.fill h slot t := by
  unfold Completion.fill
  rw [hgh.isListSort_eq, hgh.place_eq]

theorem completeNode_eq (hgh : g.Alike h) (t : Term) :
    Completion.completeNode g t = Completion.completeNode h t := by
  cases t with
  | application => simp only [Completion.completeNode, hgh.fill_eq]
  | _ => rfl

theorem completer_eq {σ : Type} (hgh : g.Alike h) :
    (Transformer.completer g : Transformer σ) = .completer h := by
  refine congrArg Transformer.mk (funext fun self => funext fun t => ?_)
  cases t with
  | application => simp only [Completion.step, hgh.completeNode_eq]
  | _ => rfl

/-- Disambiguation does the same by both grammars, down to the numbers of nodes. -/
theorem disambiguate_eq (hgh : g.Alike h) (t : Term) (config : PassConfig) :
    disambiguate g t config = disambiguate h t config := by
  unfold disambiguate complete
  rw [hgh.completer_eq]

end Alike
end Grammar

/-- How a grammar is written down. -/
structure Presentation where
  /-- Sorts and pairs of sorts, in the order of their declaration. -/
  declarations : List SortDeclaration
  /-- Declarations of list sorts, in the order in which they are added. -/
  lists : List ListDeclaration
  /-- Productions in the order in which they are added, batch by batch. -/
  batches : List (List Production)

namespace Presentation

/-- The grammar that is written down, unless its subsorts form a cycle. -/
def grammar (p : Presentation) : Except LatticeError Grammar :=
  (SortDeclarations.ofSequence p.declarations).build.map fun subsorts =>
    p.batches.foldl Grammar.withProductions (.ofSorts subsorts (.ofList p.lists))

/-- Some production has the label and the sort. -/
def Produces (p : Presentation) (l : Label) (s : SortName) : Prop :=
  ∃ batch ∈ p.batches, ∃ x ∈ batch, x.label = some l ∧ x.sort = s

/-- The same is written down: the same order of sorts, the same sorts for each label, and for each
list sort the same declaration comes first. -/
structure Equivalent (p q : Presentation) : Prop where
  closure : ∀ a b, Relation.ReflTransGen (SortDeclarations.Pairs p.declarations) a b ↔
    Relation.ReflTransGen (SortDeclarations.Pairs q.declarations) a b
  produces : ∀ l s, p.Produces l s ↔ q.Produces l s
  first : ∀ s, (p.lists.find? fun d => d.sort == s) = q.lists.find? fun d => d.sort == s

variable {p q : Presentation} {g h : Grammar}

theorem mem_labeled_foldl {batches : List (List Production)} {x : Production} :
    x ∈ (batches.foldl Grammar.withProductions g).labeled ↔
      x ∈ g.labeled ∨ ∃ batch ∈ batches, x ∈ batch ∧ x.label.isSome := by
  induction batches generalizing g with
  | nil => simp
  | cons batch batches ih =>
    rw [List.foldl_cons, ih, Grammar.withProductions, List.mem_append, List.mem_filter, or_assoc]
    simp only [List.mem_cons, exists_eq_or_imp]

theorem mem_productionsFor_foldl {batches : List (List Production)} {l : Label} {x : Production} :
    x ∈ (batches.foldl Grammar.withProductions g).productionsFor l ↔
      x ∈ g.productionsFor l ∨ ∃ batch ∈ batches, x ∈ batch ∧ x.label = some l := by
  unfold Grammar.productionsFor
  simp only [List.mem_filter, mem_labeled_foldl, beq_iff_eq]
  grind

theorem foldl_withProductions (batches : List (List Production)) (g : Grammar) :
    (batches.foldl Grammar.withProductions g).subsorts = g.subsorts ∧
      (batches.foldl Grammar.withProductions g).lists = g.lists := by
  induction batches generalizing g with
  | nil => exact ⟨rfl, rfl⟩
  | cons batch batches ih => exact ih (g.withProductions batch)

theorem build_of_grammar (hg : p.grammar = .ok g) :
    (SortDeclarations.ofSequence p.declarations).build = .ok g.subsorts := by
  unfold grammar at hg
  cases hb : (SortDeclarations.ofSequence p.declarations).build with
  | error e =>
    rw [hb] at hg
    cases hg
  | ok subsorts =>
    rw [hb] at hg
    rw [← Except.ok.inj hg, (foldl_withProductions p.batches _).1]
    rfl

theorem eq_of_grammar (hg : p.grammar = .ok g) :
    g = p.batches.foldl Grammar.withProductions (.ofSorts g.subsorts (.ofList p.lists)) := by
  have hbuild := build_of_grammar hg
  unfold grammar at hg
  rw [hbuild] at hg
  exact (Except.ok.inj hg).symm

theorem lists_of_grammar (hg : p.grammar = .ok g) : g.lists = .ofList p.lists := by
  rw [eq_of_grammar hg, (foldl_withProductions p.batches _).2]
  rfl

theorem mem_sorts_productionsFor (hg : p.grammar = .ok g) {l : Label} {s : SortName} :
    s ∈ (g.productionsFor l).map Production.sort ↔ p.Produces l s := by
  rw [eq_of_grammar hg, List.mem_map]
  simp only [mem_productionsFor_foldl]
  have hnone (x : Production) :
      x ∉ (Grammar.ofSorts g.subsorts (.ofList p.lists)).productionsFor l := List.not_mem_nil
  constructor
  · rintro ⟨x, hx, rfl⟩
    obtain ⟨batch, hb, hx, hl⟩ := hx.resolve_left (hnone x)
    exact ⟨batch, hb, x, hx, hl, rfl⟩
  · rintro ⟨batch, hb, x, hx, hl, rfl⟩
    exact ⟨x, .inr ⟨batch, hb, hx, hl⟩, rfl⟩

/-- What is written down equivalently is read alike. -/
theorem Equivalent.alike (hpq : p.Equivalent q) (hg : p.grammar = .ok g)
    (hh : q.grammar = .ok h) : g.Alike h := by
  have hbg := build_of_grammar hg
  have hbh := build_of_grammar hh
  have hle (a b : SortName) : g.subsorts.le a b ↔ h.subsorts.le a b := by
    rw [SortDeclarations.le_iff_of_build_ofSequence hbg, hpq.closure,
      SortDeclarations.le_iff_of_build_ofSequence hbh]
  refine ⟨fun a b => ?_, fun l => Option.ext fun m => ?_, fun s => ?_⟩
  · rw [Bool.eq_iff_iff, SortDeclarations.lt_iff_le_and_ne_of_build hbg,
      SortDeclarations.lt_iff_le_and_ne_of_build hbh, hle]
  · have hsorts (s : SortName) : s ∈ (g.productionsFor l).map Production.sort ↔
        s ∈ (h.productionsFor l).map Production.sort := by
      rw [mem_sorts_productionsFor hg, hpq.produces, mem_sorts_productionsFor hh]
    rw [Grammar.sortOf, Grammar.sortOf,
      Lattice.greatest_eq_some_iff fun _ _ => SortDeclarations.le_antisymm_of_build hbg,
      Lattice.greatest_eq_some_iff fun _ _ => SortDeclarations.le_antisymm_of_build hbh, hsorts]
    simp only [hsorts, Lattice.ge, hle]
  · rw [lists_of_grammar hg, lists_of_grammar hh, ListCatalog.firstFor, ListCatalog.firstFor,
      ListCatalog.declarations_ofList, ListCatalog.declarations_ofList]
    exact hpq.first s

/-- It makes no difference to disambiguation how a grammar is written down. -/
theorem disambiguate_eq_of_equivalent (hpq : p.Equivalent q) (hg : p.grammar = .ok g)
    (hh : q.grammar = .ok h) (t : Term) (config : PassConfig) :
    disambiguate g t config = disambiguate h t config :=
  (hpq.alike hg hh).disambiguate_eq t config

open Ledger in
/-- One list sort, which its elements are a subsort of, and which is itself below the sort of all
terms. -/
def terse : Presentation where
  declarations := [.subsort elementSort listSort, .subsort listSort .any]
  lists := listGrammar.lists.declarations
  batches := [[listEnd, listCons, ofList]]

open Ledger in
/-- The same with more words and in another order. The list sort is declared once more, for lists of
its own kind, but too late to count. -/
def verbose : Presentation where
  declarations := [.subsort listSort .any, .sort .label, .subsort elementSort elementSort,
    .subsort elementSort .any, .subsort elementSort listSort, .subsort listSort .any]
  lists := listGrammar.lists.declarations ++ [{
    sort := listSort
    element := listSort
    terminator := ⟨listSort, [], none, ∅⟩
    cons := ⟨listSort, [.nonterminal listSort, .nonterminal listSort], none, ∅⟩
    terminator_sort := rfl
    cons_sort := rfl
    terminator_arity := rfl
    cons_slots := rfl }]
  batches := [[ofList], [], [listCons, listEnd, listCons]]

theorem equivalent_terse_verbose : terse.Equivalent verbose where
  closure a b := by
    have hle : Relation.ReflTransGen (SortDeclarations.Pairs terse.declarations)
        Ledger.elementSort .any :=
      .tail (.single List.mem_cons_self) (List.mem_cons_of_mem _ List.mem_cons_self)
    constructor
    · refine Relation.reflTransGen_closed (fun x y hxy => .single ?_) a b
      simp_all [SortDeclarations.Pairs, terse, verbose]
    · refine Relation.reflTransGen_closed (fun x y hxy => ?_) a b
      have hcases : (x = Ledger.elementSort ∧ y = Ledger.elementSort) ∨
          (x = Ledger.elementSort ∧ y = .any) ∨
          SortDeclarations.Pairs terse.declarations x y := by
        simp_all [SortDeclarations.Pairs, terse, verbose]
        tauto
      rcases hcases with ⟨rfl, rfl⟩ | ⟨rfl, rfl⟩ | hxy
      · exact .refl
      · exact hle
      · exact .single hxy
  produces l s := by
    simp only [Produces, terse, verbose, List.mem_cons, List.not_mem_nil, or_false,
      exists_eq_or_imp, exists_eq_left, false_and, exists_false, false_or]
    tauto
  first s := by
    by_cases h : Ledger.listSort == s
    · simp [terse, verbose, Ledger.listGrammar, h]
    · simp [terse, verbose, Ledger.listGrammar, h]

open Ledger in
theorem disambiguate_eq_of_equivalent_verbose : ∃ (g h : Grammar) (l : Ledger) (t : Term),
    terse.grammar = .ok g ∧ verbose.grammar = .ok h ∧ t ∈ l ∧ t.tree = loneElement ∧
      disambiguate g t {} = disambiguate h t {} ∧
      ∃ d, l.disambiguation g {} t = .ok (.ok d) ∧ l.disambiguation h {} t = .ok (.ok d) := by
  obtain ⟨l, t, hl, ht, htree⟩ :=
    exists_stores (l := listNames) (r := loneElement) (by decide) (by decide)
  obtain ⟨g, hterse, hg⟩ : ∃ g, terse.grammar = .ok g ∧ g.KnownTo listNames.symbols :=
    ⟨_, rfl, by decide, by decide, by decide⟩
  obtain ⟨h, hverbose⟩ : ∃ h, verbose.grammar = .ok h := ⟨_, rfl⟩
  have heq := disambiguate_eq_of_equivalent equivalent_terse_verbose hterse hverbose t {}
  have hclean : loneElement.CleansTo loneElement := rfl
  obtain ⟨d, hd⟩ := exists_accepted (hg.of_le (symbols_le hl)) ht {} (htree ▸ hclean)
  refine ⟨g, h, l, t, hterse, hverbose, ht, htree, heq, d, hd, ?_⟩
  rw [disambiguation, ← heq]
  exact hd

end Presentation
end ParseForest
