import Mathlib.Data.Finset.Dedup
import ParseForest.Proofs.Correspondence
import ParseForest.Proofs.Rejection
import ParseForest.Spelling.Forest

/-!
# Writing with strings

Symbols mean nothing without their table. What a run of the library ends in is
written here with the strings of the symbols, and sets as sets that have no order.
All that is written is legible: it does not change when symbols are renamed, or
when the table grows.
-/
namespace ParseForest

/-- What is written of the members of a set, in no order. -/
def OrderedSet.written {α β : Type} [Keyed α] [DecidableEq β] (write : α → β) (s : OrderedSet α) :
    Finset β := (s.toList.map write).toFinset

theorem OrderedSet.mem_written {α β : Type} [Keyed α] [DecidableEq β] {write : α → β}
    {s : OrderedSet α} {b : β} : b ∈ s.written write ↔ ∃ a ∈ s, write a = b := by
  rw [written, List.mem_toFinset, List.mem_map]
  rfl

structure WrittenProduction where
  sort : String
  items : List SpelledItem
  label : Option String
  attributes : Finset String
deriving DecidableEq

inductive WrittenTree where
  | constant (value : String) (production : WrittenProduction) (span : SpelledSpan)
  | application (production : WrittenProduction) (items : List WrittenTree) (span : SpelledSpan)
  | ambiguity (items : List WrittenTree) (span : SpelledSpan)
  | grouping (items : List WrittenTree) (span : SpelledSpan)

inductive WrittenIssue where
  | unlabeledNonSubsort (sort : String) (arity : Nat) (span : SpelledSpan)
  | listSortExpected (found expected : String) (span : SpelledSpan)
deriving DecidableEq

def Span.written (names : SymbolTable) (s : Span) : SpelledSpan :=
  ⟨s.offset, s.len, names.text s.context⟩

def ProductionItem.written (names : SymbolTable) : ProductionItem → SpelledItem
  | terminal token => .terminal (names.text token)
  | nonterminal sort => .nonterminal (sort.text names)

def Production.written (names : SymbolTable) (p : Production) : WrittenProduction where
  sort := p.sort.text names
  items := p.items.map (ProductionItem.written names)
  label := p.label.map (Label.text names)
  attributes := p.attributes.written names.text

namespace Forest

mutual

def written (names : SymbolTable) : Tree → WrittenTree
  | constant _ value production span =>
      .constant (names.text value) (production.written names) (span.written names)
  | application _ production items span =>
      .application (production.written names) (writtenAll names items) (span.written names)
  | ambiguity _ items span => .ambiguity (writtenAll names items) (span.written names)
  | grouping _ items span => .grouping (writtenAll names items) (span.written names)

def writtenAll (names : SymbolTable) : List Tree → List WrittenTree
  | [] => []
  | t :: ts => written names t :: writtenAll names ts

end

@[simp] theorem writtenAll_eq (names : SymbolTable) (ts : List Tree) :
    writtenAll names ts = ts.map (written names) := by
  induction ts with
  | nil => rfl
  | cons t ts ih => rw [writtenAll, ih, List.map_cons]

end Forest

def Issue.written (names : SymbolTable) : Issue → WrittenIssue
  | unlabeledNonSubsort sort arity span =>
      .unlabeledNonSubsort (sort.text names) arity (span.written names)
  | listSortExpected found expected span =>
      .listSortExpected (found.text names) (expected.text names) (span.written names)

def SpelledItem.text : SpelledItem → String
  | terminal token => "\"" ++ token ++ "\""
  | nonterminal sort => sort

def WrittenProduction.text (p : WrittenProduction) : String :=
  let items := p.items.foldl (fun line item => line ++ " " ++ item.text)
    ("syntax " ++ p.sort ++ " ::=")
  match p.label with
  | some label => items ++ " [klabel(" ++ label ++ ")]"
  | none => items

/-- What is shown of a production is what is written, less the attributes. -/
theorem Production.text_written (names : SymbolTable) (p : Production) :
    (p.written names).text = p.text names := by
  have hitem (item : ProductionItem) : (item.written names).text = item.text names := by
    cases item <;> rfl
  simp only [WrittenProduction.text, written, text, List.foldl_map, hitem]
  cases p.label <;> rfl

/-- What a run of the library ends in, written with strings. -/
inductive Report where
  /-- The input describes nothing. -/
  | unread (error : String)
  | accepted (term : WrittenTree) (warnings : Finset WrittenIssue)
  | rejected (failures warnings : Finset WrittenIssue)

namespace Report

def ofOutcome (names : SymbolTable) (o : Outcome Tree) : Report :=
  match o.result with
  | .ok t => accepted (t.written names) (o.warnings.written (Issue.written names))
  | .error f =>
      rejected (f.issues.written (Issue.written names)) (o.warnings.written (Issue.written names))

def ofVerdict (names : SymbolTable) : Except Rejection Disambiguated → Report
  | .ok d => accepted (d.term.tree.written names) (d.warnings.written (Issue.written names))
  | .error r => rejected (r.failures.issues.written (Issue.written names))
      (r.warnings.written (Issue.written names))

theorem ofVerdict_verdict (names : SymbolTable) (o : Outcome) :
    ofVerdict names o.verdict = ofOutcome names (o.map Forest.tree) := by
  obtain ⟨result, warnings⟩ := o
  cases result <;> rfl

end Report

def SpellingError.text (names : SymbolTable) : SpellingError → String
  | noProduction position => "no production at position " ++ toString position
  | noNode position => "no node at position " ++ toString position
  | lattice error => error.text names
  | declaration error => error.text names
  | internal error => error.message names

namespace SpelledInput

/-- Read the input and disambiguate the node at a position. -/
def disambiguated (i : SpelledInput) (position : Nat) (config : PassConfig) :
    Spelling (Except Rejection Disambiguated) := do
  let setting ← i.read
  let t ← Spelling.nodeAt setting.nodes position
  Spelling.build (disambiguate setting.grammar t config)

/-- What comes of the input in a session in which nothing has happened. -/
def report (i : SpelledInput) (position : Nat) (config : PassConfig) : Report :=
  match (i.disambiguated position config).run.run .initial with
  | (.error e, s) => .unread (e.text s.symbols)
  | (.ok v, s) => .ofVerdict s.symbols v

end SpelledInput

section Legibility
open Renamable SymbolTable

theorem SymbolTable.legible_text : Legible fun names (s : Symbol) => names.text s where
  of_le h hs := by rw [text, text, name?_of_le h hs]
  rename s h := h.text_eq s

section Sorts
variable {names later other : SymbolTable} {ρ : Symbol → Symbol}

theorem SortName.text_of_le (h : names ≤ later) {s : SortName} (hs : s.symbol ∈ names) :
    s.text later = s.text names := SymbolTable.legible_text.of_le h hs

theorem SortName.text_rename (h : names.Translates ρ other) (s : SortName) :
    (s.rename ρ).text other = s.text names := h.text_eq s.symbol

end Sorts

theorem Span.legible_written : Legible fun names (s : Span) => s.written names where
  of_le {_ _ s} h hs := congrArg (SpelledSpan.mk s.offset s.len) (legible_text.of_le h hs)
  rename s h := congrArg (SpelledSpan.mk s.offset s.len) (h.text_eq s.context)

theorem ProductionItem.legible_written :
    Legible fun names (item : ProductionItem) => item.written names where
  of_le {_ _ item} h hitem := by
    cases item with
    | terminal => exact congrArg SpelledItem.terminal (legible_text.of_le h hitem)
    | nonterminal => exact congrArg SpelledItem.nonterminal (legible_text.of_le h hitem)
  rename item h := by
    cases item with
    | terminal token => exact congrArg SpelledItem.terminal (h.text_eq token)
    | nonterminal sort => exact congrArg SpelledItem.nonterminal (h.text_eq sort.symbol)

section Collections
variable {α β : Type} [Renamable α] {f : SymbolTable → α → β}

/-- What is legible is legible member by member. -/
theorem Legible.map (hf : Legible f) : Legible fun names (as : List α) => as.map (f names) where
  of_le h has := List.map_congr_left fun a ha => hf.of_le h (has a ha)
  rename as h := by
    change (as.map _).map _ = _
    rw [List.map_map]
    exact List.map_congr_left fun a _ => hf.rename a h

theorem Legible.set [Keyed α] [DecidableEq β] (hf : Legible f) :
    Legible fun names (s : OrderedSet α) => s.written (f names) where
  of_le h hs := congrArg List.toFinset (hf.map.of_le h hs)
  rename s h := by
    ext b
    change b ∈ (s.image _).written _ ↔ _
    simp only [OrderedSet.mem_written, OrderedSet.mem_image, exists_exists_and_eq_and,
      hf.rename _ h]

end Collections

theorem Production.KnownTo.of_mem_items {names : SymbolTable} {p : Production}
    {item : ProductionItem} (h : p.KnownTo names) (hitem : item ∈ p.items) :
    item.symbol ∈ names := by
  refine h item.symbol ?_
  simp only [symbols, List.mem_cons, List.mem_append, List.mem_map]
  exact .inr (.inl (.inl ⟨item, hitem, rfl⟩))

theorem Production.legible_written : Legible fun names (p : Production) => p.written names where
  of_le {names later p} h hp := by
    have hp : p.KnownTo names := hp
    have hsort := SortName.text_of_le h (hp p.sort.symbol List.mem_cons_self)
    have hitems : p.items.map (ProductionItem.written later) =
        p.items.map (ProductionItem.written names) :=
      ProductionItem.legible_written.map.of_le h fun _ hitem => hp.of_mem_items hitem
    have hlabel : p.label.map (Label.text later) = p.label.map (Label.text names) :=
      Option.map_congr fun l hl => SymbolTable.legible_text.of_le h (hp.label hl)
    have hattributes : p.attributes.written later.text = p.attributes.written names.text :=
      SymbolTable.legible_text.set.of_le h fun s hs =>
        hp s (List.mem_cons_of_mem _ (List.mem_append_right _ hs))
    rw [written, written, hsort, hitems, hlabel, hattributes]
  rename {names other ρ} p h := by
    change (p.rename ρ).written other = p.written names
    have hitems : (p.items.map (ProductionItem.rename ρ)).map (ProductionItem.written other) =
        p.items.map (ProductionItem.written names) :=
      ProductionItem.legible_written.map.rename p.items h
    have hlabel : (p.label.map (Label.rename ρ)).map (Label.text other) =
        p.label.map (Label.text names) := by
      rw [Option.map_map]
      exact Option.map_congr fun l _ => h.text_eq l.symbol
    have hattributes : (p.attributes.image ρ).written other.text =
        p.attributes.written names.text := SymbolTable.legible_text.set.rename p.attributes h
    rw [written, rename, written, SortName.text_rename h, hitems, hlabel, hattributes]

theorem Forest.legible_written : Legible fun names (t : Tree) => t.written names where
  of_le {names later t} h ht := by
    change t.KnownTo names at ht
    have all {ts : List Tree} (ih : ∀ u ∈ ts, u.KnownTo names → u.written later = u.written names)
        (hts : ∀ u ∈ ts, u.KnownTo names) : ts.map (written later) = ts.map (written names) :=
      List.map_congr_left fun u hu => ih u hu (hts u hu)
    have hproduction {p : Production} (hp : p.KnownTo names) : p.written later = p.written names :=
      Production.legible_written.of_le h hp
    have hspan {s : Span} (hs : s.context ∈ names) : s.written later = s.written names :=
      Span.legible_written.of_le h hs
    change t.written later = t.written names
    induction t using Forest.induction with
    | constant m v p s =>
      have hv : v ∈ names := ht.self v (by simp [nodeSymbols])
      have hs : s.context ∈ names := ht.context
      rw [written, written, SymbolTable.legible_text.of_le h hv, hproduction (ht.production rfl),
        hspan hs]
    | application m p ts s ih =>
      have hts : ∀ u ∈ ts, u.KnownTo names := fun u hu => ht.of_mem_items hu
      have hs : s.context ∈ names := ht.context
      rw [written, written, writtenAll_eq, writtenAll_eq, all ih hts,
        hproduction (ht.production rfl), hspan hs]
    | ambiguity m ts s ih =>
      have hts : ∀ u ∈ ts, u.KnownTo names := fun u hu => ht.of_mem_items hu
      have hs : s.context ∈ names := ht.context
      rw [written, written, writtenAll_eq, writtenAll_eq, all ih hts, hspan hs]
    | grouping m ts s ih =>
      have hts : ∀ u ∈ ts, u.KnownTo names := fun u hu => ht.of_mem_items hu
      have hs : s.context ∈ names := ht.context
      rw [written, written, writtenAll_eq, writtenAll_eq, all ih hts, hspan hs]
  rename {names other ρ} t h := by
    have all {ts : List Tree} (ih : ∀ u ∈ ts, (u.rename ρ).written other = u.written names) :
        (ts.map (rename ρ)).map (written other) = ts.map (written names) := by
      rw [List.map_map]
      exact List.map_congr_left ih
    have hproduction (p : Production) : (p.rename ρ).written other = p.written names :=
      Production.legible_written.rename p h
    have hspan (s : Span) : (s.rename ρ).written other = s.written names :=
      Span.legible_written.rename s h
    change (t.rename ρ).written other = t.written names
    induction t using Forest.induction with
    | constant m v p s => rw [rename, written, written, h.text_eq, hproduction, hspan]
    | application m p ts s ih =>
      rw [rename_application, written, written, writtenAll_eq, writtenAll_eq, all ih, hproduction,
        hspan]
    | ambiguity m ts s ih =>
      rw [rename_ambiguity, written, written, writtenAll_eq, writtenAll_eq, all ih, hspan]
    | grouping m ts s ih =>
      rw [rename_grouping, written, written, writtenAll_eq, writtenAll_eq, all ih, hspan]

theorem Production.legible_arity : Legible fun _ (p : Production) => p.arity where
  of_le _ _ := rfl
  rename p _ := p.arity_rename

theorem Production.legible_text : Legible fun names (p : Production) => p.text names where
  of_le {names later p} h hp := by
    rw [← text_written, ← text_written, Production.legible_written.of_le h hp]
  rename {names other ρ} p h := by
    rw [← text_written, ← text_written, Production.legible_written.rename p h]

theorem Span.legible_text : Legible fun names (s : Span) => s.text names where
  of_le h hs := by rw [text, text, SymbolTable.legible_text.of_le h hs]
  rename {names other ρ} s h := by
    change (s.rename ρ).text other = s.text names
    rw [text, text, rename, h.text_eq]
    rfl

theorem LatticeError.legible_text : Legible fun names (e : LatticeError) => e.text names where
  of_le {names later e} h he := by
    obtain ⟨sort⟩ := e
    have hsort : sort.symbol ∈ names := he
    unfold text
    dsimp only
    rw [SortName.text_of_le h hsort]
  rename {names other ρ} e h := by
    obtain ⟨sort⟩ := e
    change text other (cyclicSubsort (sort.rename ρ)) = text names (cyclicSubsort sort)
    unfold text
    dsimp only
    rw [SortName.text_rename h]

theorem DeclarationError.legible_text :
    Legible fun names (e : DeclarationError) => e.text names where
  of_le {names later e} h he := by
    unfold text
    cases e with
    | sortMismatch list found =>
      obtain ⟨hlist, hfound⟩ : list.symbol ∈ names ∧ found.symbol ∈ names := he
      dsimp only
      rw [SortName.text_of_le h hlist, SortName.text_of_le h hfound]
    | terminatorNotNullary list arity =>
      have hlist : list.symbol ∈ names := he
      dsimp only
      rw [SortName.text_of_le h hlist]
    | malformedCons list element =>
      obtain ⟨hlist, helement⟩ : list.symbol ∈ names ∧ element.symbol ∈ names := he
      dsimp only
      rw [SortName.text_of_le h hlist, SortName.text_of_le h helement]
  rename {names other ρ} e h := by
    unfold text
    cases e with
    | sortMismatch list found => simp only [rename, SortName.text_rename h]
    | terminatorNotNullary list arity => simp only [rename, SortName.text_rename h]
    | malformedCons list element => simp only [rename, SortName.text_rename h]

/-- All symbols of an issue. -/
def Issue.symbols : Issue → List Symbol
  | unlabeledNonSubsort sort _ span => [sort.symbol, span.context]
  | listSortExpected found expected span => [found.symbol, expected.symbol, span.context]

instance : Renamable Issue where
  rename := Issue.rename
  KnownTo names e := ∀ s ∈ e.symbols, s ∈ names
  knownTo_of_le h he s hs := mem_of_le h (he s hs)

theorem Issue.legible_written : Legible fun names (e : Issue) => e.written names where
  of_le {names later e} h he := by
    have hsort {s : SortName} (hs : s.symbol ∈ e.symbols) := SortName.text_of_le h (he _ hs)
    have hspan {s : Span} (hs : s.context ∈ e.symbols) : s.written later = s.written names :=
      Span.legible_written.of_le h (he _ hs)
    cases e with
    | unlabeledNonSubsort sort arity span =>
      rw [written, written, hsort (by simp [symbols]), hspan (by simp [symbols])]
    | listSortExpected found expected span =>
      rw [written, written, hsort (by simp [symbols]), hsort (by simp [symbols]),
        hspan (by simp [symbols])]
  rename {names other ρ} e h := by
    have hspan (s : Span) : (s.rename ρ).written other = s.written names :=
      Span.legible_written.rename s h
    change (e.rename ρ).written other = e.written names
    cases e <;> simp only [Issue.rename, written, SortName.text_rename h, hspan]

instance : Renamable (Outcome Tree) where
  rename := Outcome.rename
  KnownTo names o :=
    (∀ t, o.result = .ok t → t.KnownTo names) ∧ KnownTo names o.failures ∧ KnownTo names o.warnings
  knownTo_of_le h ho :=
    ⟨fun t ht => (ho.1 t ht).of_le h, knownTo_of_le h ho.2.1, knownTo_of_le h ho.2.2⟩

theorem Report.legible_ofOutcome : Legible fun names (o : Outcome Tree) => ofOutcome names o where
  of_le {names later o} h ho := by
    obtain ⟨htree, hfailures, hwarnings⟩ := ho
    have hwarned := Issue.legible_written.set.of_le h hwarnings
    cases hr : o.result with
    | ok t => simp only [ofOutcome, hr, hwarned, Forest.legible_written.of_le h (htree t hr)]
    | error f =>
      rw [Outcome.failures, hr] at hfailures
      simp only [ofOutcome, hr, hwarned, Issue.legible_written.set.of_le h hfailures]
  rename {names other ρ} o h := by
    obtain ⟨result, warnings⟩ := o
    have hwarned := Issue.legible_written.set.rename warnings h
    cases result with
    | ok t => exact congrArg₂ accepted (Forest.legible_written.rename t h) hwarned
    | error f => exact congrArg₂ rejected (Issue.legible_written.set.rename f.issues h) hwarned

end Legibility

section Known
open Renamable
variable {names : SymbolTable} {g : Grammar} {slot : SortName} {t : Tree}

theorem Production.KnownTo.of_mem_slots {p : Production} (h : p.KnownTo names)
    (hs : slot ∈ p.slots) : slot.symbol ∈ names := by
  obtain ⟨item, hitem, hslot⟩ := List.mem_filterMap.mp hs
  cases item with
  | terminal => cases hslot
  | nonterminal sort =>
    obtain rfl := Option.some.inj hslot
    exact h.of_mem_items hitem

theorem Lattice.mem_of_greatest {l : Lattice} {s : SortName} {ss : List SortName}
    (h : l.greatest ss = some s) : s ∈ ss := by
  cases ss with
  | nil => cases h
  | cons x rest =>
    obtain ⟨-, hbest⟩ := Option.ite_none_right_eq_some.mp h
    exact Option.some.inj hbest ▸ foldl_better_mem l x rest

/-- A tree is judged by a sort that the grammar or the tree has. -/
theorem Grammar.KnownTo.judgedSort {found : SortName} (hg : g.KnownTo names)
    (ht : t.KnownTo names) (h : g.judgedSort names t = some found) : found.symbol ∈ names := by
  obtain ⟨sort, hsort, rfl⟩ := Option.map_eq_some_iff.mp h
  cases hb : (t.appliedLabel names).bind g.sortOf with
  | none =>
    obtain ⟨p, hp, rfl⟩ := Option.map_eq_some_iff.mp hsort
    exact ht.production hp _ List.mem_cons_self
  | some found =>
    obtain ⟨l, -, hl⟩ := Option.bind_eq_some_iff.mp hb
    obtain ⟨p, hp, rfl⟩ := List.mem_map.mp (Lattice.mem_of_greatest hl)
    exact hg.labeled p (List.mem_of_mem_filter hp) _ List.mem_cons_self

theorem Forest.LiesBelow.occurs {n u : Tree} {above : List Tree} (h : LiesBelow n above u) :
    n.Occurs u := by
  induction h with
  | here => exact .refl
  | child hu _ ih => exact .child hu ih

namespace Completion

theorem knownTo_warnings_placedTree (hg : g.KnownTo names) (hs : slot.symbol ∈ names)
    (ht : t.KnownTo names) : KnownTo names (placedTree names g slot t).warnings := by
  cases hp : t.production? with
  | none =>
    rw [placedTree_of_production?_eq_none hp]
    exact knownTo_empty names
  | some p =>
    obtain ⟨found, hf⟩ := exists_judgedSort names g hp
    cases h : g.placement slot found p with
    | keep =>
      rw [placedTree_of_keep hp hf h]
      exact knownTo_empty names
    | element d =>
      rw [placedTree_of_element hp hf h]
      exact knownTo_empty names
    | misplaced =>
      rw [placedTree_of_misplaced hp hf h]
      intro e he
      obtain rfl := OrderedSet.mem_singleton.mp he
      simpa [KnownTo, Issue.symbols] using ⟨hg.judgedSort ht hf, hs, ht.context⟩

theorem knownTo_warnings_placed (hg : g.KnownTo names) (hs : slot.symbol ∈ names)
    (ht : t.KnownTo names) : KnownTo names (placed names g slot t).warnings := by
  induction t using Forest.induction with
  | ambiguity m ts s ih =>
    rw [placed_ambiguity]
    intro e he
    obtain ⟨u, hu, he⟩ := OrderedSet.mem_unions_map.mp he
    exact ih u hu (ht.of_mem_items hu) e he
  | constant | application | grouping =>
    rw [placed_of_not_isAmbiguity (by simp [Forest.isAmbiguity])]
    exact knownTo_warnings_placedTree hg hs ht

/-- What completion warns of has the symbols of the tree and of the grammar. -/
theorem knownTo_warnings_completed (hg : g.KnownTo names) (ht : t.KnownTo names) :
    KnownTo names (completed names g t).warnings := by
  induction t using Forest.items_induction with
  | node t ih =>
    intro e he
    rcases application_or_ne t with ⟨m, p, ts, s, rfl⟩ | hna
    · rw [completed_application] at he
      rcases OrderedSet.mem_union.mp he with he | he
      · obtain ⟨c, hc, he⟩ := OrderedSet.mem_unions_map.mp he
        obtain ⟨hslot, hitem⟩ := List.of_mem_zip hc
        unfold slotted filled at he
        split at he
        · exact knownTo_warnings_placed hg ((ht.production rfl).of_mem_slots hslot)
            (knownTo_completed hg (ht.of_mem_items hitem)) e he
        · exact absurd he (OrderedSet.not_mem_empty e)
      · obtain ⟨u, hu, he⟩ := OrderedSet.mem_unions_map.mp he
        exact ih u hu (ht.of_mem_items hu) e he
    · rw [completed_of_not_application hna] at he
      obtain ⟨u, hu, he⟩ := OrderedSet.mem_unions_map.mp he
      exact ih u hu (ht.of_mem_items hu) e he

end Completion

/-- Disambiguation brings in no symbols but those of the grammar. -/
theorem Forest.knownTo_disambiguated (hg : g.KnownTo names) (ht : t.KnownTo names) :
    Renamable.KnownTo names (t.disambiguated names g) := by
  cases hc : t.cleaned.result with
  | ok u =>
    have hu : u.KnownTo names := CleansTo.knownTo hc ht
    rw [disambiguated_of_cleansTo hc]
    refine ⟨fun v hv => ?_, knownTo_empty names, Completion.knownTo_warnings_completed hg hu⟩
    obtain rfl := Except.ok.inj hv
    exact Completion.knownTo_completed hg hu
  | error f =>
    rw [disambiguated_of_error hc]
    refine ⟨nofun, fun e he => ?_, knownTo_empty names⟩
    have he : e ∈ t.tree.cleaned.failures := by
      rw [tree_self, Outcome.failures, hc]
      exact he
    obtain ⟨n, ⟨-, above, hn, -⟩, m, p, ts, s, rfl, rfl⟩ := mem_failures_cleaned_iff.mp he
    have hself := ht _ hn.occurs
    simpa [Renamable.KnownTo, Issue.symbols] using
      ⟨hself p.sort.symbol (by simp [nodeSymbols, Production.symbols]),
        hself s.context (by simp [nodeSymbols])⟩

/-- The outcomes go together if the grammars and the trees do. -/
theorem Corresponds.disambiguated {other : SymbolTable} {g' : Grammar} {t' : Tree}
    (hg : Corresponds names other g g') (ht : Corresponds names other t t') :
    Corresponds names other (t.disambiguated names g) (t'.disambiguated other g') where
  known := Forest.knownTo_disambiguated hg.known ht.known
  known' := Forest.knownTo_disambiguated hg.known' ht.known'
  rename_eq {later later' ρ} hle hle' hρ := by
    have hg' : g.rename ρ = g' := hg.rename_eq hle hle' hρ
    have ht' : t.rename ρ = t' := ht.rename_eq hle hle' hρ
    change (t.disambiguated names g).rename ρ = _
    rw [← Forest.disambiguated_of_le hg.known hle ht.known,
      ← Forest.disambiguated_of_le hg.known' hle' ht.known', ← Forest.disambiguated_rename hρ,
      hg', ht']

end Known

end ParseForest
