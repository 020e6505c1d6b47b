import ParseForest.Proofs.CompletedReadings
import ParseForest.Proofs.Disambiguated

/-!
# The normal form of an accepted term

Cleaning leaves no application without a label, no group of one term, and no
empty marker in a group or an ambiguity. Completion, which makes nodes of its own
and merges alternatives that have become equal, brings none of this back: it
replaces markers by markers and other items by other items, one for one. Only an
ambiguity may be left with a single alternative.
-/
namespace ParseForest
namespace Forest
variable {ι : Type}

/-- The node has nothing that cleaning is there to remove. -/
def NodeNormal : Forest ι → Prop
  | constant .. => True
  | application _ production _ _ => production.label.isSome
  | ambiguity _ items _ => items ≠ [] ∧ ∀ u ∈ items, ¬u.isEmptyMarker
  | grouping _ items _ => (items = [] ∨ 2 ≤ items.length) ∧ ∀ u ∈ items, ¬u.isEmptyMarker

theorem nodeNormal_tree {t : Forest ι} : t.tree.NodeNormal ↔ t.NodeNormal := by
  cases t <;> simp [NodeNormal]

/-- A group or an ambiguity stays normal if its items are replaced one by one, markers by markers
and others by others. -/
theorem NodeNormal.withItems {t : Tree} {us : List Tree} (ha : ∀ m p ts s, t ≠ application m p ts s)
    (hm : us.map isEmptyMarker = t.items.map isEmptyMarker) (h : t.NodeNormal) :
    (t.withItems us).NodeNormal := by
  have hlen : us.length = t.items.length := by simpa using congrArg List.length hm
  have hne (hi : ∀ u ∈ t.items, ¬u.isEmptyMarker) : ∀ u ∈ us, ¬u.isEmptyMarker := by
    intro u hu
    have hmem : u.isEmptyMarker ∈ t.items.map isEmptyMarker := hm ▸ List.mem_map_of_mem hu
    obtain ⟨v, hv, hvu⟩ := List.mem_map.mp hmem
    exact hvu ▸ hi v hv
  cases t with
  | constant => trivial
  | application m p ts s => exact absurd rfl (ha m p ts s)
  | ambiguity m ts s =>
    obtain ⟨hts, hi⟩ := h
    refine ⟨fun hnil => hts ?_, fun u hu => hne hi u (mem_of_mem_eraseDups hu)⟩
    rw [eraseDups_eq_nil_iff.mp hnil] at hlen
    exact List.length_eq_zero_iff.mp hlen.symm
  | grouping m ts s =>
    obtain ⟨hts, hi⟩ := h
    refine ⟨?_, hne hi⟩
    rcases hts with hts | hts
    · exact .inl (List.length_eq_zero_iff.mp (hlen.trans (List.length_eq_zero_iff.mpr hts)))
    · exact .inr (Nat.le_trans hts (Nat.le_of_eq hlen.symm))

theorem NodeClean.nodeNormal {t : Tree} (h : t.NodeClean) : t.NodeNormal := by
  cases t with
  | constant => trivial
  | application => exact h
  | ambiguity m ts s =>
    obtain ⟨hlen, hi⟩ := h
    exact ⟨List.ne_nil_of_length_pos (by omega), hi⟩
  | grouping m ts s =>
    obtain ⟨hlen, hi⟩ := h
    refine ⟨?_, hi⟩
    match ts with
    | [] => exact .inl rfl
    | [_] => exact absurd rfl hlen
    | _ :: _ :: _ => exact .inr (by simp)

end Forest

/-- The productions of which completion makes lists have labels. -/
def Grammar.ListsLabeled (g : Grammar) : Prop :=
  ∀ d ∈ g.lists.declarations, d.cons.label.isSome ∧ d.terminator.label.isSome

/-- Completion keeps what is normal. -/
theorem Completion.keeps_nodeNormal {names : SymbolTable} {g : Grammar} (hg : g.ListsLabeled) :
    Keeps names g Forest.NodeNormal where
  singleton {slot d t} hd _ ht := by
    obtain ⟨hcons, hterminator⟩ := hg d (List.mem_of_find?_eq_some hd)
    exact everywhere_singletonTree hcons hterminator ht
  withItems ha hm ht := ht.withItems ha hm
  application ht := by
    rw [completed_application]
    exact ht

namespace Ledger
variable {l : Ledger} {t : Term} {g : Grammar}

/-- If the productions of lists have labels, then an accepted term is normal everywhere. -/
theorem disambiguation_normal (hg : g.KnownTo l.symbols) (ht : t ∈ l) (hlists : g.ListsLabeled)
    (config : PassConfig) : ∃ v, l.disambiguation g config t = .ok v ∧ ∀ d, v = .ok d →
      d.term.Everywhere Forest.NodeNormal := by
  obtain ⟨v, hrun, hv⟩ := exists_disambiguation hg ht config
  refine ⟨v, hrun, fun d hd => ?_⟩
  obtain ⟨u, hu, hud⟩ := hv d hd
  have hclean : u.Clean := hu.clean (Forest.wellFormed_tree.mpr (wellFormed_of_mem ht))
  have hkeeps : Completion.Keeps l.symbols g Forest.NodeNormal :=
    Completion.keeps_nodeNormal hlists
  have hnormal := hkeeps.completed (hclean.nodes.imp fun _ h => h.nodeNormal)
  exact (Forest.everywhere_tree fun _ => Forest.nodeNormal_tree.symm).mp (hud ▸ hnormal)

/-- The lone element with what cleaning removes around it: a wrapper without a label, a group of one
proper term, and an alternative that vanishes. -/
def wrappedElement : Tree :=
  let marker : Tree := .grouping () [] .unknown
  let wrapper : Production := ⟨elementSort, [.nonterminal elementSort], none, ∅⟩
  .application () ofList
    [.ambiguity () [.application () wrapper [.grouping () [marker, element] .unknown] .unknown,
      .grouping () [marker] .unknown, .application () listEnd [] .unknown] .unknown] .unknown

theorem disambiguation_normal_wrappedElement : ∃ (l : Ledger) (t : Term), t ∈ l ∧
    t.tree = wrappedElement ∧ listGrammar.ListsLabeled ∧
      ∃ d, l.disambiguation listGrammar {} t = .ok (.ok d) ∧
        d.term.Everywhere Forest.NodeNormal := by
  obtain ⟨l, t, hl, ht, htree⟩ :=
    exists_stores (l := listNames) (r := wrappedElement) (by decide) (by decide)
  have hg : listGrammar.KnownTo l.symbols := knownTo_listGrammar.of_le (symbols_le hl)
  have hlists : listGrammar.ListsLabeled := by
    rintro d hd
    obtain rfl := List.mem_singleton.mp hd
    exact ⟨rfl, rfl⟩
  have hclean : wrappedElement.CleansTo loneElement := rfl
  obtain ⟨v, hv, hnormal⟩ := disambiguation_normal hg ht hlists {}
  obtain ⟨d, hd⟩ := exists_accepted hg ht {} (htree ▸ hclean)
  obtain rfl := Except.ok.inj (hv.symm.trans hd)
  exact ⟨l, t, ht, htree, hlists, d, hd, hnormal d rfl⟩

end Ledger
end ParseForest
