import ParseForest.Proofs.Disambiguated

/-!
# What is rejected, and why

Only an application that has no label and not exactly one child is an error, and
nothing is looked for below it. The error counts as long as every ambiguity above
it has lost all of its alternatives. A term is rejected just if there are errors
that count, and these are then what it is rejected for.
-/
namespace ParseForest

/-- The issue is that a term stands where a list is expected. -/
def Issue.IsMisplacement (e : Issue) : Prop :=
  ∃ found expected span, e = .listSortExpected found expected span

namespace Forest
variable {ι : Type} {n t u : Forest ι}

/-- The node is an application without a label to other than one term. -/
def Malformed : Forest ι → Prop
  | application _ p ts _ => p.label = none ∧ ts.length ≠ 1
  | _ => False

/-- The node `n` lies in the forest below the given nodes, the outermost first. -/
inductive LiesBelow (n : Forest ι) : List (Forest ι) → Forest ι → Prop
  | here : LiesBelow n [] n
  | child {t u : Forest ι} {above : List (Forest ι)} (hu : u ∈ t.items)
      (h : LiesBelow n above u) : LiesBelow n (t :: above) t

/-- The forest fails: something malformed lies in it with nothing malformed above, and all the
alternatives of ambiguities above fail. -/
inductive Fails : Forest ι → Prop
  | intro {t n : Forest ι} {above : List (Forest ι)} (hn : n.Malformed)
      (h : LiesBelow n above t) (hclear : ∀ a ∈ above, ¬a.Malformed)
      (hlost : ∀ a ∈ above, a.isAmbiguity → ∀ x ∈ a.items, Fails x) : Fails t

/-- The forest fails on account of the node `n`. -/
def Blamed (n t : Forest ι) : Prop :=
  n.Malformed ∧ ∃ above, LiesBelow n above t ∧ (∀ a ∈ above, ¬a.Malformed) ∧
    ∀ a ∈ above, a.isAmbiguity → ∀ x ∈ a.items, x.Fails

theorem fails_iff : t.Fails ↔ ∃ n, Blamed n t := by
  constructor
  · intro h
    obtain ⟨hn, h, hclear, hlost⟩ := h
    exact ⟨_, hn, _, h, hclear, hlost⟩
  · rintro ⟨n, hn, above, h, hclear, hlost⟩
    exact .intro hn h hclear hlost

/-- What is malformed hides whatever is below. -/
theorem blamed_iff_of_malformed (ht : t.Malformed) : Blamed n t ↔ n = t := by
  constructor
  · rintro ⟨-, above, h, hclear, -⟩
    cases h with
    | here => rfl
    | child hu h => exact absurd ht (hclear t List.mem_cons_self)
  · rintro rfl
    exact ⟨ht, [], .here, by simp, by simp⟩

theorem blamed_iff_of_not_malformed (ht : ¬t.Malformed) : Blamed n t ↔
    (t.isAmbiguity → ∀ x ∈ t.items, x.Fails) ∧ ∃ u ∈ t.items, Blamed n u := by
  constructor
  · rintro ⟨hn, above, h, hclear, hlost⟩
    cases h with
    | here => exact absurd hn ht
    | child hu h =>
      obtain ⟨-, hclear⟩ := List.forall_mem_cons.mp hclear
      obtain ⟨hself, hlost⟩ := List.forall_mem_cons.mp hlost
      exact ⟨hself, _, hu, hn, _, h, hclear, hlost⟩
  · rintro ⟨hself, u, hu, hn, above, h, hclear, hlost⟩
    exact ⟨hn, t :: above, .child hu h, List.forall_mem_cons.mpr ⟨ht, hclear⟩,
      List.forall_mem_cons.mpr ⟨hself, hlost⟩⟩

theorem malformed_tree : t.tree.Malformed ↔ t.Malformed := by
  cases t <;> simp [Malformed]

/-- The error that is reported of a malformed node. -/
def Reports (n : Forest ι) (e : Issue) : Prop :=
  ∃ m p ts s, n = application m p ts s ∧ e = .unlabeledNonSubsort p.sort ts.length s

theorem Malformed.exists_reports (h : n.Malformed) : ∃ e, n.Reports e := by
  cases n with
  | application m p ts s => exact ⟨_, m, p, ts, s, rfl, rfl⟩
  | constant | ambiguity | grouping => cases h

theorem mem_failures_cleaned_of_malformed {e : Issue} (ht : t.Malformed) :
    e ∈ t.tree.cleaned.failures ↔ t.Reports e := by
  cases t with
  | application m p ts s =>
    have hts : (ts.map tree).length ≠ 1 := by
      rw [List.length_map]
      exact ht.2
    rw [tree_application, cleaned_unlabeled_of_length_ne ht.1 hts, List.length_map]
    refine OrderedSet.mem_singleton.trans ⟨fun he => ⟨m, p, ts, s, rfl, he⟩, ?_⟩
    rintro ⟨m', p', ts', s', hn, rfl⟩
    injection hn with _ hp hts hs
    rw [hp, hts, hs]
  | constant | ambiguity | grouping => cases ht

/-- The failures of cleaning a node that is not malformed are those of its children, which an
ambiguity has only if all of its alternatives fail. -/
theorem mem_failures_cleaned_of_not_malformed {t : Tree} {e : Issue} (ht : ¬t.Malformed) :
    e ∈ t.cleaned.failures ↔ (t.isAmbiguity → ∀ u ∈ t.items, ¬u.cleaned.isOk) ∧
      ∃ u ∈ t.items, e ∈ u.cleaned.failures := by
  have joinedAll (t : Tree) (ts : List Tree) : e ∈ (t.joinedAll (ts.map cleaned)).failures ↔
      ∃ u ∈ ts, e ∈ u.cleaned.failures := by
    rw [failures_joinedAll, Outcome.mem_allFailures]
    simp only [List.mem_map, exists_exists_and_eq_and]
  have collapses (o : Outcome Tree) :
      (o.followedBy fun u => .ok u.collapsed).failures = o.failures :=
    Outcome.failures_followedBy fun _ => Outcome.isOk_iff.mpr ⟨_, rfl⟩
  cases t with
  | constant m v p s =>
    rw [cleaned_eq]
    exact iff_of_false (OrderedSet.not_mem_empty e) (by simp [items])
  | application m p ts s =>
    rw [and_iff_right (by simp [isAmbiguity])]
    cases hl : p.label with
    | some l =>
      rw [cleaned_labeled hl]
      exact joinedAll _ ts
    | none =>
      obtain ⟨u, rfl⟩ := List.length_eq_one_iff.mp (not_not.mp fun h => ht ⟨hl, h⟩)
      rw [cleaned_unlabeled_singleton hl]
      simp [items]
  | ambiguity m ts s =>
    rw [cleaned_of_production?_eq_none rfl, collapses, joined, mem_failures_joinedSome, items,
      List.forall_mem_map]
    simp only [isAmbiguity, forall_true_left, List.mem_map, exists_exists_and_eq_and]
  | grouping m ts s =>
    rw [and_iff_right (by simp [isAmbiguity]), cleaned_of_production?_eq_none rfl, collapses]
    exact joinedAll _ ts

/-- If the failures of cleaning are what the forest is blamed for, it is cleaned unless it fails. -/
theorem not_isOk_cleaned_iff
    (h : ∀ e, e ∈ t.tree.cleaned.failures ↔ ∃ n, Blamed n t ∧ n.Reports e) :
    ¬t.tree.cleaned.isOk ↔ t.Fails := by
  rw [← Outcome.failures_eq_empty_iff, fails_iff]
  constructor
  · intro hne
    by_contra hnone
    refine hne (OrderedSet.ext fun e => ?_)
    simp only [h, OrderedSet.not_mem_empty, iff_false]
    rintro ⟨n, hn, -⟩
    exact hnone ⟨n, hn⟩
  · rintro ⟨n, hn⟩ hempty
    obtain ⟨e, he⟩ := hn.1.exists_reports
    exact OrderedSet.not_mem_empty e (hempty ▸ (h e).mpr ⟨n, hn, he⟩)

/-- Cleaning fails for just what the forest is blamed for. -/
theorem mem_failures_cleaned_iff {e : Issue} :
    e ∈ t.tree.cleaned.failures ↔ ∃ n, Blamed n t ∧ n.Reports e := by
  induction t using items_induction generalizing e with
  | node t ih =>
    by_cases ht : t.Malformed
    · simp only [mem_failures_cleaned_of_malformed ht, blamed_iff_of_malformed ht, exists_eq_left]
    · have hfails : ∀ u ∈ t.items, (¬u.tree.cleaned.isOk ↔ u.Fails) :=
        fun u hu => not_isOk_cleaned_iff fun e => ih u hu
      rw [mem_failures_cleaned_of_not_malformed (malformed_tree.not.mpr ht), isAmbiguity_tree,
        items_tree, List.forall_mem_map, forall₂_congr hfails]
      simp only [blamed_iff_of_not_malformed ht]
      constructor
      · rintro ⟨hlost, x, hx, he⟩
        obtain ⟨u, hu, rfl⟩ := List.mem_map.mp hx
        obtain ⟨n, hn, hr⟩ := (ih u hu).mp he
        exact ⟨n, ⟨hlost, u, hu, hn⟩, hr⟩
      · rintro ⟨n, ⟨hlost, u, hu, hn⟩, hr⟩
        exact ⟨hlost, u.tree, List.mem_map_of_mem hu, (ih u hu).mpr ⟨n, hn, hr⟩⟩

theorem isOk_cleaned_iff_not_fails : t.tree.cleaned.isOk ↔ ¬t.Fails := by
  rw [← not_isOk_cleaned_iff fun e => mem_failures_cleaned_iff, not_not]

end Forest

namespace Completion
variable {names : SymbolTable} {g : Grammar} {slot : SortName} {t : Tree} {e : Issue}

theorem isMisplacement_of_mem_placedTree (he : e ∈ (placedTree names g slot t).warnings) :
    e.IsMisplacement := by
  rcases placedTree_cases names g slot t with hp | ⟨d, -, hp⟩ | ⟨found, hp⟩
  · rw [hp] at he
    exact absurd he (OrderedSet.not_mem_empty e)
  · rw [hp] at he
    exact absurd he (OrderedSet.not_mem_empty e)
  · rw [hp] at he
    exact ⟨_, _, _, OrderedSet.mem_singleton.mp he⟩

theorem isMisplacement_of_mem_placed (he : e ∈ (placed names g slot t).warnings) :
    e.IsMisplacement := by
  induction t using Forest.induction with
  | ambiguity m ts s ih =>
    rw [placed_ambiguity] at he
    obtain ⟨u, hu, he⟩ := OrderedSet.mem_unions_map.mp he
    exact ih u hu he
  | constant | application | grouping =>
    rw [placed_of_not_isAmbiguity (by simp [Forest.isAmbiguity])] at he
    exact isMisplacement_of_mem_placedTree he

theorem isMisplacement_of_mem_filled {p : Production}
    (he : e ∈ (filled names g p slot t).warnings) : e.IsMisplacement := by
  unfold filled at he
  split at he
  · exact isMisplacement_of_mem_placed he
  · exact absurd he (OrderedSet.not_mem_empty e)

/-- Completion warns of nothing but misplacements. -/
theorem isMisplacement_of_mem_completed (he : e ∈ (completed names g t).warnings) :
    e.IsMisplacement := by
  induction t using Forest.items_induction with
  | node t ih =>
    rcases application_or_ne t with ⟨m, p, ts, s, rfl⟩ | hna
    · rw [completed_application] at he
      rcases OrderedSet.mem_union.mp he with he | he
      · obtain ⟨c, -, he⟩ := OrderedSet.mem_unions_map.mp he
        exact isMisplacement_of_mem_filled he
      · obtain ⟨u, hu, he⟩ := OrderedSet.mem_unions_map.mp he
        exact ih u hu he
    · rw [completed_of_not_application hna] at he
      obtain ⟨u, hu, he⟩ := OrderedSet.mem_unions_map.mp he
      exact ih u hu he

end Completion

namespace Ledger
variable {l : Ledger} {t : Term} {g : Grammar}

/-- A term is rejected if and only if it fails, for just the errors of the nodes that are to blame
for it, and nothing is warned of then. If it is accepted, all warnings are of misplacements. -/
theorem rejection_exact (hg : g.KnownTo l.symbols) (ht : t ∈ l) (config : PassConfig) :
    ∃ v, l.disambiguation g config t = .ok v ∧
      ((∃ r, v = .error r) ↔ t.Fails) ∧
      (∀ r, v = .error r → (∀ e, e ∈ r.failures ↔ ∃ n, Forest.Blamed n t ∧ n.Reports e) ∧
        r.failures.issues ≠ ∅ ∧ (∀ e ∈ r.failures, e.level = .error) ∧ r.warnings = ∅) ∧
      ∀ d, v = .ok d → ∀ e ∈ d.warnings, e.IsMisplacement := by
  obtain ⟨o, k, hrun, -, ho⟩ := exists_disambiguation_eq hg ht config
  refine ⟨o.verdict, hrun, ?_⟩
  cases hc : t.tree.cleaned.result with
  | ok u =>
    have hfails : ¬t.Fails := Forest.isOk_cleaned_iff_not_fails.mp (Outcome.isOk_iff.mpr ⟨u, hc⟩)
    obtain ⟨d, hd, -⟩ := ho.accepts hc
    have hnot (r : Rejection) : o.verdict ≠ .error r := by
      intro hr
      cases hd.symm.trans hr
    refine ⟨iff_of_false (not_exists.mpr hnot) hfails, fun r hr => absurd hr (hnot r),
      fun d' hd' e he => ?_⟩
    obtain rfl := Except.ok.inj (hd.symm.trans hd')
    exact Completion.isMisplacement_of_mem_completed he
  | error f =>
    have hfails : t.Fails := by
      by_contra hnot
      obtain ⟨u, hu⟩ := Outcome.isOk_iff.mp (Forest.isOk_cleaned_iff_not_fails.mpr hnot)
      rw [hu] at hc
      cases hc
    have hmem (e : Issue) : e ∈ f ↔ ∃ n, Forest.Blamed n t ∧ n.Reports e := by
      rw [← Forest.mem_failures_cleaned_iff, Outcome.failures, hc]
      exact Iff.rfl
    have hreject : o.verdict = .error ⟨f, ∅⟩ := ho.rejects hc
    refine ⟨iff_of_true ⟨_, hreject⟩ hfails, fun r hr => ?_, fun d hd => ?_⟩
    · obtain rfl := Except.error.inj (hreject.symm.trans hr)
      refine ⟨hmem, f.nonempty, fun e he => ?_, rfl⟩
      obtain ⟨n, -, m, p, ts, s, -, rfl⟩ := (hmem e).mp he
      rfl
    · cases hreject.symm.trans hd

/-- An ambiguity of which one alternative is malformed and the other has a malformed member. -/
def lost : Tree :=
  let malformed (sort : SortName) : Tree := .application () ⟨sort, [], none, ∅⟩ [] .unknown
  .ambiguity () [malformed .any, .grouping () [malformed .label, malformed .any] .unknown] .unknown

theorem rejection_exact_lost : ∃ (l : Ledger) (t : Term), t ∈ l ∧ t.tree = lost ∧ t.Fails ∧
    ∃ r, l.disambiguation ∅ {} t = .ok (.error r) ∧
      ∀ e, e ∈ r.failures ↔ ∃ n, Forest.Blamed n t ∧ n.Reports e := by
  obtain ⟨l, t, -, ht, htree⟩ := exists_stores (l := initial) (r := lost) (by decide) (by decide)
  have hg : Grammar.KnownTo l.symbols ∅ := ⟨nofun, nofun, nofun⟩
  obtain ⟨v, hrun, hiff, hexact, -⟩ := rejection_exact hg ht {}
  have hfails : t.Fails := by
    by_contra hnot
    have hok := Forest.isOk_cleaned_iff_not_fails.mpr hnot
    rw [htree] at hok
    exact absurd hok (by decide)
  obtain ⟨r, rfl⟩ := hiff.mpr hfails
  exact ⟨l, t, ht, htree, hfails, r, hrun, (hexact r rfl).1⟩

end Ledger
end ParseForest
