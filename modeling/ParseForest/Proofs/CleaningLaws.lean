import ParseForest.Proofs.Cleaned

/-!
# Laws of cleaning

The terms that cleaning gives back as the very same node are the clean ones, and
what it gives is clean, so a second run changes nothing, not even a node. For all
its memo, its reuse of unchanged nodes and the second look at a lone survivor,
cleaning is one plain recursion over the tree.
-/
namespace ParseForest
namespace Forest

/-- What several trees amount to: nothing is an empty marker, one stands for itself, and more are
put together. -/
def bundled (together : List Tree → Tree) (span : Span) : List Tree → Tree
  | [] => grouping () [] span
  | [t] => t
  | ts => together ts

/-- The trees among some results. -/
def successes (rs : List (Except Failures Tree)) : List Tree := rs.filterMap Except.toOption

/-- The reasons of a failure. -/
def reasonsOf : Except Failures Tree → Issues
  | .ok _ => ∅
  | .error f => f.issues

/-- The reasons of all failures among some results. -/
def reasons (rs : List (Except Failures Tree)) : Issues := .unions (rs.map reasonsOf)

/-- All trees, unless there are failures. -/
def allOf (rs : List (Except Failures Tree)) : Except Failures (List Tree) :=
  match Failures.ofIssues? (reasons rs) with
  | some f => .error f
  | none => .ok (successes rs)

/-- The trees that there are, unless there are failures and nothing else. -/
def someOf (rs : List (Except Failures Tree)) : Except Failures (List Tree) :=
  match successes rs, Failures.ofIssues? (reasons rs) with
  | [], some f => .error f
  | ts, _ => .ok ts

mutual

/-- A tree without what parsing leaves behind. The application of a production without a label is
its only child; groups and ambiguities lose what is empty, and ambiguities also what fails and what
equals something earlier. -/
def tidied : Tree → Except Failures Tree
  | constant _ value production span => .ok (constant () value production span)
  | application _ production items span =>
      match production.label, tidiedAll items with
      | some _, rs => (allOf rs).map fun ts => application () production ts span
      | none, [r] => r
      | none, _ => .error (.singleton (.unlabeledNonSubsort production.sort items.length span))
  | grouping _ items span =>
      (allOf (tidiedAll items)).map fun ts =>
        bundled (grouping () · span) span (ts.filter fun t => !t.isEmptyMarker)
  | ambiguity _ items span =>
      (someOf (tidiedAll items)).map fun ts =>
        bundled (ambiguity () · span) span (ts.eraseDups.filter fun t => !t.isEmptyMarker)

def tidiedAll : List Tree → List (Except Failures Tree)
  | [] => []
  | t :: ts => t.tidied :: tidiedAll ts

end

@[simp] theorem tidiedAll_eq (ts : List Tree) : tidiedAll ts = ts.map tidied := by
  induction ts with
  | nil => rfl
  | cons t ts ih => rw [tidiedAll, ih, List.map_cons]

theorem tidied_unlabeled_of_length_ne {m : Unit} {p : Production} {ts : List Tree} {s : Span}
    (h : p.label = none) (hts : ts.length ≠ 1) : tidied (application m p ts s) =
      .error (.singleton (.unlabeledNonSubsort p.sort ts.length s)) := by
  rw [tidied, tidiedAll_eq, h]
  match ts with
  | [] => rfl
  | [_] => exact absurd rfl hts
  | _ :: _ :: _ => rfl

theorem reasons_map_result (os : List (Outcome Tree)) :
    reasons (os.map Outcome.result) = Outcome.allFailures os := by
  have hreasons (o : Outcome Tree) : reasonsOf o.result = o.failures := by
    obtain ⟨r, w⟩ := o
    cases r <;> rfl
  rw [reasons, List.map_map]
  exact congrArg OrderedSet.unions (List.map_congr_left fun o _ => hreasons o)

theorem successes_map_result (os : List (Outcome Tree)) :
    successes (os.map Outcome.result) = Outcome.terms os := by
  rw [successes, List.filterMap_map]
  rfl

theorem result_joinedAll (t : Tree) (os : List (Outcome Tree)) :
    (t.joinedAll os).result = (allOf (os.map Outcome.result)).map t.withItems := by
  unfold joinedAll allOf
  rw [reasons_map_result, successes_map_result]
  cases Failures.ofIssues? (Outcome.allFailures os) <;> rfl

theorem terms_eq_nil_iff {os : List (Outcome Tree)} :
    Outcome.terms os = [] ↔ os.filter Outcome.isOk = [] := by
  have hok : ∀ o ∈ os.filter Outcome.isOk, o.isOk := fun o ho => (List.mem_filter.mp ho).2
  have hlen := (Outcome.forall₂_terms hok).length_eq
  rw [Outcome.terms_filter_isOk] at hlen
  rw [← List.length_eq_zero_iff, ← hlen, List.length_eq_zero_iff]

theorem result_joinedSome (t : Tree) (os : List (Outcome Tree)) :
    (t.joinedSome os).result = (someOf (os.map Outcome.result)).map t.withItems := by
  unfold someOf
  rw [reasons_map_result, successes_map_result]
  by_cases h : os.filter Outcome.isOk = [] ∧ Outcome.allFailures os ≠ ∅
  · obtain ⟨f, hf⟩ := Failures.exists_ofIssues? h.2
    rw [joinedSome_of_nil h.1 hf, terms_eq_nil_iff.mpr h.1, hf]
    rfl
  · rw [joinedSome_of_not_nil h]
    split
    · rename_i f hnil hf
      exact absurd ⟨terms_eq_nil_iff.mp hnil, Failures.ofIssues?_eq_some_iff.mp hf ▸ f.nonempty⟩ h
    · rfl

theorem collapsed_grouping_eq (ts : List Tree) (s : Span) : collapsed (grouping () ts s) =
    bundled (grouping () · s) s (ts.filter fun t => !t.isEmptyMarker) := by
  unfold collapsed bundled proper
  rfl

theorem collapsed_ambiguity_eq (ts : List Tree) (s : Span) :
    collapsed (ambiguity () ts.eraseDups s) =
      bundled (ambiguity () · s) s (ts.eraseDups.filter fun t => !t.isEmptyMarker) := by
  have hdistinct : (proper ts.eraseDups).eraseDups = proper ts.eraseDups :=
    eraseDups_eq_self (List.Pairwise.filter _ (pairwise_eraseDups ts))
  change _ = bundled (ambiguity () · s) s (proper ts.eraseDups)
  match hs : proper ts.eraseDups with
  | [] => exact collapsed_of_nil hs
  | [u] => exact collapsed_of_singleton hs
  | u :: v :: us =>
    have hlen : 2 ≤ (proper ts.eraseDups).length := by simp [hs]
    rw [collapsed_of_two_le (t := ambiguity () ts.eraseDups s) hlen, items, withItems_ambiguity,
      hdistinct, hs]
    rfl

theorem result_followedBy (o : Outcome Tree) (f : Tree → Tree) :
    (o.followedBy fun t => .ok (f t)).result = o.result.map f := by
  cases hr : o.result with
  | ok t =>
    rw [Outcome.followedBy_of_ok hr]
    rfl
  | error e => rw [Outcome.followedBy_of_error hr, hr, Except.map]

/-- Cleaning a tree is tidying it up. -/
theorem result_cleaned (t : Tree) : t.cleaned.result = t.tidied := by
  have all {ts : List Tree} (ih : ∀ u ∈ ts, u.cleaned.result = u.tidied) :
      (ts.map cleaned).map Outcome.result = ts.map tidied := by
    rw [List.map_map]
    exact List.map_congr_left ih
  induction t using Forest.induction with
  | constant m v p s =>
    rw [cleaned_eq, tidied]
    rfl
  | application m p ts s ih =>
    cases hl : p.label with
    | some label =>
      rw [cleaned_labeled hl, joined, result_joinedAll, all ih, tidied, tidiedAll_eq, hl]
      rfl
    | none =>
      by_cases hlen : ts.length = 1
      · obtain ⟨u, rfl⟩ := List.length_eq_one_iff.mp hlen
        rw [cleaned_unlabeled_singleton hl, ih u List.mem_cons_self, tidied, tidiedAll_eq, hl]
        rfl
      · rw [cleaned_unlabeled_of_length_ne hl hlen, tidied_unlabeled_of_length_ne hl hlen]
        rfl
  | ambiguity m ts s ih =>
    rw [cleaned_of_production?_eq_none rfl, result_followedBy, joined, result_joinedSome, items,
      all ih, tidied, tidiedAll_eq]
    cases someOf (ts.map tidied) with
    | error f => rfl
    | ok us => exact congrArg Except.ok (collapsed_ambiguity_eq us s)
  | grouping m ts s ih =>
    rw [cleaned_of_production?_eq_none rfl, result_followedBy, joined, result_joinedAll, items,
      all ih, tidied, tidiedAll_eq]
    cases allOf (ts.map tidied) with
    | error f => rfl
    | ok us => exact congrArg Except.ok (collapsed_grouping_eq us s)

end Forest

namespace Ledger
open Forest (Clean NodeClean)
variable {l k : Ledger} {t u : Term}

/-- A clean node stays the very same node. -/
def KeepsClean (t u : Term) : Prop := t.tree.Clean → u = t

theorem KeepsClean.of_forall₂ {ts us : List Term} (h : List.Forall₂ KeepsClean ts us)
    (hts : ∀ x ∈ ts, x.tree.Clean) : us = ts := by
  rw [← List.forall₂_eq_eq_eq]
  exact (forall₂_imp_of_mem h fun x hx y _ hxy => (hxy (hts x hx)).symm).flip.imp fun _ _ => Eq.symm

theorem clean_items (h : t.tree.Clean) : ∀ x ∈ t.items, x.tree.Clean := by
  intro x hx
  refine h.items ?_
  rw [Forest.items_tree]
  exact List.mem_map_of_mem hx

/-- A node is rebuilt as itself from its own clean items. -/
theorem KeepsClean.of_rebuilt {us : List Term} (hus : List.Forall₂ KeepsClean t.items us)
    (hu : t.Rebuilt us u) : KeepsClean t u := by
  intro h
  rcases hu with ⟨-, hu⟩ | ⟨hne, -⟩
  · exact hu
  · exact absurd (of_forall₂ hus (clean_items h)) hne

/-- A clean group or ambiguity has no empty markers to lose. -/
theorem properItems_eq_items (hp : t.production? = none) (hc : t.tree.Clean) :
    properItems t = t.items := by
  have hne : ∀ x ∈ t.items, ¬x.isEmptyMarker := by
    have hnode := hc.nodes.self
    cases t with
    | constant | application => cases hp
    | ambiguity | grouping =>
      simp only [Forest.tree_ambiguity, Forest.tree_grouping, NodeClean, List.forall_mem_map,
        Forest.isEmptyMarker_tree] at hnode
      exact hnode.2
  exact List.filter_eq_self.mpr fun x hx => by simpa using hne x hx

/-- A clean group or ambiguity of fewer than two items is an empty marker. -/
theorem isEmptyMarker_of_clean (hp : t.production? = none) (hc : t.tree.Clean)
    (hlt : t.items.length < 2) : t.isEmptyMarker := by
  have hnode := hc.nodes.self
  cases t with
  | constant | application => cases hp
  | ambiguity =>
    rw [Forest.tree_ambiguity] at hnode
    have hlen := hnode.1
    rw [List.length_map] at hlen
    exact absurd hlt (Nat.not_lt.mpr hlen)
  | grouping m ts s =>
    rw [Forest.tree_grouping] at hnode
    have hlen := hnode.1
    rw [List.length_map] at hlen
    match ts with
    | [] => rfl
    | [_] => exact absurd rfl hlen
    | _ :: _ :: _ => exact absurd hlt (by simp [Forest.items])

/-- A clean group or ambiguity does not collapse. -/
theorem Collapsed.keepsClean (h : Collapsed KeepsClean t u) (hp : t.production? = none) :
    KeepsClean t u := by
  intro hc
  have hall := properItems_eq_items hp hc
  cases h with
  | marker => rfl
  | nothing mark hnil hm =>
    refine absurd (isEmptyMarker_of_clean hp hc ?_) hm
    simp [← hall, hnil]
  | lone hlone hu =>
    have hitems := hall.symm.trans hlone
    have hmarker := isEmptyMarker_of_clean hp hc (by simp [hitems])
    obtain ⟨m, s, rfl⟩ := Forest.isEmptyMarker_iff.mp hmarker
    cases hitems
  | several _ hu =>
    rcases hu with ⟨-, hu⟩ | ⟨hne, -⟩
    · exact hu
    · exact absurd hall hne

theorem cleaningRules_keepsClean : CleaningRules KeepsClean where
  constant _ _ _ _ _ := rfl
  labeled _ hus hu := .of_rebuilt hus hu
  unlabeled hl _ hc := by
    have hsome := hc.nodes.self
    rw [Forest.tree_application] at hsome
    simp [NodeClean, hl] at hsome
  collapsed {t us w v} hp hus hw hv hc := by
    have hall : surviving Forest.cleaned t = t.items := by
      unfold surviving
      split
      · refine List.filter_eq_self.mpr fun x hx => ?_
        exact Forest.isOk_cleaned_iff.mpr ⟨_, (clean_items hc x hx).cleansTo_self⟩
      · rfl
    rw [hall] at hus
    obtain rfl := KeepsClean.of_rebuilt hus hw hc
    exact hv.keepsClean hp hc

/-- What cleaning a term in the session of a ledger ends in. -/
theorem exists_run_clean (ht : t ∈ l) (memo : Option Memo) : ∃ o s k,
    (clean t).run ⟨l.session, memo, ()⟩ = .ok (o, s) ∧ s.session = k.session ∧ l ≤ k ∧
      k.AnswersWith t.tree.cleaned (KeepsClean t) o := by
  obtain ⟨o, s, k, hrun, hlk, hs, ho⟩ :=
    ensures_clean cleaningRules_keepsClean ht ⟨l.session, memo, ()⟩ ⟨le_refl l, rfl⟩
  exact ⟨o, s, k, hrun, hs.2, hlk, ho⟩

/-- A clean term is cleaned to the very same node. -/
theorem cleaning_of_clean (ht : t ∈ l) (memo : Option Memo) (hc : t.tree.Clean) :
    l.cleaning memo t = .ok (.ok t) := by
  obtain ⟨o, s, k, hrun, -, -, ho⟩ := exists_run_clean ht memo
  have hmap : o.map Forest.tree = .ok t.tree :=
    ho.tree_eq.trans (Forest.cleaned_eq_ok_iff.mpr hc.cleansTo_self)
  obtain ⟨u, hu, -⟩ := Outcome.result_map_eq_ok_iff.mp (congrArg Outcome.result hmap)
  obtain rfl : u = t := ho.holds u hu hc
  have hwarnings : o.warnings = ∅ := congrArg Outcome.warnings hmap
  obtain rfl : o = .ok u := congrArg₂ Outcome.mk hu hwarnings
  rw [cleaning, StateT.run'_eq, hrun]
  rfl

/-- Cleaning is idempotent down to nodes: what it gives is clean and without warnings, and cleaning
that again, at any later time and whatever is remembered, gives the very same node. The nodes that
it leaves alone are the clean ones. -/
theorem cleaning_idempotent (ht : t ∈ l) (memo : Option Memo) : ∃ o s k,
    (clean t).run ⟨l.session, memo, ()⟩ = .ok (o, s) ∧ s.session = k.session ∧ l ≤ k ∧
      (∀ u, o.result = .ok u → u ∈ k ∧ u.tree.Everywhere NodeClean ∧ o.warnings = ∅ ∧
        ∀ (m : Ledger) memo', k ≤ m → m.cleaning memo' u = .ok (.ok u)) ∧
      ((∃ u, o.result = .ok u ∧ u.sameNode t) ↔ t.tree.Everywhere NodeClean) := by
  obtain ⟨o, s, k, hrun, hs, hlk, ho⟩ := exists_run_clean ht memo
  have hw : t.tree.WellFormed := Forest.wellFormed_tree.mpr (wellFormed_of_mem ht)
  have hcleansTo {u : Term} (hu : o.result = .ok u) : t.tree.CleansTo u.tree := by
    rw [Forest.CleansTo, ← ho.tree_eq, Outcome.result_map, hu]
    rfl
  have hclean {u : Term} (hu : o.result = .ok u) : u.tree.Clean := (hcleansTo hu).clean hw
  refine ⟨o, s, k, hrun, hs, hlk, fun u hu => ?_, ?_, fun hnodes => ?_⟩
  · have hwarnings : o.warnings = ∅ := by
      rw [← Forest.warnings_cleaned t.tree, ← ho.tree_eq]
      rfl
    exact ⟨ho.mem u hu, (hclean hu).nodes, hwarnings, fun m memo' hkm =>
      cleaning_of_clean (mem_of_le hkm (ho.mem u hu)) memo' (hclean hu)⟩
  · rintro ⟨u, hu, hsame⟩
    obtain rfl : u = t :=
      eq_of_number_eq (ho.mem u hu) (mem_of_le hlk ht) (Term.sameNode_iff.mp hsame)
    exact (hclean hu).nodes
  · have hc : t.tree.Clean := ⟨hw, hnodes⟩
    have hresult := congrArg Outcome.result ho.tree_eq
    rw [Outcome.result_map, hc.cleansTo_self, ← Outcome.result_map] at hresult
    obtain ⟨u, hu, -⟩ := Outcome.result_map_eq_ok_iff.mp hresult
    exact ⟨u, hu, Term.sameNode_iff.mpr (congrArg Term.number (ho.holds u hu hc))⟩

/-- A token. -/
def leaf : Tree := .constant () .bracket ⟨.any, [], none, ∅⟩ .unknown

/-- A token that also stands in a wrapper, next to what fails and a group of nothing but a
marker. -/
def leftovers : Tree :=
  let wrapper : Production := ⟨.any, [.nonterminal .any], none, ∅⟩
  .ambiguity () [.application () wrapper [leaf] .unknown, leaf,
    .application () ⟨.any, [], none, ∅⟩ [] .unknown,
    .grouping () [.grouping () [] .unknown] .unknown] .unknown

theorem cleaning_idempotent_leftovers : ∃ (l : Ledger) (t : Term), t ∈ l ∧ t.tree = leftovers ∧
    ∃ o u s k, (clean t).run ⟨l.session, some ∅, ()⟩ = .ok (o, s) ∧ o.result = .ok u ∧
      u.tree = leaf ∧ ¬u.sameNode t ∧
        ∀ (m : Ledger) memo, k ≤ m → m.cleaning memo u = .ok (.ok u) := by
  obtain ⟨l, t, -, ht, htree⟩ :=
    exists_stores (l := initial) (r := leftovers) (by decide) (by decide)
  obtain ⟨o, s, k, hrun, -, -, hagain, hfixed⟩ := cleaning_idempotent ht (some ∅)
  have ho : l.cleaning (some ∅) t = .ok o := by
    rw [cleaning, StateT.run'_eq, hrun]
    rfl
  have hmap := map_tree_of_cleaning ht ho
  have hresult : o.result.map Forest.tree = .ok leaf := by
    rw [← Outcome.result_map, hmap, htree]
    rfl
  obtain ⟨u, hu, huleaf⟩ := Outcome.result_map_eq_ok_iff.mp hresult
  refine ⟨l, t, ht, htree, o, u, s, k, hrun, hu, huleaf, fun hsame => ?_, (hagain u hu).2.2.2⟩
  have hclean := hfixed.mp ⟨u, hu, hsame⟩
  rw [htree] at hclean
  cases (hclean.of_mem_items List.mem_cons_self).self

/-- Cleaning a term gives what tidying up its tree gives, and never a warning. -/
theorem cleaning_eq_tidied (ht : t ∈ l) (memo : Option Memo) :
    ∃ o : Outcome, l.cleaning memo t = .ok o ∧ o.warnings = ∅ ∧
      o.result.map Forest.tree = t.tree.tidied := by
  obtain ⟨o, ho, hmap⟩ := exists_cleaning_eq ht memo
  refine ⟨o, ho, ?_, ?_⟩
  · rw [← Forest.warnings_cleaned t.tree, ← hmap]
    rfl
  · rw [← Forest.result_cleaned, ← hmap, Outcome.result_map]

theorem cleaning_eq_tidied_leftovers : ∃ (l : Ledger) (t : Term), t ∈ l ∧ t.tree = leftovers ∧
    ∃ o : Outcome, l.cleaning (some ∅) t = .ok o ∧ o.warnings = ∅ ∧
      o.result.map Forest.tree = .ok leaf := by
  obtain ⟨l, t, -, ht, htree⟩ :=
    exists_stores (l := initial) (r := leftovers) (by decide) (by decide)
  obtain ⟨o, ho, hwarnings, hresult⟩ := cleaning_eq_tidied ht (some ∅)
  refine ⟨l, t, ht, htree, o, ho, hwarnings, ?_⟩
  rw [hresult, htree]
  rfl

end Ledger
end ParseForest
