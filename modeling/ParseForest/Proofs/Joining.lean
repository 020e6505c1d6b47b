import ParseForest.Proofs.Building
import ParseForest.Transformer

/-!
# Joining the outcomes of children

The outcome of a walked node is a function of the outcomes of its children that
does not depend on sharing. It is stated here on trees, and joining the outcomes
of terms is shown to have just this effect.
-/
namespace ParseForest
namespace Outcome
variable {τ υ : Type}

@[simp] theorem warnings_map (o : Outcome τ) (f : τ → υ) : (o.map f).warnings = o.warnings := rfl

@[simp] theorem result_map (o : Outcome τ) (f : τ → υ) : (o.map f).result = o.result.map f := rfl

@[simp] theorem isOk_map (o : Outcome τ) (f : τ → υ) : (o.map f).isOk = o.isOk := by
  obtain ⟨r, w⟩ := o
  cases r <;> rfl

@[simp] theorem failures_map (o : Outcome τ) (f : τ → υ) : (o.map f).failures = o.failures := by
  obtain ⟨r, w⟩ := o
  cases r <;> rfl

@[simp] theorem term?_map (o : Outcome τ) (f : τ → υ) : (o.map f).term? = o.term?.map f := by
  obtain ⟨r, w⟩ := o
  cases r <;> rfl

theorem term?_eq_some_iff {o : Outcome τ} {t : τ} : o.term? = some t ↔ o.result = .ok t := by
  obtain ⟨r, w⟩ := o
  cases r <;> simp [term?, Except.toOption]

theorem isSome_term? (o : Outcome τ) : o.term?.isSome = o.isOk := by
  obtain ⟨r, w⟩ := o
  cases r <;> rfl

theorem result_map_eq_ok_iff {o : Outcome τ} {f : τ → υ} {u : υ} :
    (o.map f).result = .ok u ↔ ∃ t, o.result = .ok t ∧ f t = u := by
  obtain ⟨r, w⟩ := o
  cases r <;> simp [map, Except.map]

theorem result_map_eq_error_iff {o : Outcome τ} {f : τ → υ} {e : Failures} :
    (o.map f).result = .error e ↔ o.result = .error e := by
  obtain ⟨r, w⟩ := o
  cases r <;> simp [map, Except.map]

theorem mem_terms {os : List (Outcome τ)} {t : τ} :
    t ∈ terms os ↔ ∃ o ∈ os, o.result = .ok t := by
  simp only [terms, List.mem_filterMap, term?_eq_some_iff]

theorem terms_map (os : List (Outcome τ)) (f : τ → υ) :
    terms (os.map fun o => o.map f) = (terms os).map f := by
  simp only [terms, List.filterMap_map, List.map_filterMap]
  exact List.filterMap_congr fun o _ => term?_map o f

theorem allWarnings_map (os : List (Outcome τ)) (f : τ → υ) :
    allWarnings (os.map fun o => o.map f) = allWarnings os := by
  simp [allWarnings, Function.comp_def]

theorem allWarnings_eq_empty {os : List (Outcome τ)} (h : ∀ o ∈ os, o.warnings = ∅) :
    allWarnings os = ∅ := OrderedSet.unions_map_eq_empty h

theorem allFailures_map (os : List (Outcome τ)) (f : τ → υ) :
    allFailures (os.map fun o => o.map f) = allFailures os := by
  simp [allFailures, Function.comp_def]

theorem filter_isOk_map (os : List (Outcome τ)) (f : τ → υ) :
    (os.map fun o => o.map f).filter isOk = (os.filter isOk).map fun o => o.map f := by
  simp [List.filter_map, Function.comp_def]

/-- The terms of some outcomes are related to what the outcomes are of, less what has failed. -/
theorem forall₂_filter_terms {α : Type} {xs : List α} {os : List (Outcome τ)} {ok : α → Bool}
    {S : α → τ → Prop}
    (h : List.Forall₂ (fun x o => o.isOk = ok x ∧ ∀ t, o.result = .ok t → S x t) xs os) :
    List.Forall₂ S (xs.filter ok) (terms os) := by
  induction h with
  | nil => exact .nil
  | @cons x o xs os hx _ ih =>
    obtain ⟨hok, hS⟩ := hx
    cases ho : o.result with
    | ok t =>
      have hsome : o.term? = some t := term?_eq_some_iff.mpr ho
      rw [List.filter_cons_of_pos (hok ▸ isOk_iff.mpr ⟨t, ho⟩), terms,
        List.filterMap_cons_some hsome]
      exact .cons (hS t ho) ih
    | error f =>
      have hnone : o.term? = none := by rw [term?, ho, Except.toOption]
      have hnot : ¬ok x := by
        rw [← hok, isOk, ho]
        simp [Except.isOk, Except.toBool]
      rw [List.filter_cons_of_neg hnot, terms, List.filterMap_cons_none hnone]
      exact ih

/-- Outcomes without failures give one term each. -/
theorem forall₂_terms {os : List (Outcome τ)} (h : ∀ o ∈ os, o.isOk) :
    List.Forall₂ (fun o t => o.result = .ok t) os (terms os) := by
  induction os with
  | nil => exact .nil
  | cons o os ih =>
    obtain ⟨t, ht⟩ := isOk_iff.mp (h o List.mem_cons_self)
    have htail := ih fun o' ho' => h o' (List.mem_cons_of_mem _ ho')
    have hterms : terms (o :: os) = t :: terms os :=
      List.filterMap_cons_some (term?_eq_some_iff.mpr ht)
    rw [hterms]
    exact .cons ht htail

theorem terms_eq_of_forall₂ {os : List (Outcome τ)} {ts : List τ}
    (h : List.Forall₂ (fun o t => o.result = .ok t) os ts) : terms os = ts := by
  induction h with
  | nil => rfl
  | cons ho _ ih =>
    rw [← ih]
    exact List.filterMap_cons_some (term?_eq_some_iff.mpr ho)

/-- The terms are the given ones just if each outcome has succeeded with its own. -/
theorem terms_eq_iff_forall₂ {os : List (Outcome τ)} {ts : List τ} (hlen : os.length = ts.length) :
    terms os = ts ↔ List.Forall₂ (fun t o => o.result = .ok t) ts os := by
  refine ⟨?_, fun h => terms_eq_of_forall₂ h.flip⟩
  rintro rfl
  refine (forall₂_terms fun o ho => ?_).flip
  rw [← isSome_term?]
  exact List.filterMap_length_eq_length.mp hlen.symm o ho

/-- The terms of the successes are all the terms there are. -/
theorem terms_filter_isOk (os : List (Outcome τ)) : terms (os.filter isOk) = terms os := by
  simp only [terms, List.filterMap_filter]
  refine List.filterMap_congr fun o _ => ?_
  split
  · rfl
  · rename_i h
    rw [← isSome_term?] at h
    exact (Option.not_isSome_iff_eq_none.mp h).symm

@[simp] theorem result_mergeWarnings (o : Outcome τ) (es : Issues) :
    (o.mergeWarnings es).result = o.result := rfl

/-- Continue with the term of a success, where nothing else happens. -/
def followedBy (o : Outcome τ) (next : τ → Outcome τ) : Outcome τ := Id.run (o.andThen next)

theorem followedBy_of_ok {o : Outcome τ} {next : τ → Outcome τ} {t : τ} (h : o.result = .ok t) :
    o.followedBy next = (next t).mergeWarnings o.warnings := by
  simp only [followedBy, andThen, h]
  rfl

theorem followedBy_of_error {o : Outcome τ} {next : τ → Outcome τ} {f : Failures}
    (h : o.result = .error f) : o.followedBy next = o := by
  simp only [followedBy, andThen, h]
  rfl

theorem result_followedBy_eq_ok_iff {o : Outcome τ} {next : τ → Outcome τ} {u : τ} :
    (o.followedBy next).result = .ok u ↔ ∃ t, o.result = .ok t ∧ (next t).result = .ok u := by
  cases h : o.result with
  | ok t => simp [followedBy_of_ok h]
  | error f => simp [followedBy_of_error h, h]

/-- What always succeeds adds no failures. -/
theorem failures_followedBy {o : Outcome τ} {next : τ → Outcome τ} (h : ∀ t, (next t).isOk) :
    (o.followedBy next).failures = o.failures := by
  cases hr : o.result with
  | ok t =>
    have ho : o.isOk := isOk_iff.mpr ⟨t, hr⟩
    obtain ⟨u, hu⟩ := isOk_iff.mp (h t)
    have hp : (o.followedBy next).isOk := isOk_iff.mpr ⟨u, by rw [followedBy_of_ok hr]; exact hu⟩
    rw [failures_eq_empty_iff.mpr ho, failures_eq_empty_iff.mpr hp]
  | error f => rw [followedBy_of_error hr]

end Outcome

namespace Forest

/-- The outcome of a tree, given those of its children, if it needs all of them. -/
def joinedAll (t : Tree) (os : List (Outcome Tree)) : Outcome Tree :=
  match Failures.ofIssues? (Outcome.allFailures os) with
  | some f => ⟨.error f, Outcome.allWarnings os⟩
  | none => ⟨.ok (t.withItems (Outcome.terms os)), Outcome.allWarnings os⟩

/-- The outcome of a tree, given those of its children, if it can do with some of them. -/
def joinedSome (t : Tree) (os : List (Outcome Tree)) : Outcome Tree :=
  match os.filter Outcome.isOk, Failures.ofIssues? (Outcome.allFailures os) with
  | [], some f => ⟨.error f, ∅⟩
  | kept, _ => ⟨.ok (t.withItems (Outcome.terms kept)), Outcome.allWarnings kept⟩

/-- The outcome of a tree, given those of its children. -/
def joined (t : Tree) (os : List (Outcome Tree)) : Outcome Tree :=
  match t with
  | constant .. => .ok t
  | application .. | grouping .. => t.joinedAll os
  | ambiguity .. => t.joinedSome os

theorem result_joinedAll_eq_ok_iff {t u : Tree} {os : List (Outcome Tree)} :
    (t.joinedAll os).result = .ok u ↔
      ∃ us, List.Forall₂ (fun o v => o.result = .ok v) os us ∧ u = t.withItems us := by
  unfold joinedAll
  cases hf : Failures.ofIssues? (Outcome.allFailures os) with
  | some f =>
    simp only [reduceCtorEq, false_iff]
    rintro ⟨us, hus, -⟩
    have hok : Outcome.allFailures os = ∅ := by
      refine Outcome.allFailures_eq_empty_iff.mpr fun o ho => ?_
      obtain ⟨v, -, hv⟩ := forall₂_exists_right hus ho
      exact Outcome.isOk_iff.mpr ⟨v, hv⟩
    rw [Failures.ofIssues?_eq_none_iff.mpr hok] at hf
    cases hf
  | none =>
    have hok := Outcome.allFailures_eq_empty_iff.mp (Failures.ofIssues?_eq_none_iff.mp hf)
    have hterms := Outcome.forall₂_terms hok
    constructor
    · intro h
      exact ⟨_, hterms, (Except.ok.inj h).symm⟩
    · rintro ⟨us, hus, rfl⟩
      rw [Outcome.terms_eq_of_forall₂ hus]

/-- If all fail, and there is something to fail, so does the tree. -/
theorem joinedSome_of_nil {t : Tree} {os : List (Outcome Tree)} {f : Failures}
    (hk : os.filter Outcome.isOk = [])
    (hf : Failures.ofIssues? (Outcome.allFailures os) = some f) :
    t.joinedSome os = ⟨.error f, ∅⟩ := by
  unfold joinedSome
  rw [hk, hf]

theorem joinedSome_of_not_nil {t : Tree} {os : List (Outcome Tree)}
    (h : ¬(os.filter Outcome.isOk = [] ∧ Outcome.allFailures os ≠ ∅)) :
    t.joinedSome os =
      ⟨.ok (t.withItems (Outcome.terms os)), Outcome.allWarnings (os.filter Outcome.isOk)⟩ := by
  unfold joinedSome
  split
  · rename_i f hk hf
    exact absurd ⟨hk, Failures.ofIssues?_eq_some_iff.mp hf ▸ f.nonempty⟩ h
  · rw [Outcome.terms_filter_isOk]

theorem result_joinedSome_eq_ok_iff {t u : Tree} {os : List (Outcome Tree)} :
    (t.joinedSome os).result = .ok u ↔
      (os = [] ∨ ∃ o ∈ os, o.isOk) ∧ u = t.withItems (Outcome.terms os) := by
  have hkept : Outcome.terms (os.filter Outcome.isOk) = Outcome.terms os :=
    Outcome.terms_filter_isOk os
  unfold joinedSome
  cases hk : os.filter Outcome.isOk with
  | nil =>
    have hnone : ∀ o ∈ os, ¬o.isOk := List.filter_eq_nil_iff.mp hk
    rw [hk] at hkept
    cases hf : Failures.ofIssues? (Outcome.allFailures os) with
    | some f =>
      have hne : os ≠ [] := by
        intro h
        rw [h] at hf
        cases hf
      have hex : ¬∃ o ∈ os, o.isOk := fun ⟨o, ho, hok⟩ => hnone o ho hok
      simp only [reduceCtorEq, hne, hex, or_self, false_and]
    | none =>
      have hok := Outcome.allFailures_eq_empty_iff.mp (Failures.ofIssues?_eq_none_iff.mp hf)
      have hnil : os = [] := List.eq_nil_iff_forall_not_mem.mpr fun o ho => hnone o ho (hok o ho)
      simp only [Except.ok.injEq, hkept, hnil, true_or, true_and]
      exact eq_comm
  | cons o kept =>
    have ho : o ∈ os.filter Outcome.isOk := hk ▸ List.mem_cons_self
    have hex : os = [] ∨ ∃ o ∈ os, o.isOk := .inr ⟨o, List.mem_filter.mp ho⟩
    rw [hk] at hkept
    cases hf : Failures.ofIssues? (Outcome.allFailures os) <;>
      simp only [Except.ok.injEq, hkept, hex, true_and, eq_comm (a := t.withItems _)]

/-- Only an ambiguity can do without some of its children. -/
theorem isOk_of_joined {t u : Tree} {os : List (Outcome Tree)} (hlen : os.length = t.items.length)
    (ha : ¬t.isAmbiguity) (h : (t.joined os).result = .ok u) : ∀ o ∈ os, o.isOk := by
  have all (h : (t.joinedAll os).result = .ok u) : ∀ o ∈ os, o.isOk := by
    obtain ⟨us, hus, -⟩ := result_joinedAll_eq_ok_iff.mp h
    intro o ho
    obtain ⟨v, -, hv⟩ := forall₂_exists_right hus ho
    exact Outcome.isOk_iff.mpr ⟨v, hv⟩
  cases t with
  | constant =>
    obtain rfl := List.eq_nil_of_length_eq_zero hlen
    exact fun o ho => absurd ho List.not_mem_nil
  | ambiguity => exact absurd rfl ha
  | application | grouping => exact all h

theorem failures_joinedAll (t : Tree) (os : List (Outcome Tree)) :
    (t.joinedAll os).failures = Outcome.allFailures os := by
  unfold joinedAll
  split
  · rename_i f hf
    exact Failures.ofIssues?_eq_some_iff.mp hf
  · rename_i hf
    rw [Failures.ofIssues?_eq_none_iff.mp hf]
    rfl

/-- An ambiguity has the failures of its alternatives if all of these fail, and none otherwise. -/
theorem mem_failures_joinedSome {t : Tree} {os : List (Outcome Tree)} {e : Issue} :
    e ∈ (t.joinedSome os).failures ↔ (∀ o ∈ os, ¬o.isOk) ∧ ∃ o ∈ os, e ∈ o.failures := by
  rw [← Outcome.mem_allFailures]
  unfold joinedSome
  split
  · rename_i f hkept hf
    have hnone := List.filter_eq_nil_iff.mp hkept
    rw [← Failures.ofIssues?_eq_some_iff.mp hf]
    exact (and_iff_right hnone).symm
  · rename_i hsome
    refine iff_of_false (OrderedSet.not_mem_empty e) fun ⟨hnone, he⟩ => ?_
    cases hf : Failures.ofIssues? (Outcome.allFailures os) with
    | some f => exact hsome f (List.filter_eq_nil_iff.mpr hnone) hf
    | none =>
      rw [Failures.ofIssues?_eq_none_iff.mp hf] at he
      exact OrderedSet.not_mem_empty e he

theorem isOk_joinedAll_iff {t : Tree} {os : List (Outcome Tree)} :
    (t.joinedAll os).isOk ↔ ∀ o ∈ os, o.isOk := by
  rw [← Outcome.failures_eq_empty_iff, failures_joinedAll, Outcome.allFailures_eq_empty_iff]

theorem isOk_joinedSome_iff {t : Tree} {os : List (Outcome Tree)} :
    (t.joinedSome os).isOk ↔ os = [] ∨ ∃ o ∈ os, o.isOk := by
  rw [Outcome.isOk_iff]
  simp only [result_joinedSome_eq_ok_iff, exists_and_left, exists_eq, and_true]

theorem mem_warnings_joinedAll {t : Tree} {os : List (Outcome Tree)} {e : Issue} :
    e ∈ (t.joinedAll os).warnings ↔ ∃ o ∈ os, e ∈ o.warnings := by
  rw [← Outcome.mem_allWarnings]
  unfold joinedAll
  split <;> rfl

/-- An ambiguity has the warnings of those alternatives that do not fail. -/
theorem mem_warnings_joinedSome {t : Tree} {os : List (Outcome Tree)} {e : Issue} :
    e ∈ (t.joinedSome os).warnings ↔ ∃ o ∈ os, o.isOk ∧ e ∈ o.warnings := by
  have hkept : e ∈ Outcome.allWarnings (os.filter Outcome.isOk) ↔
      ∃ o ∈ os, o.isOk ∧ e ∈ o.warnings := by
    simp only [Outcome.mem_allWarnings, List.mem_filter, and_assoc]
  rw [← hkept]
  unfold joinedSome
  split
  · rename_i hnone _
    rw [hnone]
    rfl
  · rfl

theorem warnings_joinedAll {t : Tree} {os : List (Outcome Tree)} (h : ∀ o ∈ os, o.warnings = ∅) :
    (t.joinedAll os).warnings = ∅ := by
  unfold joinedAll
  split <;> exact Outcome.allWarnings_eq_empty h

theorem warnings_joined {t : Tree} {os : List (Outcome Tree)} (h : ∀ o ∈ os, o.warnings = ∅) :
    (t.joined os).warnings = ∅ := by
  cases t with
  | constant => rfl
  | application | grouping => exact warnings_joinedAll h
  | ambiguity =>
    dsimp only [joined]
    unfold joinedSome
    split
    · rfl
    · exact Outcome.allWarnings_eq_empty fun o ho => h o (List.mem_of_mem_filter ho)

/-- If no child fails, then neither does the tree, and all warnings are kept. -/
theorem joined_of_ok (t : Tree) (f : Tree → Tree) (w : Tree → Issues) :
    t.joined (t.items.map fun u => ⟨.ok (f u), w u⟩) =
      ⟨.ok (t.withItems (t.items.map f)), .unions (t.items.map w)⟩ := by
  have hterms (ts : List Tree) :
      Outcome.terms (ts.map fun u => (⟨.ok (f u), w u⟩ : Outcome Tree)) = ts.map f := by
    refine Outcome.terms_eq_of_forall₂ ?_
    simp [List.forall₂_map_left_iff, List.forall₂_map_right_iff, List.forall₂_same]
  have hwarnings (ts : List Tree) :
      Outcome.allWarnings (ts.map fun u => (⟨.ok (f u), w u⟩ : Outcome Tree)) =
        .unions (ts.map w) := by
    simp [Outcome.allWarnings, Function.comp_def]
  have hok (ts : List Tree) :
      ∀ o ∈ ts.map fun u => (⟨.ok (f u), w u⟩ : Outcome Tree), o.isOk := by
    simp [Outcome.isOk_iff]
  have hfailures (ts : List Tree) : Failures.ofIssues? (Outcome.allFailures
      (ts.map fun u => (⟨.ok (f u), w u⟩ : Outcome Tree))) = none :=
    Failures.ofIssues?_eq_none_iff.mpr (Outcome.allFailures_eq_empty_iff.mpr (hok ts))
  cases t with
  | constant m v p s => rfl
  | application m p ts s | grouping m ts s =>
    simp only [joined, joinedAll, items, hfailures, hterms, hwarnings]
  | ambiguity m ts s =>
    have hfilter := List.filter_eq_self.mpr (hok ts)
    simp only [joined, joinedSome, items, hfailures, hfilter]
    cases hts : ts.map fun u => (⟨.ok (f u), w u⟩ : Outcome Tree) <;>
      simp only [← hts, hterms, hwarnings]

end Forest
namespace Ledger
variable {l k : Ledger}

/-- Regardless of sharing the outcome is the given one, and its term is a node of the ledger. -/
structure Answers (l : Ledger) (r : Outcome Tree) (o : Outcome) : Prop where
  tree_eq : o.map Forest.tree = r
  mem : ∀ t, o.result = .ok t → t ∈ l

theorem Answers.of_le {r : Outcome Tree} {o : Outcome} (h : l.Answers r o) (hlk : l ≤ k) :
    k.Answers r o := ⟨h.tree_eq, fun t ht => mem_of_le hlk (h.mem t ht)⟩

/-- Such an outcome, of which more is known if it is a success. -/
structure AnswersWith (l : Ledger) (r : Outcome Tree) (P : Term → Prop) (o : Outcome) : Prop
    extends l.Answers r o where
  holds : ∀ t, o.result = .ok t → P t

section AnswersWith
variable {P P' : Term → Prop} {r : Outcome Tree} {o : Outcome}

theorem AnswersWith.of_le (h : l.AnswersWith r P o) (hlk : l ≤ k) : k.AnswersWith r P o :=
  ⟨h.toAnswers.of_le hlk, h.holds⟩

theorem AnswersWith.imp (h : l.AnswersWith r P o) (hP : ∀ t, o.result = .ok t → P t → P' t) :
    l.AnswersWith r P' o := ⟨h.toAnswers, fun t ht => hP t ht (h.holds t ht)⟩

theorem Answers.with_true (h : l.Answers r o) : l.AnswersWith r (fun _ => True) o :=
  ⟨h, fun _ _ => trivial⟩

theorem answersWith_ok {r : Tree} {t : Term} (h : l.Stores r t) (hP : P t) :
    l.AnswersWith (.ok r) P (.ok t) := by
  have heq {u : Term} (hu : (Outcome.ok t).result = .ok u) : t = u := Except.ok.inj hu
  exact ⟨⟨congrArg Outcome.ok h.tree_eq, fun u hu => heq hu ▸ h.mem⟩, fun u hu => heq hu ▸ hP⟩

theorem answers_ok {r : Tree} {t : Term} (h : l.Stores r t) : l.Answers (.ok r) (.ok t) :=
  (answersWith_ok (P := fun _ => True) h trivial).toAnswers

theorem answers_error {f : Failures} {w : Issues} : l.Answers ⟨.error f, w⟩ ⟨.error f, w⟩ :=
  ⟨rfl, fun _ h => by cases h⟩

theorem answersWith_error {f : Failures} {w : Issues} :
    l.AnswersWith ⟨.error f, w⟩ P ⟨.error f, w⟩ := ⟨answers_error, fun _ h => by cases h⟩

theorem AnswersWith.mergeWarnings (h : l.AnswersWith r P o) (es : Issues) :
    l.AnswersWith (r.mergeWarnings es) P (o.mergeWarnings es) := by
  refine ⟨⟨?_, h.mem⟩, h.holds⟩
  rw [← h.tree_eq]
  rfl

end AnswersWith

theorem Answers.warn {r : Outcome Tree} {o : Outcome} (h : l.Answers r o) (e : Issue) :
    l.Answers (r.warn e) (o.warn e) := by
  refine ⟨?_, h.mem⟩
  rw [← h.tree_eq]
  rfl

/-- To continue with what an action returned is to continue with its tree. What is known of the
nodes that the two actions make is known of one after the other. -/
theorem ensures_andThen {S : Type} {fits : Ledger → S → Prop} {r : Outcome Tree} {o : Outcome}
    {next : Term → StateT S (Except InternalError) Outcome} {f : SymbolTable → Tree → Outcome Tree}
    {P : Term → Prop} {Q : Term → Term → Prop} (ho : l.AnswersWith r P o)
    (hn : ∀ t ∈ l, r.result = .ok t.tree → P t →
      Ensures fits l (next t) fun k p => k.AnswersWith (f k.symbols t.tree) (Q t) p) :
    Ensures fits l (o.andThen next)
      fun k p => k.AnswersWith (r.followedBy (f k.symbols)) (fun u => ∃ t, P t ∧ Q t u) p := by
  have htree := congrArg Outcome.result ho.tree_eq
  rw [Outcome.result_map] at htree
  unfold Outcome.andThen
  cases hr : o.result with
  | error e =>
    rw [hr] at htree
    refine Ensures.pure ?_
    rw [Outcome.followedBy_of_error htree.symm]
    exact ⟨ho.toAnswers, fun u hu => by rw [hr] at hu; cases hu⟩
  | ok t =>
    rw [hr] at htree
    refine (hn t (ho.mem t hr) htree.symm (ho.holds t hr)).bind fun k p _ hp => Ensures.pure ?_
    rw [Outcome.followedBy_of_ok htree.symm, ← ho.tree_eq, Outcome.warnings_map]
    exact (hp.imp fun u _ hu => ⟨t, ho.holds t hr, hu⟩).mergeWarnings o.warnings

/-- A rebuilt node, with warnings. -/
theorem yields_rebuilt_warned {t : Term} {items : List Term} (w : Issues) (ht : t ∈ l)
    (hi : ∀ u ∈ items, u ∈ l)
    (hlen : ∀ m p us s, t = .application m p us s → items.length = us.length) :
    l.Yields (do return ⟨.ok (← Build.rebuild t items), w⟩) fun k o =>
      k.AnswersWith ⟨.ok (t.tree.withItems (items.map Forest.tree)), w⟩ (t.Rebuilt items) o := by
  refine (yields_rebuilt ht hi hlen).bind fun k u _ hu => Ensures.pure ?_
  have heq {v : Term} (hv : (Except.ok u : Except Failures Term) = .ok v) : u = v :=
    Except.ok.inj hv
  refine ⟨⟨?_, fun v hv => heq hv ▸ hu.1⟩, fun v hv => heq hv ▸ hu.2⟩
  exact congrArg (fun r => (⟨.ok r, w⟩ : Outcome Tree)) (tree_of_rebuilt ht hi hu.2)

/-- To fail for reasons that there are is no internal error. -/
theorem yields_failAll {es : Issues} {f : Failures} (hf : Failures.ofIssues? es = some f) :
    l.Yields (Outcome.failAll es : Except InternalError Outcome) fun _ o => o = ⟨.error f, ∅⟩ := by
  have hrun : (Outcome.failAll es : Except InternalError Outcome) = .ok ⟨.error f, ∅⟩ :=
    Outcome.failAll_eq_ok_iff.mpr ⟨f, Failures.ofIssues?_eq_some_iff.mp hf, rfl⟩
  rw [hrun]
  exact Ensures.pure rfl

theorem yields_joinAll {t : Term} {os : List Outcome} (ht : t ∈ l)
    (hlen : os.length = t.items.length) (ho : ∀ o ∈ os, ∀ u, o.result = .ok u → u ∈ l) :
    l.Yields (t.joinAll os) fun k o => k.AnswersWith
      (t.tree.joinedAll (os.map fun o => o.map Forest.tree)) (t.Rebuilt (Outcome.terms os)) o := by
  unfold Forest.joinAll Forest.joinedAll
  rw [Outcome.allFailures_map, Outcome.allWarnings_map, Outcome.terms_map]
  cases hf : Failures.ofIssues? (Outcome.allFailures os) with
  | some f =>
    have hne : Outcome.allFailures os ≠ ∅ := Failures.ofIssues?_eq_some_iff.mp hf ▸ f.nonempty
    simp only [if_neg hne]
    refine (yields_failAll hf).bind fun k o _ ho => Ensures.pure ?_
    have hwarned : (⟨.error f, ∅⟩ : Outcome).mergeWarnings (Outcome.allWarnings os) =
        ⟨.error f, Outcome.allWarnings os⟩ :=
      congrArg (Outcome.mk _) (OrderedSet.ext fun e => by simp)
    rw [ho, hwarned]
    exact answersWith_error
  | none =>
    have hnone := Failures.ofIssues?_eq_none_iff.mp hf
    have hok := Outcome.allFailures_eq_empty_iff.mp hnone
    simp only [if_pos hnone]
    refine yields_rebuilt_warned _ ht (fun u hu => ?_) fun m p us s he => ?_
    · obtain ⟨o, hm, hr⟩ := Outcome.mem_terms.mp hu
      exact ho o hm u hr
    · rw [← (Outcome.forall₂_terms hok).length_eq, hlen, he]
      rfl

theorem yields_joinSome {t : Term} {os : List Outcome} (ht : t ∈ l) (ha : t.isAmbiguity)
    (ho : ∀ o ∈ os, ∀ u, o.result = .ok u → u ∈ l) :
    l.Yields (t.joinSome os) fun k o => k.AnswersWith
      (t.tree.joinedSome (os.map fun o => o.map Forest.tree)) (t.Rebuilt (Outcome.terms os)) o := by
  obtain ⟨m, us, s, rfl⟩ := Forest.isAmbiguity_iff.mp ha
  have hi : ∀ u ∈ Outcome.terms os, u ∈ l := by
    intro u hu
    obtain ⟨o, hm, hr⟩ := Outcome.mem_terms.mp hu
    exact ho o hm u hr
  have hkept : (os.map fun o => o.map Forest.tree).filter Outcome.isOk = [] ↔
      os.filter Outcome.isOk = [] := by
    rw [Outcome.filter_isOk_map, List.map_eq_nil_iff]
  have hfailures := Outcome.allFailures_map os Forest.tree
  unfold Forest.joinSome
  by_cases hfails : os.filter Outcome.isOk = [] ∧ Outcome.allFailures os ≠ ∅
  · obtain ⟨f, hf⟩ := Failures.exists_ofIssues? hfails.2
    rw [Forest.joinedSome_of_nil (hkept.mpr hfails.1) (hfailures ▸ hf)]
    simp only [if_pos hfails]
    exact (yields_failAll hf).imp fun k o _ ho => ho ▸ answersWith_error
  · rw [Forest.joinedSome_of_not_nil (by rwa [hkept, hfailures]), Outcome.terms_map,
      Outcome.filter_isOk_map, Outcome.allWarnings_map]
    simp only [if_neg hfails, Outcome.terms_filter_isOk]
    exact yields_rebuilt_warned _ ht hi (by simp)

theorem yields_join {t : Term} {os : List Outcome} (ht : t ∈ l)
    (hlen : os.length = t.items.length) (ho : ∀ o ∈ os, ∀ u, o.result = .ok u → u ∈ l) :
    l.Yields (t.join os) fun k o => k.AnswersWith
      (t.tree.joined (os.map fun o => o.map Forest.tree)) (t.Rebuilt (Outcome.terms os)) o := by
  cases t with
  | constant m v p s =>
    obtain rfl := List.eq_nil_of_length_eq_zero hlen
    exact Ensures.pure (answersWith_ok (stores_tree ht) (.inl ⟨rfl, rfl⟩))
  | application m p us s =>
    have h := yields_joinAll ht hlen ho
    rw [Forest.tree_application] at h ⊢
    exact h
  | ambiguity m us s =>
    have h := yields_joinSome ht rfl ho
    rw [Forest.tree_ambiguity] at h ⊢
    exact h
  | grouping m us s =>
    have h := yields_joinAll ht hlen ho
    rw [Forest.tree_grouping] at h ⊢
    exact h

end Ledger
end ParseForest
