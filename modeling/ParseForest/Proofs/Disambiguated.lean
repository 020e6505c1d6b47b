import ParseForest.Disambiguation
import ParseForest.Proofs.Cleaned
import ParseForest.Proofs.Completing

/-!
# What disambiguation makes of a tree

The two passes run one after the other, and which of them remember outcomes makes
no difference. So the verdict on a term is that on its tree.
-/
namespace ParseForest

theorem Outcome.verdict_eq_ok_iff {o : Outcome} {d : Disambiguated} :
    o.verdict = .ok d ↔ o.result = .ok d.term ∧ o.warnings = d.warnings := by
  obtain ⟨result, warnings⟩ := o
  obtain ⟨term, issues⟩ := d
  cases result <;> simp [verdict, intoResult]

theorem Outcome.verdict_eq_error_iff {o : Outcome} {r : Rejection} :
    o.verdict = .error r ↔ o.result = .error r.failures ∧ o.warnings = r.warnings := by
  obtain ⟨result, warnings⟩ := o
  obtain ⟨failures, issues⟩ := r
  cases result <;> simp [verdict, intoResult]

/-- Outcomes that are the same regardless of sharing are the same verdict, regardless of sharing. -/
theorem Outcome.map_verdict_congr {o p : Outcome} (h : o.map Forest.tree = p.map Forest.tree) :
    o.verdict.map (fun d => (d.term.tree, d.warnings)) =
      p.verdict.map fun d => (d.term.tree, d.warnings) := by
  obtain ⟨result, warnings⟩ := o
  obtain ⟨result', warnings'⟩ := p
  obtain ⟨hresult, rfl⟩ := Outcome.mk.inj h
  cases result <;> cases result' <;>
    simp_all [verdict, intoResult, Except.map]

namespace Forest

/-- What becomes of a tree: it is cleaned, and what is left is completed. -/
def disambiguated (names : SymbolTable) (g : Grammar) (t : Tree) : Outcome Tree :=
  t.cleaned.followedBy (Completion.completedOutcome names g)

variable {names later : SymbolTable} {g : Grammar} {t u : Tree}

theorem disambiguated_of_le (hg : g.KnownTo names) (h : names ≤ later) (ht : t.KnownTo names) :
    t.disambiguated later g = t.disambiguated names g := by
  rw [disambiguated, disambiguated]
  cases hr : t.cleaned.result with
  | error f => rw [Outcome.followedBy_of_error hr, Outcome.followedBy_of_error hr]
  | ok u =>
    have hu : u.KnownTo names := CleansTo.knownTo hr ht
    rw [Outcome.followedBy_of_ok hr, Outcome.followedBy_of_ok hr, Completion.completedOutcome,
      Completion.completedOutcome, Completion.completed_of_le hg h hu]

/-- If cleaning succeeds, completion has the last word. -/
theorem disambiguated_of_cleansTo (h : t.CleansTo u) :
    t.disambiguated names g = Completion.completedOutcome names g u := by
  rw [disambiguated, Outcome.followedBy_of_ok h, warnings_cleaned, Outcome.mergeWarnings]
  exact congrArg (Outcome.mk _) (OrderedSet.ext fun e => by simp [Completion.completedOutcome])

/-- If cleaning fails, nothing else happens. -/
theorem disambiguated_of_error {f : Failures} (h : t.cleaned.result = .error f) :
    t.disambiguated names g = ⟨.error f, ∅⟩ := by
  rw [disambiguated, Outcome.followedBy_of_error h, ← warnings_cleaned t, ← h]

theorem result_disambiguated_eq_ok_iff : (t.disambiguated names g).result = .ok u ↔
    ∃ v, t.CleansTo v ∧ (Completion.completed names g v).tree = u := by
  rw [disambiguated, Outcome.result_followedBy_eq_ok_iff]
  simp only [Completion.completedOutcome, Except.ok.injEq]
  exact Iff.rfl

end Forest

namespace Ledger
variable {l : Ledger} {t : Term} {g : Grammar}

section Verdicts
variable {names : SymbolTable} {a u : Tree} {o : Outcome}

/-- What is answered about a tree that is cleaned is accepted, completed and with the warnings of
completion. -/
theorem Answers.accepts (h : l.Answers (a.disambiguated names g) o) (hu : a.CleansTo u) :
    ∃ d, o.verdict = .ok ⟨d, (Completion.completed names g u).warnings⟩ ∧ d ∈ l ∧
      d.tree = (Completion.completed names g u).tree := by
  have hmap : o.map Forest.tree = Completion.completedOutcome names g u :=
    h.tree_eq.trans (Forest.disambiguated_of_cleansTo hu)
  obtain ⟨d, hd, htree⟩ := Outcome.result_map_eq_ok_iff.mp (congrArg Outcome.result hmap)
  have hwarnings : o.warnings = (Completion.completed names g u).warnings :=
    congrArg Outcome.warnings hmap
  exact ⟨d, Outcome.verdict_eq_ok_iff.mpr ⟨hd, hwarnings⟩, h.mem d hd, htree⟩

/-- What is answered about a tree for which cleaning fails is rejected for just this. -/
theorem Answers.rejects {f : Failures} (h : l.Answers (a.disambiguated names g) o)
    (hf : a.cleaned.result = .error f) : o.verdict = .error ⟨f, ∅⟩ := by
  have hmap : o.map Forest.tree = ⟨.error f, ∅⟩ :=
    h.tree_eq.trans (Forest.disambiguated_of_error hf)
  have hresult := Outcome.result_map_eq_error_iff.mp (congrArg Outcome.result hmap)
  exact Outcome.verdict_eq_error_iff.mpr ⟨hresult, congrArg Outcome.warnings hmap⟩

end Verdicts

section Rules
variable {S P S' : Term → Term → Prop}

/-- Relations that the rules of the two passes establish hold one after the other. -/
theorem yields_disambiguate_with (hS : CleaningRules S) (hP : PlacingRules g P)
    (hS' : CompletionRules P S') (hg : g.KnownTo l.symbols) (ht : t ∈ l) (config : PassConfig) :
    l.Yields (disambiguate g t config) fun k v => ∃ o : Outcome, k.AnswersWith
      (t.tree.disambiguated l.symbols g) (fun d => ∃ u, S t u ∧ S' u d) o ∧ v = o.verdict := by
  refine (yields_start (le_refl l) (ensures_clean hS ht)).bind fun k cleaned hlk hcleaned => ?_
  have hcomplete (u : Term) (hu : u ∈ k) :
      k.Yields (Pass.start config.memoizeLists () (complete g u))
        fun n o => n.AnswersWith (Completion.completedOutcome n.symbols g u.tree) (S' u) o :=
    yields_start hlk (ensures_complete hP hS' hg hu)
  have hthen := ensures_andThen (f := fun names => Completion.completedOutcome names g) hcleaned
    fun u hu _ _ => hcomplete u hu
  refine hthen.bind fun n o hkn ho => Ensures.pure ⟨o, ?_, rfl⟩
  have hle := symbols_le (le_trans hlk hkn)
  rw [← Forest.disambiguated_of_le hg hle (Forest.knownTo_tree.mpr (knownTo_of_mem ht))]
  exact ho

end Rules

theorem yields_disambiguate (hg : g.KnownTo l.symbols) (ht : t ∈ l) (config : PassConfig) :
    l.Yields (disambiguate g t config) fun k v =>
      ∃ o : Outcome, k.Answers (t.tree.disambiguated l.symbols g) o ∧ v = o.verdict :=
  (yields_disambiguate_with cleaningRules_true placingRules_true completionRules_true hg ht
    config).imp fun _ _ _ ⟨o, ho, hv⟩ => ⟨o, ho.toAnswers, hv⟩

/-- The verdict on a term in the session of a ledger. -/
def disambiguation (g : Grammar) (config : PassConfig) (l : Ledger) (t : Term) :
    Except InternalError (Except Rejection Disambiguated) :=
  (disambiguate g t config).run' l.session

theorem exists_disambiguation_with {S P S' : Term → Term → Prop} (hS : CleaningRules S)
    (hP : PlacingRules g P) (hS' : CompletionRules P S') (hg : g.KnownTo l.symbols) (ht : t ∈ l)
    (config : PassConfig) : ∃ (o : Outcome) (k : Ledger),
      l.disambiguation g config t = .ok o.verdict ∧ l ≤ k ∧ k.AnswersWith
        (t.tree.disambiguated l.symbols g) (fun d => ∃ u, S t u ∧ S' u d) o := by
  obtain ⟨v, k, hrun, hlk, o, ho, rfl⟩ := (yields_disambiguate_with hS hP hS' hg ht config).run
  refine ⟨o, k, ?_, hlk, ho⟩
  rw [disambiguation, StateT.run'_eq, hrun]
  rfl

/-- There is always a verdict. -/
theorem exists_disambiguation_eq (hg : g.KnownTo l.symbols) (ht : t ∈ l) (config : PassConfig) :
    ∃ (o : Outcome) (k : Ledger), l.disambiguation g config t = .ok o.verdict ∧ l ≤ k ∧
      k.Answers (t.tree.disambiguated l.symbols g) o := by
  obtain ⟨v, k, hrun, hlk, o, ho, rfl⟩ := (yields_disambiguate hg ht config).run
  refine ⟨o, k, ?_, hlk, ho⟩
  rw [disambiguation, StateT.run'_eq, hrun]
  rfl

/-- There is a verdict, and what is accepted is a node whose tree was cleaned and then completed. -/
theorem exists_disambiguation (hg : g.KnownTo l.symbols) (ht : t ∈ l) (config : PassConfig) :
    ∃ v, l.disambiguation g config t = .ok v ∧ ∀ d, v = .ok d → ∃ u, t.tree.CleansTo u ∧
      d.term.tree = (Completion.completed l.symbols g u).tree := by
  obtain ⟨o, k, hrun, -, ho⟩ := exists_disambiguation_eq hg ht config
  refine ⟨o.verdict, hrun, fun d hd => ?_⟩
  cases hc : t.tree.cleaned.result with
  | error f => cases (ho.rejects hc).symm.trans hd
  | ok u =>
    obtain ⟨d', hd', -, htree⟩ := ho.accepts hc
    obtain rfl := Except.ok.inj (hd'.symm.trans hd)
    exact ⟨u, hc, htree⟩

/-- A term that is not rejected by cleaning is accepted. -/
theorem exists_accepted (hg : g.KnownTo l.symbols) (ht : t ∈ l) (config : PassConfig) {u : Tree}
    (hu : t.tree.CleansTo u) : ∃ d, l.disambiguation g config t = .ok (.ok d) := by
  obtain ⟨o, k, hrun, -, ho⟩ := exists_disambiguation_eq hg ht config
  obtain ⟨d, hd, -⟩ := ho.accepts hu
  exact ⟨_, hrun.trans (congrArg _ hd)⟩

end Ledger
end ParseForest
