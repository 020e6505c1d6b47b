import Mathlib.Logic.Relation
import ParseForest.Proofs.ConstantHooks

/-!
# How diagnostics travel up

A transformer that treats only constants gets all of its diagnostics from them.
Which of these reach the outcome of a term depends on the ways down to the
constants. An ambiguity lets failures through if it fails as a whole, and it lets
warnings through from those alternatives that do not fail. All other nodes let
everything through. The term is the very same node afterwards if this is so of
every constant in it.
-/
namespace ParseForest
open Relation (ReflTransGen)

namespace Forest

theorem joined_of_isAmbiguity {t : Tree} (ha : t.isAmbiguity) (os : List (Outcome Tree)) :
    t.joined os = t.joinedSome os := by
  obtain ⟨m, ts, s, rfl⟩ := isAmbiguity_iff.mp ha
  rfl

theorem joined_of_not_isAmbiguity {t : Tree} (hc : ¬t.isConstant) (ha : ¬t.isAmbiguity)
    (os : List (Outcome Tree)) : t.joined os = t.joinedAll os := by
  cases t with
  | constant => exact absurd rfl hc
  | ambiguity => exact absurd rfl ha
  | _ => rfl

/-- A node that is rebuilt from no more children than it has stays the same only if these are its
own. Where equal alternatives are dropped, there are too few left. -/
theorem Rebuilt.eq_iff {t u : Term} {us : List Term} (hu : t.Rebuilt us u)
    (hlen : us.length ≤ t.items.length) : u = t ↔ us = t.items := by
  rcases hu with ⟨hus, rfl⟩ | ⟨hne, m, rfl⟩
  · exact iff_of_true rfl hus
  refine iff_of_false (fun hsame => hne ?_) hne
  have hitems := congrArg items hsame
  cases t with
  | constant => exact List.eq_nil_of_length_eq_zero (Nat.le_zero.mp hlen)
  | ambiguity n ts s =>
    have hdrop : us.eraseDups = ts := hitems
    have hall := (eraseDups_sublist us).eq_of_length_le (hdrop.symm ▸ hlen)
    exact hall.symm.trans hdrop
  | application | grouping => exact hitems

/-- The step leads from a node to a child. -/
def LeadsDown (step : Term → Term → Prop) : Prop := ∀ t u, step t u → u ∈ t.items

/-- By such steps one comes from the node to a constant with the property. -/
def Reaches (step : Term → Term → Prop) (P : Term → Prop) (t : Term) : Prop :=
  ∃ c, ReflTransGen step t c ∧ c.isConstant ∧ P c

section Reaches
variable {step : Term → Term → Prop} {P : Term → Prop} {t : Term}

theorem reaches_iff_of_isConstant (hstep : LeadsDown step) (hc : t.isConstant) :
    Reaches step P t ↔ P t := by
  constructor
  · rintro ⟨c, hpath, -, hP⟩
    rcases ReflTransGen.cases_head_iff.mp hpath with rfl | ⟨u, hu, -⟩
    · exact hP
    · have hnone := hstep t u hu
      rw [items_eq_nil_of_isConstant hc] at hnone
      cases hnone
  · intro hP
    exact ⟨t, .refl, hc, hP⟩

theorem reaches_iff_of_not_isConstant (hc : ¬t.isConstant) :
    Reaches step P t ↔ ∃ u, step t u ∧ Reaches step P u := by
  constructor
  · rintro ⟨c, hpath, hconstant, hP⟩
    rcases ReflTransGen.cases_head_iff.mp hpath with rfl | ⟨u, hu, hpath⟩
    · exact absurd hconstant hc
    · exact ⟨u, hu, c, hpath, hconstant, hP⟩
  · rintro ⟨u, hu, c, hpath, hconstant, hP⟩
    exact ⟨c, .head hu hpath, hconstant, hP⟩

end Reaches

/-- The node fails, given the outcomes of constants: a constant if its outcome is a failure, an
ambiguity if it has alternatives and all of them fail, and any other node if some child fails. -/
inductive FailsBy (h : Term → Outcome) : Term → Prop
  | constant {t : Term} (hc : t.isConstant) (hfail : ¬(h t).isOk) : FailsBy h t
  | child {t u : Term} (ha : ¬t.isAmbiguity) (hu : u ∈ t.items) (hfail : FailsBy h u) :
      FailsBy h t
  | lost {t : Term} (ha : t.isAmbiguity) (hne : t.items ≠ [])
      (hall : ∀ u ∈ t.items, FailsBy h u) : FailsBy h t

/-- A step down to a child, but not from an ambiguity that does not fail. -/
def FailureStep (h : Term → Outcome) (t u : Term) : Prop :=
  u ∈ t.items ∧ (t.isAmbiguity → t.FailsBy h)

/-- A step down to a child, but not to an alternative that fails. -/
def WarningStep (h : Term → Outcome) (t u : Term) : Prop :=
  u ∈ t.items ∧ (t.isAmbiguity → ¬u.FailsBy h)

/-- Every constant in the node becomes the very node that it was. -/
def Untouched (h : Term → Outcome) (t : Term) : Prop :=
  t.Everywhere fun c => c.isConstant → ∃ v, (h c).result = .ok v ∧ v.sameNode c

section FailsBy
variable {h : Term → Outcome} {t : Term}

theorem leadsDown_failureStep : LeadsDown (FailureStep h) := fun _ _ hu => hu.1

theorem leadsDown_warningStep : LeadsDown (WarningStep h) := fun _ _ hu => hu.1

theorem not_isConstant_of_isAmbiguity (ha : t.isAmbiguity) : ¬t.isConstant := by
  obtain ⟨m, ts, s, rfl⟩ := isAmbiguity_iff.mp ha
  simp [isConstant]

theorem failsBy_iff_of_isConstant (hc : t.isConstant) : t.FailsBy h ↔ ¬(h t).isOk := by
  refine ⟨fun hfail => ?_, .constant hc⟩
  cases hfail with
  | constant _ hfail => exact hfail
  | child _ hu _ =>
    rw [items_eq_nil_of_isConstant hc] at hu
    cases hu
  | lost ha _ _ => exact absurd hc (not_isConstant_of_isAmbiguity ha)

theorem failsBy_iff_of_isAmbiguity (ha : t.isAmbiguity) :
    t.FailsBy h ↔ t.items ≠ [] ∧ ∀ u ∈ t.items, u.FailsBy h := by
  refine ⟨fun hfail => ?_, fun ⟨hne, hall⟩ => .lost ha hne hall⟩
  cases hfail with
  | constant hc _ => exact absurd hc (not_isConstant_of_isAmbiguity ha)
  | child hna _ _ => exact absurd ha hna
  | lost _ hne hall => exact ⟨hne, hall⟩

theorem failsBy_iff_of_not_isAmbiguity (hc : ¬t.isConstant) (ha : ¬t.isAmbiguity) :
    t.FailsBy h ↔ ∃ u ∈ t.items, u.FailsBy h := by
  refine ⟨fun hfail => ?_, fun ⟨u, hu, hfail⟩ => .child ha hu hfail⟩
  cases hfail with
  | constant hconstant _ => exact absurd hconstant hc
  | child _ hu hfail => exact ⟨_, hu, hfail⟩
  | lost hambiguity _ _ => exact absurd hambiguity ha

/-- In an untouched node nothing fails. -/
theorem Untouched.not_failsBy (ht : t.Untouched h) : ¬t.FailsBy h := by
  intro hfail
  induction hfail with
  | constant hc hfail =>
    obtain ⟨v, hv, -⟩ := ht.self hc
    exact hfail (Outcome.isOk_iff.mpr ⟨v, hv⟩)
  | child _ hu _ ih => exact ih (ht.of_mem_items hu)
  | lost _ hne _ ih =>
    obtain ⟨u, hu⟩ := List.exists_mem_of_ne_nil _ hne
    exact ih u hu (ht.of_mem_items hu)

theorem untouched_iff_of_not_isConstant (hc : ¬t.isConstant) :
    t.Untouched h ↔ ∀ u ∈ t.items, u.Untouched h := by
  rw [Untouched, everywhere_iff]
  exact and_iff_right fun hconstant => absurd hconstant hc

end FailsBy

section Joined
variable {h : Term → Outcome} {t : Term} {os : List Outcome}

theorem not_isOk_joined_iff (hc : ¬t.isConstant)
    (hos : List.Forall₂ (fun u o => u.FailsBy h ↔ ¬o.isOk) t.items os) :
    ¬(t.tree.joined (os.map fun o => o.map tree)).isOk ↔ t.FailsBy h := by
  by_cases ha : t.isAmbiguity
  · have hnil : os = [] ↔ t.items = [] := by
      rw [← List.length_eq_zero_iff, ← hos.length_eq, List.length_eq_zero_iff]
    rw [joined_of_isAmbiguity (by simpa using ha), isOk_joinedSome_iff,
      failsBy_iff_of_isAmbiguity ha, forall_mem_iff_of_forall₂ hos]
    simp [hnil]
  · rw [joined_of_not_isAmbiguity (by simpa using hc) (by simpa using ha), isOk_joinedAll_iff,
      failsBy_iff_of_not_isAmbiguity hc ha, exists_mem_iff_of_forall₂ hos]
    simp

theorem mem_failures_joined_iff (hc : ¬t.isConstant) {e : Issue} {P : Term → Prop}
    (hos : List.Forall₂ (fun u o => (u.FailsBy h ↔ ¬o.isOk) ∧ (P u ↔ e ∈ o.failures))
      t.items os) :
    e ∈ (t.tree.joined (os.map fun o => o.map tree)).failures ↔
      ∃ u, FailureStep h t u ∧ P u := by
  have hsome := exists_mem_iff_of_forall₂ (hos.imp fun _ _ hu => hu.2)
  by_cases ha : t.isAmbiguity
  · have hall := forall_mem_iff_of_forall₂ (hos.imp fun _ _ hu => hu.1)
    rw [joined_of_isAmbiguity (by simpa using ha), mem_failures_joinedSome, List.forall_mem_map]
    simp only [List.mem_map, exists_exists_and_eq_and, Outcome.isOk_map, Outcome.failures_map,
      ← hall, ← hsome]
    constructor
    · rintro ⟨hlost, u, hu, hP⟩
      exact ⟨u, ⟨hu, fun _ => .lost ha (List.ne_nil_of_mem hu) hlost⟩, hP⟩
    · rintro ⟨u, ⟨hu, hfail⟩, hP⟩
      exact ⟨((failsBy_iff_of_isAmbiguity ha).mp (hfail ha)).2, u, hu, hP⟩
  · rw [joined_of_not_isAmbiguity (by simpa using hc) (by simpa using ha), failures_joinedAll,
      Outcome.allFailures_map, Outcome.mem_allFailures, ← hsome]
    simp [FailureStep, ha]

theorem mem_warnings_joined_iff (hc : ¬t.isConstant) {e : Issue} {P : Term → Prop}
    (hos : List.Forall₂ (fun u o => (u.FailsBy h ↔ ¬o.isOk) ∧ (P u ↔ e ∈ o.warnings))
      t.items os) :
    e ∈ (t.tree.joined (os.map fun o => o.map tree)).warnings ↔
      ∃ u, WarningStep h t u ∧ P u := by
  by_cases ha : t.isAmbiguity
  · have hkept : List.Forall₂ (fun u o => ¬u.FailsBy h ∧ P u ↔ o.isOk ∧ e ∈ o.warnings)
        t.items os := hos.imp fun u o hu => by rw [hu.1, hu.2, not_not]
    rw [joined_of_isAmbiguity (by simpa using ha), mem_warnings_joinedSome]
    simp only [List.mem_map, exists_exists_and_eq_and, Outcome.isOk_map, Outcome.warnings_map,
      ← exists_mem_iff_of_forall₂ hkept, WarningStep, ha, forall_true_left, and_assoc]
  · have hsome := exists_mem_iff_of_forall₂ (hos.imp fun _ _ hu => hu.2)
    rw [joined_of_not_isAmbiguity (by simpa using hc) (by simpa using ha), mem_warnings_joinedAll]
    simp only [List.mem_map, exists_exists_and_eq_and, Outcome.warnings_map, ← hsome]
    simp [WarningStep, ha]

end Joined

end Forest

namespace Ledger
open Forest (FailsBy FailureStep WarningStep Reaches Untouched)
variable {σ : Type} {base l k : Ledger} {t : Term} {h : Term → Outcome}
  {hook : Term → Pass σ Outcome} {o : Outcome}

/-- The hook makes of a constant what the function says, though perhaps with a new node in place of
one that is not the constant itself. It may make nodes and symbols and change what the transformer
keeps for itself, but it does not touch the memo. -/
def Realizes (base : Ledger) (h : Term → Outcome) (hook : Term → Pass σ Outcome) : Prop :=
  ∀ (l : Ledger) (t : Term) (s : PassState σ), base ≤ l → t ∈ l → t.isConstant →
    s.session = l.session → ∃ o s' k, (hook t).run s = .ok (o, s') ∧ l ≤ k ∧
      s'.session = k.session ∧ s'.memo = s.memo ∧ (∀ u, o.result = .ok u → u ∈ k) ∧
        o.map (·.sameNode t) = (h t).map (·.sameNode t)

/-- A hook may just return what the function says, if this is there already. -/
theorem realizes_pure
    (hmem : ∀ (l : Ledger) (t u : Term), base ≤ l → t ∈ l → (h t).result = .ok u → u ∈ l) :
    Realizes base h (fun t => (pure (h t) : Pass σ Outcome)) :=
  fun l t s hb ht _ hs => ⟨h t, s, l, rfl, le_refl l, hs, rfl, fun u hu => hmem l t u hb ht hu, rfl⟩

/-- Whether the outcome is a failure, its diagnostics and whether it is the node itself are as the
constants say. -/
structure Propagates (h : Term → Outcome) (l : Ledger) (t : Term) (o : Outcome) : Prop where
  mem : ∀ u, o.result = .ok u → u ∈ l
  failsBy_iff : t.FailsBy h ↔ ¬o.isOk
  failures_iff : ∀ e, Reaches (FailureStep h) (fun c => e ∈ (h c).failures) t ↔ e ∈ o.failures
  warnings_iff : ∀ e, Reaches (WarningStep h) (fun c => e ∈ (h c).warnings) t ↔ e ∈ o.warnings
  untouched_iff : t.Untouched h ↔ o.result = .ok t

theorem stable_propagates : Stable base (Propagates h) :=
  fun _ _ _ _ _ hlk _ ho => { ho with mem := fun u hu => mem_of_le hlk (ho.mem u hu) }

theorem result_eq_iff_of_sameNode (ht : t ∈ k) (hmem : ∀ u, o.result = .ok u → u ∈ k) :
    (∃ u, o.result = .ok u ∧ u.sameNode t) ↔ o.result = .ok t := by
  constructor
  · rintro ⟨u, hu, hsame⟩
    obtain rfl : u = t := eq_of_number_eq (hmem u hu) ht (Term.sameNode_iff.mp hsame)
    exact hu
  · intro hresult
    exact ⟨t, hresult, Term.sameNode_iff.mpr rfl⟩

theorem propagates_of_isConstant (ht : t ∈ k) (hc : t.isConstant)
    (hmem : ∀ u, o.result = .ok u → u ∈ k)
    (ho : o.map (·.sameNode t) = (h t).map (·.sameNode t)) : Propagates h k t o where
  mem := hmem
  failsBy_iff := by
    rw [Forest.failsBy_iff_of_isConstant hc, ← Outcome.isOk_map (h t), ← ho, Outcome.isOk_map]
  failures_iff e := by
    rw [Forest.reaches_iff_of_isConstant Forest.leadsDown_failureStep hc,
      ← Outcome.failures_map (h t), ← ho, Outcome.failures_map]
  warnings_iff e := by
    rw [Forest.reaches_iff_of_isConstant Forest.leadsDown_warningStep hc,
      ← Outcome.warnings_map (h t), ← ho, Outcome.warnings_map]
  untouched_iff := by
    have hself : t.Untouched h ↔ ∃ v, (h t).result = .ok v ∧ v.sameNode t := by
      rw [Untouched, Forest.everywhere_iff, Forest.items_eq_nil_of_isConstant hc]
      simp [hc]
    rw [hself, ← Outcome.result_map_eq_ok_iff, ← ho, Outcome.result_map_eq_ok_iff,
      result_eq_iff_of_sameNode ht hmem]

/-- What holds of the children of a walked node holds of the node. -/
theorem propagates_of_walked (hc : ¬t.isConstant) {os : List Outcome}
    (hos : List.Forall₂ (Propagates h l) t.items os)
    (ho : k.AnswersWith (t.tree.joined (os.map fun o => o.map Forest.tree))
      (t.Rebuilt (Outcome.terms os)) o) : Propagates h k t o := by
  have hlen : os.length = t.items.length := hos.length_eq.symm
  have hfails : ¬o.isOk ↔ t.FailsBy h := by
    rw [← Forest.not_isOk_joined_iff hc (hos.imp fun _ _ hu => hu.failsBy_iff), ← ho.tree_eq,
      Outcome.isOk_map]
  refine ⟨ho.mem, hfails.symm, fun e => ?_, fun e => ?_, ?_⟩
  · rw [Forest.reaches_iff_of_not_isConstant hc, ← Forest.mem_failures_joined_iff hc
      (hos.imp fun _ _ hu => ⟨hu.failsBy_iff, hu.failures_iff e⟩), ← ho.tree_eq,
      Outcome.failures_map]
  · rw [Forest.reaches_iff_of_not_isConstant hc, ← Forest.mem_warnings_joined_iff hc
      (hos.imp fun _ _ hu => ⟨hu.failsBy_iff, hu.warnings_iff e⟩), ← ho.tree_eq,
      Outcome.warnings_map]
  · have hchildren : t.Untouched h ↔ Outcome.terms os = t.items := by
      rw [Forest.untouched_iff_of_not_isConstant hc, Outcome.terms_eq_iff_forall₂ hlen,
        forall₂_iff_forall_mem (hos.imp fun _ _ hu => hu.untouched_iff)]
    have hterms : (Outcome.terms os).length ≤ t.items.length :=
      hlen ▸ List.length_filterMap_le _ _
    constructor
    · intro ht
      obtain ⟨u, hu⟩ := Outcome.isOk_iff.mp (not_not.mp (mt hfails.mp ht.not_failsBy))
      rwa [((ho.holds u hu).eq_iff hterms).mpr (hchildren.mp ht)] at hu
    · intro hresult
      exact hchildren.mpr (((ho.holds t hresult).eq_iff hterms).mp rfl)

theorem stepEstablishes_propagates (hhook : Realizes base h hook) :
    StepEstablishes base (Propagates h) (Transformer.onConstants hook) := by
  refine stepEstablishes_of_hook stable_propagates ?_ ?_
  · intro l t s hb ht hc hs
    obtain ⟨o, s', k, hrun, hlk, hsession, hmemo, hmem, ho⟩ := hhook l t s hb ht hc hs
    exact ⟨o, s', k, hrun, hlk, hsession, hmemo,
      propagates_of_isConstant (mem_of_le hlk ht) hc hmem ho⟩
  · intro self l t hb ht hc hself
    have hwalk := ensures_walk_children stable_propagates (fun _ _ _ ho => ho.mem) hb ht hself
    refine hwalk.imp fun k o _ ho => ?_
    obtain ⟨n, os, -, -, hos, ho⟩ := ho
    exact propagates_of_walked hc hos ho

/-- Diagnostics travel along paths. If a hook treats constants as a function says, then transforming
a term always returns an outcome, with a memo or without. It is a failure just if the term fails by
the function. Its failures are those of the constants that are reached from the term without passing
an ambiguity that does not fail, and its warnings are those of the constants that are reached
without passing an alternative that fails. If it is a success, it is the very same node just if this
is so of every constant in the term. -/
theorem diagnostics_follow_paths (hhook : Realizes l h hook) (ht : t ∈ l) (memoize : Bool)
    (own : σ) : ∃ o s k,
      ((Transformer.onConstants hook).transform t).run
        ⟨l.session, if memoize then some ∅ else none, own⟩ = .ok (o, s) ∧
      s.session = k.session ∧ l ≤ k ∧ (¬o.isOk ↔ t.FailsBy h) ∧
      (∀ e, e ∈ o.failures ↔ t.Reaches (FailureStep h) fun c => e ∈ (h c).failures) ∧
      (∀ e, e ∈ o.warnings ↔ t.Reaches (WarningStep h) fun c => e ∈ (h c).warnings) ∧
      ∀ u, o.result = .ok u → u ∈ k ∧ (u.sameNode t ↔ ∀ c : Term, c.Occurs t → c.isConstant →
        ∃ v, (h c).result = .ok v ∧ v.sameNode c) := by
  have hfits : Fits l (Propagates h) l
      (⟨l.session, if memoize then some ∅ else none, own⟩ : PassState σ) := by
    refine ⟨le_refl l, rfl, fun memo hm => ?_⟩
    cases memoize with
    | false => cases hm
    | true => exact Option.some.inj hm ▸ remembers_empty
  obtain ⟨o, s, k, hrun, hlk, hs, ho⟩ :=
    ensures_transform stable_propagates (stepEstablishes_propagates hhook) ht _ hfits
  refine ⟨o, s, k, hrun, hs.session_eq, hlk, ho.failsBy_iff.symm, fun e => (ho.failures_iff e).symm,
    fun e => (ho.warnings_iff e).symm, fun u hu => ⟨ho.mem u hu, ?_⟩⟩
  have hsame : (∃ v, o.result = .ok v ∧ v.sameNode t) ↔ u.sameNode t := by
    rw [hu]
    simp
  exact hsame.symm.trans
    ((result_eq_iff_of_sameNode (mem_of_le hlk ht) ho.mem).trans ho.untouched_iff.symm)

/-- A token, found at the given place. -/
def tokenAt (value : Symbol) (offset : Nat) : Tree :=
  .constant () value ⟨.any, [], none, ∅⟩ ⟨offset, 1, .unknownContext⟩

/-- A bracket is an error, and any other token stays with a warning. -/
def withoutBrackets (t : Term) : Outcome :=
  match t.tree with
  | .constant _ value p s =>
      if value = .bracket then .fail (.unlabeledNonSubsort p.sort 0 s)
      else (Outcome.ok t).warn (.listSortExpected p.sort .any s)
  | _ => .ok t

/-- Two alternatives, only one of which is an error, and next to them another error. -/
def halfWrong : Tree :=
  .grouping () [.ambiguity () [tokenAt .bracket 0, tokenAt .anySort 1] .unknown,
    tokenAt .bracket 2] .unknown

theorem diagnostics_follow_paths_halfWrong : ∃ (l : Ledger) (t : Term), t ∈ l ∧
    t.tree = halfWrong ∧ ∃ o s,
      ((Transformer.onConstants fun c => pure (withoutBrackets c)).transform t).run
        ⟨l.session, some ∅, ()⟩ = .ok (o, s) ∧
      ¬o.isOk ∧ .unlabeledNonSubsort .any 0 ⟨2, 1, .unknownContext⟩ ∈ o.failures ∧
      .listSortExpected .any .any ⟨1, 1, .unknownContext⟩ ∈ o.warnings := by
  obtain ⟨l, t, -, ht, htree⟩ :=
    exists_stores (l := initial) (r := halfWrong) (by decide) (by decide)
  have hhook : Realizes l withoutBrackets
      (fun c => (pure (withoutBrackets c) : Pass Unit Outcome)) := by
    refine realizes_pure fun k c u _ hc hu => ?_
    unfold withoutBrackets at hu
    split at hu
    · split at hu
      · cases hu
      · exact Except.ok.inj hu ▸ hc
    · exact Except.ok.inj hu ▸ hc
  obtain ⟨o, s, -, hrun, -, -, hfail, hfailures, hwarnings, -⟩ :=
    diagnostics_follow_paths hhook ht true ()
  -- The nodes that lie in the term, found by their trees.
  have hpair {u : Term} {q r : Tree} (hu : u.tree.items = [q, r]) :
      ∃ x y : Term, u.items = [x, y] ∧ x.tree = q ∧ y.tree = r := by
    rw [Forest.items_tree] at hu
    simpa [List.map_eq_cons_iff] using hu
  obtain ⟨a, b, hitems, ha, hb⟩ := hpair (congrArg Forest.items htree)
  obtain ⟨c, d, halternatives, -, hd⟩ := hpair (congrArg Forest.items ha)
  have hwrong : withoutBrackets b =
      .fail (.unlabeledNonSubsort .any 0 ⟨2, 1, .unknownContext⟩) := by
    rw [withoutBrackets, hb]
    rfl
  have hwarned : withoutBrackets d =
      (Outcome.ok d).warn (.listSortExpected .any .any ⟨1, 1, .unknownContext⟩) := by
    rw [withoutBrackets, hd]
    rfl
  have hconstant {u : Term} {v : Symbol} {n : Nat} (hu : u.tree = tokenAt v n) : u.isConstant := by
    rw [← Forest.isConstant_tree, hu]
    rfl
  have hat : a ∈ t.items := by simp [hitems]
  have hbt : b ∈ t.items := by simp [hitems]
  have hda : d ∈ a.items := by simp [halternatives]
  have hgroup : ¬t.isAmbiguity := by
    rw [← Forest.isAmbiguity_tree, htree]
    decide
  have hsurvives : ¬d.FailsBy withoutBrackets := by
    rw [Forest.failsBy_iff_of_isConstant (hconstant hd), hwarned]
    exact not_not.mpr rfl
  refine ⟨l, t, ht, htree, o, s, hrun, hfail.mpr ?_, (hfailures _).mpr ?_, (hwarnings _).mpr ?_⟩
  · refine .child hgroup hbt (.constant (hconstant hb) ?_)
    rw [hwrong]
    decide
  · refine ⟨b, .single ⟨hbt, fun h => absurd h hgroup⟩, hconstant hb, ?_⟩
    simp only [hwrong]
    exact OrderedSet.mem_singleton.mpr rfl
  · refine ⟨d, .head ⟨hat, fun h => absurd h hgroup⟩ (.single ⟨hda, fun _ => hsurvives⟩),
      hconstant hd, ?_⟩
    simp only [hwarned]
    exact OrderedSet.mem_insert.mpr (.inl rfl)

end Ledger
end ParseForest
