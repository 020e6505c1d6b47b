import ParseForest.Proofs.Tally
import ParseForest.Proofs.Tokens

/-!
# Shared nodes are transformed once

With a memo a transformer of constants comes once to each node that occurs in a term,
however often it occurs there, and without a memo as often as it occurs. A child that
fails does not keep it from the next. Whatever becomes of a node at its first occurrence,
all its occurrences become the very same.
-/
namespace ParseForest

namespace Forest
variable {ι : Type} {t u : Forest ι}

theorem constants_of_isConstant (h : t.isConstant) : t.constants = [t] := by
  cases t with
  | constant => exact constants_constant ..
  | application | ambiguity | grouping => cases h

theorem constants_eq_of_not_isConstant (h : ¬t.isConstant) :
    t.constants = t.items.flatMap constants := by
  cases t with
  | constant => exact absurd rfl h
  | application | ambiguity | grouping => simp [items]

end Forest

namespace Build

/-- A rebuilt node has the very nodes that it was rebuilt from, though an ambiguity only those of
them that equal none before. -/
theorem items_of_rebuild {t u : Term} {items : List Term} {s s' : Session}
    (hc : ¬t.isConstant) (h : (rebuild t items).run s = .ok (u, s')) :
    (u.items.map Term.number).Sublist (items.map Term.number) ∧
      (¬t.isAmbiguity → u.items.map Term.number = items.map Term.number) := by
  unfold rebuild at h
  split at h
  · rename_i hsame
    obtain ⟨rfl, -⟩ := Prod.mk.inj (Except.ok.inj h)
    have heq := Term.sameNodes_iff.mp hsame
    exact ⟨heq ▸ List.Sublist.refl _, fun _ => heq⟩
  · cases t with
    | constant => exact absurd rfl hc
    | application m p ts r =>
      by_cases hlen : items.length = p.arity
      · obtain ⟨rfl, -⟩ :=
          Prod.mk.inj (Except.ok.inj ((application_run hlen r s).symm.trans h))
        exact ⟨.refl _, fun _ => rfl⟩
      · cases (application_run_of_ne hlen r s).symm.trans h
    | ambiguity m ts r =>
      obtain ⟨rfl, -⟩ := Prod.mk.inj (Except.ok.inj ((ambiguity_run items r s).symm.trans h))
      exact ⟨(eraseDups_sublist items).map _, fun ha => absurd rfl ha⟩
    | grouping m ts r =>
      obtain ⟨rfl, -⟩ := Prod.mk.inj (Except.ok.inj ((grouping_run items r s).symm.trans h))
      exact ⟨.refl _, fun _ => rfl⟩

end Build

namespace Forest

/-- If a walked node does not fail, it is rebuilt from what its children became, and only an
ambiguity can do with some of them. -/
theorem rebuilt_of_join {t u : Term} {os : List Outcome} {s s' : Session} {o : Outcome}
    (hc : ¬t.isConstant) (h : (t.join os).run s = .ok (o, s')) (hu : o.result = .ok u) :
    (∃ r, (Build.rebuild t (Outcome.terms os)).run s = .ok (u, r)) ∧
      (¬t.isAmbiguity → ∀ p ∈ os, p.isOk) := by
  have rebuilt {items : List Term} {ws : Issues}
      (h : (do return ⟨.ok (← Build.rebuild t items), ws⟩ : Build Outcome).run s = .ok (o, s')) :
      ∃ r, (Build.rebuild t items).run s = .ok (u, r) := by
    obtain ⟨v, r, hrun, hv⟩ := run_bind_eq_ok_iff.mp h
    obtain ⟨rfl, -⟩ := Prod.mk.inj (Except.ok.inj hv)
    obtain rfl := Except.ok.inj hu
    exact ⟨r, hrun⟩
  have all (h : (t.joinAll os).run s = .ok (o, s')) :
      (∃ r, (Build.rebuild t (Outcome.terms os)).run s = .ok (u, r)) ∧ ∀ p ∈ os, p.isOk := by
    unfold joinAll at h
    by_cases hf : Outcome.allFailures os = ∅
    · simp only [if_pos hf] at h
      exact ⟨rebuilt h, Outcome.allFailures_eq_empty_iff.mp hf⟩
    · obtain ⟨f, hfail⟩ := exists_failAll hf
      simp only [if_neg hf, hfail] at h
      cases h
      cases hu
  have some (h : (t.joinSome os).run s = .ok (o, s')) :
      ∃ r, (Build.rebuild t (Outcome.terms os)).run s = .ok (u, r) := by
    unfold joinSome at h
    by_cases hf : os.filter Outcome.isOk = [] ∧ Outcome.allFailures os ≠ ∅
    · obtain ⟨f, hfail⟩ := exists_failAll hf.2
      simp only [if_pos hf, hfail] at h
      cases h
      cases hu
    · simp only [if_neg hf, Outcome.terms_filter_isOk] at h
      exact rebuilt h
  cases t with
  | constant => exact absurd rfl hc
  | application | grouping => exact (all h).imp_right fun hok _ => hok
  | ambiguity => exact ⟨some h, fun ha => absurd rfl ha⟩

/-- The items of a node that is walked are the very nodes that its children became: one for each
child in order, or some of them if the node is an ambiguity. -/
theorem items_of_join {t u : Term} {os : List Outcome} {s s' : Session} {o : Outcome}
    (hc : ¬t.isConstant) (h : (t.join os).run s = .ok (o, s')) (hu : o.result = .ok u) :
    (∀ x ∈ u.items, ∃ p ∈ os, ∃ y, p.result = .ok y ∧ Term.sameNode x y) ∧
      (¬t.isAmbiguity →
        List.Forall₂ (fun p x => ∃ y, p.result = .ok y ∧ Term.sameNode x y) os u.items) := by
  obtain ⟨⟨r, hrun⟩, hok⟩ := rebuilt_of_join hc h hu
  obtain ⟨hsublist, hnumbers⟩ := Build.items_of_rebuild hc hrun
  refine ⟨fun x hx => ?_, fun ha => ?_⟩
  · obtain ⟨y, hy, hyx⟩ := List.mem_map.mp (hsublist.subset (List.mem_map_of_mem hx))
    obtain ⟨p, hp, hpy⟩ := Outcome.mem_terms.mp hy
    exact ⟨p, hp, y, hpy, Term.sameNode_iff.mpr hyx.symm⟩
  · have hsame : List.Forall₂ (fun x y => Term.sameNode x y) u.items (Outcome.terms os) := by
      have heq := hnumbers ha
      rw [← List.forall₂_eq_eq_eq, List.forall₂_map_left_iff, List.forall₂_map_right_iff] at heq
      exact heq.imp fun _ _ hn => Term.sameNode_iff.mpr hn
    exact forall₂_trans (Outcome.forall₂_terms (hok ha)) hsame.flip
      fun _ _ y _ hy hx => ⟨y, hy, hx⟩

end Forest

namespace Transformer
variable {σ : Type} {hook : Term → Pass σ Outcome} {u : Term}
  {self : Term → Pass (List Visit × σ) Outcome}

/-- Without a memo the action leads to calls of the hook with all constants of the node, from left
to right. -/
def Enumerates (u : Term) (action : Pass (List Visit × σ) Outcome) : Prop :=
  ∀ {s s' : PassState (List Visit × σ)} {o : Outcome}, s.memo = none →
    action.run s = .ok (o, s') →
    s'.memo = none ∧ s'.own.1.map Prod.fst = s.own.1.map Prod.fst ++ u.constants

theorem enumerates_mapM {us : List Term} {os : List Outcome} {s s' : PassState (List Visit × σ)}
    (h : ∀ u ∈ us, Enumerates u (self u)) (hm : s.memo = none)
    (hrun : (us.mapM self).run s = .ok (os, s')) : s'.memo = none ∧
      s'.own.1.map Prod.fst = s.own.1.map Prod.fst ++ us.flatMap Forest.constants := by
  induction us generalizing s os with
  | nil =>
    cases hrun
    exact ⟨hm, (List.append_nil _).symm⟩
  | cons u us ih =>
    obtain ⟨o, r, rest, hu, hus, rfl⟩ := exists_of_mapM_cons hrun
    obtain ⟨hhead, htail⟩ := List.forall_mem_cons.mp h
    obtain ⟨hr, hvisits⟩ := hhead hm hu
    obtain ⟨hr', hvisits'⟩ := ih htail hr hus
    refine ⟨hr', ?_⟩
    rw [hvisits', hvisits, List.flatMap_cons, List.append_assoc]

theorem enumerates_walk (hc : ¬u.isConstant) (h : ∀ v ∈ u.items, Enumerates v (self v)) :
    Enumerates u (walk self u) := by
  intro s s' o hm hrun
  obtain ⟨os, r, hchildren, hbuild⟩ := run_bind_eq_ok_iff.mp hrun
  obtain ⟨session, -, rfl⟩ := Pass.of_build_run hbuild
  obtain ⟨hr, hvisits⟩ := enumerates_mapM h hm hchildren
  rw [Forest.constants_eq_of_not_isConstant hc]
  exact ⟨hr, hvisits⟩

theorem enumerates_transformWithin (hhook : KeepsMemo hook) (depth : Nat) (u : Term) :
    Enumerates u ((onConstants (recorded hook)).transformWithin depth u) := by
  induction depth generalizing u with
  | zero =>
    intro s s' o _ hrun
    cases hrun
  | succ depth ih =>
    intro s s' o hm hrun
    have hnew : (s.memo.bind fun m => m.get? u) = none := by rw [hm, Option.bind_none]
    obtain ⟨r, hstep, rfl⟩ := exists_step_of_transformWithin hnew hrun
    have hr : r.memo = none ∧
        r.own.1.map Prod.fst = s.own.1.map Prod.fst ++ u.constants := by
      cases u with
      | constant m v p sp =>
        obtain ⟨hvisits, hcall⟩ := of_recorded_run hstep
        have hmemo : r.memo = s.memo := hhook rfl hcall
        exact ⟨hmemo.trans hm, by rw [hvisits, List.map_append, Forest.constants_constant]; rfl⟩
      | application | ambiguity | grouping =>
        refine enumerates_walk ?_ (fun v _ => ih v) hm hstep
        exact Bool.false_ne_true
    exact ⟨by rw [hr.1, Option.map_none], hr.2⟩

end Transformer

namespace Ledger
variable {σ : Type} {base l : Ledger} {hook : Term → Pass σ Outcome} {t : Term}
open Transformer (onConstants recorded)

/-- The hook gives an outcome for every constant, and for a success a node of the session. It may
fail, make nodes and symbols and let the outcome depend on what the transformer keeps for itself,
but it does not touch the memo. -/
structure Serves (base : Ledger) (hook : Term → Pass σ Outcome) : Prop where
  answers : ∀ (l : Ledger) (t : Term) (s : PassState σ), base ≤ l → t ∈ l → t.isConstant →
    s.session = l.session → ∃ o s' k, (hook t).run s = .ok (o, s') ∧ l ≤ k ∧
      s'.session = k.session ∧ ∀ u, o.result = .ok u → u ∈ k
  keepsMemo : Transformer.KeepsMemo hook

theorem Serves.recorded (h : base.Serves hook) : base.Serves (recorded hook) where
  answers l t s hb ht hc hs := by
    obtain ⟨o, s', k, hrun, hlk, hs', ho⟩ := h.answers l t s.unrecorded hb ht hc hs
    refine ⟨o, ⟨s'.session, s'.memo, s.own.1 ++ [(t, o)], s'.own⟩, k, ?_, hlk, hs', ho⟩
    change ((hook t).run s.unrecorded).map _ = _
    rw [hrun]
    rfl
  keepsMemo hc hrun := h.keepsMemo hc (Transformer.of_recorded_run hrun).2

/-- The term of a success is a node of the ledger. -/
def Returns : Relation := fun l _ o => ∀ u, o.result = .ok u → u ∈ l

theorem stable_returns : Stable base Returns :=
  fun _ _ _ _ _ hlk _ ho u hu => mem_of_le hlk (ho u hu)

theorem stepEstablishes_returns (h : base.Serves hook) :
    StepEstablishes base Returns (onConstants hook) := by
  refine stepEstablishes_of_hook stable_returns ?_ ?_
  · intro l t s hb ht hc hs
    obtain ⟨o, s', k, hrun, hlk, hs', ho⟩ := h.answers l t s hb ht hc hs
    exact ⟨o, s', k, hrun, hlk, hs', h.keepsMemo hc hrun, ho⟩
  · intro self l t hb ht _ hself
    have hwalk := ensures_walk_children stable_returns (fun _ _ _ ho => ho) hb ht hself
    refine hwalk.imp fun k o _ ho => ?_
    obtain ⟨_, _, -, -, -, ho⟩ := ho
    exact ho.mem

theorem Serves.exists_run (h : l.Serves hook) (ht : t ∈ l) (own : σ) (memo : Option Memo)
    (hm : ∀ m, memo = some m → m = ∅) :
    ∃ o s, ((onConstants hook).transform t).run ⟨l.session, memo, own⟩ = .ok (o, s) := by
  have hfits : Fits l Returns l (⟨l.session, memo, own⟩ : PassState σ) := by
    refine ⟨le_refl l, rfl, fun m hmemo => ?_⟩
    rw [hm m hmemo]
    exact remembers_empty
  obtain ⟨o, s, -, hrun, -⟩ :=
    ensures_transform stable_returns (stepEstablishes_returns h) ht _ hfits
  exact ⟨o, s, hrun⟩

/-- With a memo, which is empty at the start, each node that occurs in a term is transformed once,
even if constants fail: in the end the memo has just one entry for each of them and no other, the
hook was given each constant once, and what became of a node became of all its occurrences, so
that they are replaced by the very same node. Without a memo the hook is given a constant as often
as it occurs. That the calls are noted makes no difference. -/
theorem shared_transformed_once (h : l.Serves hook) (ht : t ∈ l) (own : σ) :
    let noted : Transformer (List Visit × σ) := onConstants (recorded hook)
    (∃ o s memo, ∃ outcome : Term → Outcome,
      (noted.transform t).run ⟨l.session, some ∅, [], own⟩ = .ok (o, s) ∧
      s.memo = some memo ∧ o = outcome t ∧
      (∀ u, u ∈ memo.nodes ↔ u.Occurs t) ∧ (memo.nodes.map Term.number).Nodup ∧
      memo.size = memo.nodes.length ∧
      (∀ n entry, memo.entries[n]? = some entry ↔
        ∃ u, u.Occurs t ∧ n = u.number ∧ entry = (u, outcome u)) ∧
      s.own.1.Perm ((memo.nodes.filter Forest.isConstant).map fun c => (c, outcome c)) ∧
      ∀ u, u.Occurs t → (noted.transform u).run s = .ok (outcome u, s) ∧ (¬u.isConstant →
        (∃ r r', (u.join (u.items.map outcome)).run r = .ok (outcome u, r')) ∧
        ∀ w, (outcome u).result = .ok w →
          (∀ x ∈ w.items, ∃ v ∈ u.items, ∃ y, (outcome v).result = .ok y ∧ Term.sameNode x y) ∧
          (¬u.isAmbiguity → List.Forall₂
            (fun v x => ∃ y, (outcome v).result = .ok y ∧ Term.sameNode x y)
            u.items w.items))) ∧
    (∃ o s, (noted.transform t).run ⟨l.session, none, [], own⟩ = .ok (o, s) ∧
      s.own.1.map Prod.fst = t.constants) ∧
    ∀ s, ((noted.transform t).run s).map (fun r => (r.1, r.2.unrecorded)) =
      ((onConstants hook).transform t).run s.unrecorded := by
  intro noted
  have hn : t.Numbered := fun u v hu hv hne =>
    eq_of_number_eq (mem_of_occurs ht hu) (mem_of_occurs ht hv) hne
  refine ⟨?_, ?_, Transformer.records_transformWithin _ t⟩
  · obtain ⟨o, s, hrun⟩ := h.recorded.exists_run ht ([], own) (some ∅) (by simp)
    obtain ⟨memo, hmemo, htally, -, hknows⟩ :=
      Transformer.tallies_transformWithin hn h.keepsMemo _ .refl rfl (Tally.start t) hrun
    obtain ⟨outcome, hnodes, hentries, hvisits, hall⟩ := htally.exists_outcome hknows
    refine ⟨o, s, memo, outcome, hrun, hmemo, hknows.unique (hall t .refl).1, hnodes,
      htally.nodup_numbers, (Memo.length_nodes memo).symm, hentries, hvisits, fun u hu => ?_⟩
    obtain ⟨hu', hjoin⟩ := hall u hu
    refine ⟨Transformer.transformWithin_of_some ?_, fun hc => ?_⟩
    · rw [hmemo]
      exact hu'.get?_eq
    · obtain ⟨r, r', hrun'⟩ := hjoin hc
      refine ⟨⟨r, r', hrun'⟩, fun w hw => ?_⟩
      obtain ⟨hmem, hitems⟩ := Forest.items_of_join hc hrun' hw
      refine ⟨fun x hx => ?_, fun ha => List.forall₂_map_left_iff.mp (hitems ha)⟩
      obtain ⟨p, hp, hx⟩ := hmem x hx
      obtain ⟨v, hv, rfl⟩ := List.mem_map.mp hp
      exact ⟨v, hv, hx⟩
  · obtain ⟨o, s, hrun⟩ := h.recorded.exists_run ht ([], own) none (by simp)
    exact ⟨o, s, hrun, (Transformer.enumerates_transformWithin h.keepsMemo _ t rfl hrun).2⟩

/-- Rules for tokens are such hooks. -/
theorem serves_ofRules (rules : List (String × LeafRule)) : base.Serves fun t => do
    Pass.update (· + 1)
    Pass.build (LeafRule.applyFirst rules t) where
  answers l t s hb ht hc hs := by
    obtain ⟨rule, -, hperforms⟩ : DependsOnNode base _ := dependsOnNode_ofRules rules
    obtain ⟨o, s', k, hrun, hlk, hs', -, r, -, ho⟩ := hperforms l t s hb ht hc hs
    exact ⟨o, s', k, hrun, hlk, hs', ho.mem⟩
  keepsMemo hc hrun := by
    obtain ⟨_, r, hupdate, hrun⟩ := run_bind_eq_ok_iff.mp hrun
    cases hupdate
    obtain ⟨session, -, rfl⟩ := Pass.of_build_run hrun
    rfl

theorem shared_transformed_once_pair : ∃ (l : Ledger) (t c : Term), t ∈ l ∧ t.items = [c, c] ∧
    c.isConstant ∧ ∃ f : Transformer (List Visit × Nat),
      f = onConstants (recorded fun u => do
        Pass.update (· + 1)
        Pass.build (LeafRule.applyFirst [("bracket", .fail)] u)) ∧
      (∃ o s memo, (f.transform t).run ⟨l.session, some ∅, [], 0⟩ = .ok (o, s) ∧
        s.memo = some memo ∧ memo.size = 2 ∧ s.own.1.map Prod.fst = [c]) ∧
      ∃ o s, (f.transform t).run ⟨l.session, none, [], 0⟩ = .ok (o, s) ∧
        s.own.1.map Prod.fst = [c, c] := by
  obtain ⟨k, c, -, hck, htree⟩ := exists_stores (l := initial)
    (r := .constant () .bracket ⟨.any, [], none, ∅⟩ .unknown) (by decide) (by decide)
  have hpair : ∀ u ∈ [c, c], u ∈ k := by simpa using hck
  have hknown : Span.unknown.context ∈ k.symbols := SymbolTable.mem_of_le k.reserved (by decide)
  obtain ⟨t, l, -, -, ht, m, rfl⟩ := (yields_made_grouping hpair hknown).run
  have hc : c.isConstant := by
    rw [← Forest.isConstant_tree, htree]
    rfl
  have hne : (.grouping m [c, c] .unknown : Term) ≠ c := by
    intro he
    rw [← he] at hc
    cases hc
  have hoccurs (u : Term) : u.Occurs (.grouping m [c, c] .unknown) ↔
      u ∈ [.grouping m [c, c] .unknown, c] := by
    have hself : u.Occurs c ↔ u = c := by
      rw [Forest.occurs_iff, Forest.items_eq_nil_of_isConstant hc]
      simp
    rw [Forest.occurs_iff]
    simp [Forest.items, hself]
  obtain ⟨hshared, hplain, -⟩ := shared_transformed_once (serves_ofRules [("bracket", .fail)]) ht 0
  obtain ⟨o, s, memo, outcome, hrun, hmemo, -, hnodes, hnodup, hsize, -, hvisits, -⟩ := hshared
  have hperm : memo.nodes.Perm [.grouping m [c, c] .unknown, c] := by
    refine (List.perm_ext_iff_of_nodup (.of_map _ hnodup) ?_).mpr fun u => ?_
    · simpa using hne
    · rw [hnodes, hoccurs]
  refine ⟨l, _, c, ht, rfl, hc, _, rfl, ⟨o, s, memo, hrun, hmemo, ?_, ?_⟩, ?_⟩
  · rw [hsize, hperm.length_eq]
    rfl
  · have hconstants : memo.nodes.filter Forest.isConstant = [c] := by
      refine List.perm_singleton.mp ((hperm.filter Forest.isConstant).trans (.of_eq ?_))
      rw [List.filter_cons_of_neg Bool.false_ne_true, List.filter_cons_of_pos hc, List.filter_nil]
    rw [hconstants, List.map_singleton, List.perm_singleton] at hvisits
    rw [hvisits, List.map_singleton]
  · obtain ⟨o', s', hrun', hvisits'⟩ := hplain
    refine ⟨o', s', hrun', hvisits'.trans ?_⟩
    simp [Forest.constants_of_isConstant hc]

end Ledger
end ParseForest
