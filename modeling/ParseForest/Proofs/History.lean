import ParseForest.Proofs.ConstantHooks
import ParseForest.Proofs.Disambiguated

/-!
# Histories of a transformer

Whoever uses a transformer asks it about one term after the other, may build terms
between the questions, also from what was answered, and may clear the memo. For a
transformer whose outcomes are given by a rule this cannot be noticed: every answer
is the one that a transformer gives that has no memo and was never asked before.
-/
namespace ParseForest

/-- What is asked about a node. -/
inductive Request where
  /-- What becomes of the node, when everything is forgotten. -/
  | afresh
  /-- What becomes of the node, whatever is remembered. -/
  | resumed
  /-- What becomes of the node if it is only walked. -/
  | walked
deriving DecidableEq

/-- What the transformer does when it is asked about a node. -/
def Transformer.answer {σ : Type} (f : Transformer σ) : Request → Term → Pass σ Outcome
  | .afresh => f.transformAfresh
  | .resumed => f.transform
  | .walked => f.walkNode

/-- A transformer that has no memo and was never asked before gives the outcome as well, regardless
of sharing. -/
def Transformer.Confirms {σ : Type} (f : Transformer σ) (session : Session) (request : Request)
    (t : Term) (o : Outcome) : Prop :=
  ∀ own : σ, ∃ p s, (f.answer request t).run ⟨session, none, own⟩ = .ok (p, s) ∧
    p.map Forest.tree = o.map Forest.tree

/-- A question and its answer. -/
structure Exchange where
  request : Request
  node : Term
  outcome : Outcome

namespace Ledger
variable {σ : Type}

/-- From the nodes of the base on a transformer may have been used so that whoever uses it has the
nodes `known`, the pass is in the state `s`, and the answers in `log` were given. -/
inductive History (base : Ledger) (f : Transformer σ) :
    (known : List Term) → PassState σ → (log : List Exchange) → Prop where
  | start (memoize : Bool) (own : σ) :
      History base f base.nodes ⟨base.session, if memoize then some ∅ else none, own⟩ []
  /-- A question about something that occurs in a known node. What it gives is known afterwards. -/
  | ask {known : List Term} {s s' : PassState σ} {log : List Exchange} {t u : Term} {o : Outcome}
      (request : Request) : History base f known s log → u ∈ known → t.Occurs u →
      (f.answer request t).run s = .ok (o, s') →
      History base f (o.term?.toList ++ known) s' (⟨request, t, o⟩ :: log)
  | forget {known : List Term} {s s' : PassState σ} {log : List Exchange} :
      History base f known s log → Pass.forget.run s = .ok ((), s') → History base f known s' log
  /-- Something is made that can be made in every session in which there are the known nodes. -/
  | make {known made : List Term} {s s' : PassState σ} {log : List Exchange}
      (action : Build (List Term)) : History base f known s log →
      (∀ k : Ledger, k.session = s.session → (∀ u ∈ known, u ∈ k) →
        k.Yields action fun m us => ∀ u ∈ us, u ∈ m) →
      (Pass.build action).run s = .ok (made, s') → History base f (made ++ known) s' log

/-- Transformers for which outcomes are given by a rule: the two passes, and what treats only
constants in its own way, which depends on nothing but the constant. -/
inductive Determinate (base : Ledger) : Transformer σ → Prop where
  | cleaner : Determinate base .cleaner
  | completer {g : Grammar} : g.KnownTo base.symbols → Determinate base (.completer g)
  | onConstants {hook : Term → Pass σ Outcome} :
      DependsOnNode base hook → Determinate base (.onConstants hook)

variable {base l k : Ledger} {f : Transformer σ} {t : Term}
  {rule : SymbolTable → Term → Option (Outcome Tree)} {known : List Term} {s s' : PassState σ}
  {log : List Exchange}

theorem Determinate.exists_rule (h : Determinate base f) :
    ∃ rule, Lasting base rule ∧ StepEstablishes base (Obeys rule) f := by
  cases h with
  | cleaner =>
    refine ⟨_, lasting_of_settledBy settledBy_cleaned, ?_⟩
    rw [← follows_eq]
    exact stepEstablishes_cleaned
  | completer hg =>
    refine ⟨_, lasting_of_settledBy (settledBy_completed hg), ?_⟩
    rw [← follows_eq]
    exact stepEstablishes_completed hg
  | onConstants h =>
    obtain ⟨rule, hrule, hhook⟩ := h
    exact ⟨_, lasting_ruled hrule, stepEstablishes_onConstants hrule hhook⟩

/-- The outcome of what is asked about a node, if the rule gives the outcomes of nodes. -/
def asked (rule : SymbolTable → Term → Option (Outcome Tree)) (request : Request)
    (names : SymbolTable) (t : Term) : Option (Outcome Tree) :=
  if request = .walked ∧ ¬t.isConstant then walkedBy rule names t else rule names t

theorem lasting_asked (h : Lasting base rule) (request : Request) :
    Lasting base (asked rule request) := by
  intro l k t r hb hlk ht hr
  unfold asked at hr ⊢
  split at hr
  · rename_i hwalk
    rw [if_pos hwalk]
    exact lasting_walkedBy h l k t r hb hlk ht hr
  · rename_i hwalk
    rw [if_neg hwalk]
    exact h l k t r hb hlk ht hr

theorem ensures_forget {R : Relation} :
    Ensures (Fits base R) l (Pass.forget : Pass σ Unit) fun _ _ => True := by
  intro s hs
  refine ⟨(), _, l, Pass.forget_run s, le_refl l, ⟨hs.base_le, hs.session_eq, ?_⟩, trivial⟩
  intro memo hm
  obtain ⟨_, _, rfl⟩ := Option.map_eq_some_iff.mp hm
  exact remembers_empty

/-- Every question is answered by the rule. -/
theorem ensures_answer (hrule : Lasting base rule) (hf : StepEstablishes base (Obeys rule) f)
    (ht : t ∈ l) (request : Request) :
    Ensures (Fits base (Obeys rule)) l (f.answer request t)
      fun k o => Obeys (asked rule request) k t o := by
  have htransform (k : Ledger) (u : Term) (hu : u ∈ k) :
      Ensures (Fits base (Obeys rule)) k (f.transform u) fun m o => Obeys rule m u o :=
    ensures_transform (stable_obeys hrule) hf hu
  cases request with
  | resumed => exact htransform l t ht
  | afresh => exact ensures_forget.bind fun k _ hlk _ => htransform k t (mem_of_le hlk ht)
  | walked =>
    refine ensures_of_base fun hb => ?_
    cases t with
    | constant m v p s => exact hf _ l _ hb ht fun k u _ hu _ => htransform k u hu
    | application | ambiguity | grouping =>
      exact ensures_walk_obeys hrule hb ht fun k u _ hu _ => htransform k u hu

/-- The known nodes, the state and the answers go with the ledger. -/
structure Keeps (base : Ledger) (rule : SymbolTable → Term → Option (Outcome Tree)) (k : Ledger)
    (known : List Term) (s : PassState σ) (log : List Exchange) : Prop where
  fits : Fits base (Obeys rule) k s
  known_mem : ∀ u ∈ known, u ∈ k
  answered : ∀ e ∈ log, e.node ∈ k ∧ Obeys (asked rule e.request) k e.node e.outcome

/-- Everything stays as it is while nodes are added. -/
theorem Keeps.grow {made : List Term} (h : Keeps base rule k known s log)
    (hrule : Lasting base rule) {m : Ledger} (hkm : k ≤ m) (hs : Fits base (Obeys rule) m s')
    (hmade : ∀ u ∈ made, u ∈ m) :
    Keeps base rule m (made ++ known) s' log where
  fits := hs
  known_mem := List.forall_mem_append.mpr ⟨hmade, fun u hu => mem_of_le hkm (h.known_mem u hu)⟩
  answered e he := by
    obtain ⟨hmem, ho⟩ := h.answered e he
    refine ⟨mem_of_le hkm hmem, ?_⟩
    exact stable_obeys (lasting_asked hrule e.request) k m _ _ h.fits.base_le hkm hmem ho

/-- Whatever has happened, there is a ledger that accounts for it. -/
theorem History.exists_keeps (hrule : Lasting base rule)
    (hf : StepEstablishes base (Obeys rule) f) (h : History base f known s log) :
    ∃ k, Keeps base rule k known s log := by
  induction h with
  | start memoize own =>
    refine ⟨base, ⟨⟨le_refl base, rfl, fun memo hm => ?_⟩, fun u hu => hu, by simp⟩⟩
    cases memoize with
    | false => cases hm
    | true =>
      obtain rfl := Option.some.inj hm
      exact remembers_empty
  | @ask _ s s' _ t u o request _ hu htu hrun ih =>
    obtain ⟨k, hk⟩ := ih
    have ht : t ∈ k := mem_of_occurs (hk.known_mem u hu) htu
    obtain ⟨o', s'', m, hrun', hkm, hs', ho⟩ := ensures_answer hrule hf ht request s hk.fits
    obtain ⟨rfl, rfl⟩ : o' = o ∧ s'' = s' := by simpa [hrun] using hrun'.symm
    refine ⟨m, ?_⟩
    have hmade : ∀ v ∈ o'.term?.toList, v ∈ m := by
      intro v hv
      obtain ⟨r, -, hr⟩ := ho
      exact hr.mem v (Outcome.term?_eq_some_iff.mp (Option.mem_toList.mp hv))
    have hgrow := hk.grow hrule hkm hs' hmade
    refine ⟨hgrow.fits, hgrow.known_mem, List.forall_mem_cons.mpr ⟨⟨mem_of_le hkm ht, ho⟩, ?_⟩⟩
    exact hgrow.answered
  | @forget _ s s' _ _ hrun ih =>
    obtain ⟨k, hk⟩ := ih
    obtain ⟨_, s'', m, hrun', hkm, hs', -⟩ := ensures_forget s hk.fits
    obtain rfl : s'' = s' := by simpa [hrun] using hrun'.symm
    have hmade : ∀ v ∈ ([] : List Term), v ∈ m := fun v hv => absurd hv List.not_mem_nil
    exact ⟨m, hk.grow hrule hkm hs' hmade⟩
  | @make _ made s s' _ action _ hmake hrun ih =>
    obtain ⟨k, hk⟩ := ih
    have hyields := hmake k hk.fits.session_eq.symm hk.known_mem
    obtain ⟨us, s'', m, hrun', hkm, hs', hus⟩ :=
      ensures_build (stable_obeys hrule) hyields s hk.fits
    obtain ⟨rfl, rfl⟩ : us = made ∧ s'' = s' := by simpa [hrun] using hrun'.symm
    exact ⟨m, hk.grow hrule hkm hs' hus⟩

/-- What obeys the rule is given without a memo as well. -/
theorem Obeys.confirms {request : Request} {o : Outcome} (hrule : Lasting base rule)
    (hf : StepEstablishes base (Obeys rule) f) (hb : base ≤ k) (ht : t ∈ k)
    (ho : Obeys (asked rule request) k t o) : f.Confirms k.session request t o := by
  intro own
  have hfits : Fits base (Obeys rule) k ⟨k.session, none, own⟩ := ⟨hb, rfl, by simp⟩
  obtain ⟨p, s, m, hrun, hkm, -, hp⟩ := ensures_answer hrule hf ht request _ hfits
  have hlater := stable_obeys (lasting_asked hrule request) k m t o hb hkm ht ho
  exact ⟨p, s, hrun, hp.tree_eq hlater⟩

/-- Whatever has happened, every question is answered, and no answer, given or remembered, tells
anything of the memo or of what was asked before. In particular it makes no difference to
disambiguation which of its passes have a memo. -/
theorem history_unobservable (hf : Determinate base f) :
    (∀ {known : List Term} {s : PassState σ} {log : List Exchange}, History base f known s log →
      (∀ request, ∀ u ∈ known, ∀ t : Term, t.Occurs u →
        ∃ answered, (f.answer request t).run s = .ok answered) ∧
      (∀ e ∈ log, f.Confirms s.session e.request e.node e.outcome) ∧
      ∀ memo, s.memo = some memo → ∀ (n : Nat) (entry : Term × Outcome),
        memo.entries[n]? = some entry →
          entry.1.number = n ∧ f.Confirms s.session .resumed entry.1 entry.2) ∧
    ∀ (g : Grammar) (t : Term), g.KnownTo base.symbols → t ∈ base →
      ∃ verdict, ∀ config, ∃ v, base.disambiguation g config t = .ok v ∧
        v.map (fun d => (d.term.tree, d.warnings)) = verdict := by
  obtain ⟨rule, hrule, hstep⟩ := hf.exists_rule
  constructor
  · intro known s log h
    obtain ⟨k, hk⟩ := h.exists_keeps hrule hstep
    have hb := hk.fits.base_le
    rw [hk.fits.session_eq]
    refine ⟨fun request u hu t htu => ?_, fun e he => ?_, fun memo hm n entry hentry => ?_⟩
    · have ht := mem_of_occurs (hk.known_mem u hu) htu
      obtain ⟨o, s', -, hrun, -⟩ := ensures_answer hrule hstep ht request s hk.fits
      exact ⟨_, hrun⟩
    · obtain ⟨hmem, ho⟩ := hk.answered e he
      exact ho.confirms hrule hstep hb hmem
    · obtain ⟨hmem, hn, ho⟩ := hk.fits.remembers memo hm n entry hentry
      have hresumed : Obeys (asked rule .resumed) k entry.1 entry.2 := ho
      exact ⟨hn, hresumed.confirms hrule hstep hb hmem⟩
  · intro g t hg ht
    obtain ⟨o, _, -, -, ho⟩ := exists_disambiguation_eq hg ht {}
    refine ⟨o.verdict.map fun d => (d.term.tree, d.warnings), fun config => ?_⟩
    obtain ⟨p, _, hrun, -, hp⟩ := exists_disambiguation_eq hg ht config
    exact ⟨_, hrun, Outcome.map_verdict_congr (hp.tree_eq.trans ho.tree_eq.symm)⟩

/-- A group of two constants, which have a token that is replaced. -/
def twins : Tree :=
  let twin := .constant () .bracket ⟨.any, [], none, ∅⟩ .unknown
  .grouping () [twin, twin] .unknown

/-- The group is transformed, and then it is walked with a memo that knows its constants. -/
theorem history_unobservable_twins : ∃ (l : Ledger) (t : Term), t ∈ l ∧ t.tree = twins ∧
    ∃ (f : Transformer Nat) (known : List Term) (s : PassState Nat) (o p : Outcome),
      f = .ofRules [("bracket", .rename "brace")] ∧
      History l f known s [⟨.walked, t, p⟩, ⟨.resumed, t, o⟩] ∧
      f.Confirms s.session .walked t p ∧ f.Confirms s.session .resumed t o := by
  obtain ⟨l, t, -, ht, htree⟩ := exists_stores (l := initial) (r := twins) (by decide) (by decide)
  have hf : Determinate l (.ofRules [("bracket", .rename "brace")]) :=
    .onConstants (dependsOnNode_ofRules _)
  have hstart : History l _ l.nodes _ [] :=
    .start (f := .ofRules [("bracket", .rename "brace")]) true 0
  obtain ⟨⟨o, s⟩, hrun⟩ := ((history_unobservable hf).1 hstart).1 .resumed t ht t .refl
  have hfirst := hstart.ask .resumed ht .refl hrun
  have hknown : t ∈ o.term?.toList ++ l.nodes := List.mem_append_right _ ht
  obtain ⟨⟨p, s'⟩, hrun'⟩ := ((history_unobservable hf).1 hfirst).1 .walked t hknown t .refl
  have hsecond := hfirst.ask .walked hknown .refl hrun'
  have hconfirms := ((history_unobservable hf).1 hsecond).2.1
  refine ⟨l, t, ht, htree, _, _, s', o, p, rfl, hsecond, ?_⟩
  exact ⟨hconfirms _ List.mem_cons_self, hconfirms _ (List.mem_cons_of_mem _ List.mem_cons_self)⟩

end Ledger
end ParseForest
