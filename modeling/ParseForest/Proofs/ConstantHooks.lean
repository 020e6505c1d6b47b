import ParseForest.LeafRule
import ParseForest.Proofs.Completing

/-!
# Hooks for constants

A transformer that treats only constants in its own way makes of a term what its
hook makes of the constants, joined on the way up. So if what the hook makes of a
constant depends on nothing but the constant, then what the transformer makes of a
node depends on nothing but the node. The rules for tokens are such hooks, though
they bring in strings: once a string is in the table, it has its symbol for good.
-/
namespace ParseForest
namespace Forest

/-- Whether the node is a constant. -/
def isConstant {ι : Type} : Forest ι → Bool
  | constant .. => true
  | _ => false

@[simp] theorem isConstant_tree (t : Term) : t.tree.isConstant = t.isConstant := by
  cases t <;> simp [isConstant]

theorem items_eq_nil_of_isConstant {t : Term} (hc : t.isConstant) : t.items = [] := by
  cases t with
  | constant => rfl
  | _ => cases hc

/-- The outcome of a node, given those of its children, if the rule treats constants. -/
def ruledNode (rule : Term → Option (Outcome Tree)) (t : Term)
    (rs : List (Option (Outcome Tree))) : Option (Outcome Tree) :=
  if t.isConstant then rule t else (rs.mapM id).map t.tree.joined

/-- The outcome of a term whose constants are treated by the rule, and whose other nodes are walked.
There is none as long as the rule has to wait. -/
def ruled (rule : SymbolTable → Term → Option (Outcome Tree)) (names : SymbolTable) (t : Term) :
    Option (Outcome Tree) := t.fold (ruledNode (rule names))

variable {rule : SymbolTable → Term → Option (Outcome Tree)} {names : SymbolTable} {t : Term}

theorem ruled_of_isConstant (h : t.isConstant) : ruled rule names t = rule names t := by
  rw [ruled, fold_eq, ruledNode, if_pos h]

theorem ruled_of_not_isConstant (h : ¬t.isConstant) :
    ruled rule names t = Ledger.walkedBy (ruled rule) names t := by
  rw [ruled, fold_eq, ruledNode, if_neg h, List.mapM_map]
  rfl

end Forest

namespace LeafRule

/-- What becomes of a constant by a rule, once the table has the string that the rule brings in. -/
def said (rule : LeafRule) (names : SymbolTable) (t : Tree) (production : Production)
    (span : Span) : Option (Outcome Tree) :=
  match rule with
  | fail => some (.fail (.unlabeledNonSubsort production.sort 0 span))
  | warn expected => (names.find? expected).map fun s =>
      (Outcome.ok t).warn (.listSortExpected production.sort ⟨s⟩ span)
  | rename value => (names.find? value).map fun s => .ok (.constant () s production span)
  | erase => some (.ok (.grouping () [] span))

/-- What becomes of a constant by the first rule for its token; without one it stays. -/
def saidFirst (rules : List (String × LeafRule)) (names : SymbolTable) (t : Term) :
    Option (Outcome Tree) :=
  match t with
  | .constant _ value production span =>
      (names.name? value).bind fun token =>
        match rules.lookup token with
        | some rule => rule.said names t.tree production span
        | none => some (.ok t.tree)
  | _ => some (.ok t.tree)

theorem said_of_le {rule : LeafRule} {names later : SymbolTable} {t : Tree} {p : Production}
    {s : Span} {r : Outcome Tree} (h : names ≤ later) (hr : rule.said names t p s = some r) :
    rule.said later t p s = some r := by
  have find {name : String} {x : Symbol} (hx : names.find? name = some x) :
      later.find? name = some x :=
    SymbolTable.find?_eq_some_iff.mpr (h x name (SymbolTable.find?_eq_some_iff.mp hx))
  cases rule with
  | fail | erase => exact hr
  | warn name | rename name =>
    obtain ⟨x, hx, hr⟩ := Option.map_eq_some_iff.mp hr
    exact Option.map_eq_some_iff.mpr ⟨x, find hx, hr⟩

end LeafRule

namespace Ledger
variable {σ : Type} {base l k : Ledger} {t : Term}
  {rule : SymbolTable → Term → Option (Outcome Tree)} {hook : Term → Pass σ Outcome}

/-- The hook makes of a constant what the rule says. It may make nodes and symbols and change what
the transformer keeps for itself, but it does not touch the memo. -/
def Performs (base : Ledger) (rule : SymbolTable → Term → Option (Outcome Tree))
    (hook : Term → Pass σ Outcome) : Prop :=
  ∀ (l : Ledger) (t : Term) (s : PassState σ), base ≤ l → t ∈ l → t.isConstant →
    s.session = l.session → ∃ o s' k, (hook t).run s = .ok (o, s') ∧ l ≤ k ∧
      s'.session = k.session ∧ s'.memo = s.memo ∧ Obeys rule k t o

/-- What the hook makes of a constant depends on nothing but the constant: it is what a rule says,
and what it says once it goes on to say. -/
def DependsOnNode (base : Ledger) (hook : Term → Pass σ Outcome) : Prop :=
  ∃ rule, Lasting base rule ∧ Performs base rule hook

theorem lasting_ruled (h : Lasting base rule) : Lasting base (Forest.ruled rule) := by
  intro l k t r hb hlk ht hr
  induction t using Forest.items_induction generalizing r with
  | node t ih =>
    by_cases hc : t.isConstant
    · rw [Forest.ruled_of_isConstant hc] at hr ⊢
      exact h l k t r hb hlk ht hr
    · rw [Forest.ruled_of_not_isConstant hc] at hr ⊢
      obtain ⟨rs, hrs, hr⟩ := walkedBy_eq_some_iff.mp hr
      refine walkedBy_eq_some_iff.mpr ⟨rs, ?_, hr⟩
      exact forall₂_imp_of_mem hrs fun u hu q _ hq => ih u hu q (mem_of_mem_items ht hu) hq

/-- A relation is established by a transformer of constants if the hook establishes it for constants
without touching the memo, and walking establishes it for all other nodes. -/
theorem stepEstablishes_of_hook {R : Relation} (hR : Stable base R)
    (hhook : ∀ (l : Ledger) (t : Term) (s : PassState σ), base ≤ l → t ∈ l → t.isConstant →
      s.session = l.session → ∃ o s' k, (hook t).run s = .ok (o, s') ∧ l ≤ k ∧
        s'.session = k.session ∧ s'.memo = s.memo ∧ R k t o)
    (hwalk : ∀ (self : Term → Pass σ Outcome) (l : Ledger) (t : Term), base ≤ l → t ∈ l →
      ¬t.isConstant →
      (∀ k u, l ≤ k → u ∈ k → u.height < t.height →
        Ensures (Fits base R) k (self u) fun m o => R m u o) →
      Ensures (Fits base R) l (Transformer.walk self t) fun m o => R m t o) :
    StepEstablishes base R (Transformer.onConstants hook) := by
  intro self l t hb ht hself
  cases t with
  | constant m v p sp =>
    intro s hs
    obtain ⟨o, s', k, hrun, hlk, hsession, hmemo, ho⟩ := hhook l _ s hb ht rfl hs.session_eq
    refine ⟨o, s', k, hrun, hlk, ⟨le_trans hb hlk, hsession, fun memo hm => ?_⟩, ho⟩
    exact (hs.remembers memo (hmemo ▸ hm)).of_le hR hb hlk
  | application | ambiguity | grouping =>
    exact hwalk self l _ hb ht (by simp [Forest.isConstant]) hself

/-- What a transformer of constants makes of a node depends on nothing but the node, if this is so
for constants. -/
theorem stepEstablishes_onConstants (hrule : Lasting base rule) (hhook : Performs base rule hook) :
    StepEstablishes base (Obeys (Forest.ruled rule)) (Transformer.onConstants hook) := by
  have hlasting := lasting_ruled hrule
  refine stepEstablishes_of_hook (stable_obeys hlasting) ?_ ?_
  · intro l t s hb ht hc hs
    obtain ⟨o, s', k, hrun, hlk, hsession, hmemo, r, hr, ho⟩ := hhook l t s hb ht hc hs
    exact ⟨o, s', k, hrun, hlk, hsession, hmemo, r, (Forest.ruled_of_isConstant hc).trans hr, ho⟩
  · intro self l t hb ht hc hself
    refine (ensures_walk_obeys hlasting hb ht hself).imp fun m o _ ho => ?_
    obtain ⟨r, hr, ho⟩ := ho
    exact ⟨r, (Forest.ruled_of_not_isConstant hc).trans hr, ho⟩

theorem lasting_saidFirst (rules : List (String × LeafRule)) :
    Lasting base (LeafRule.saidFirst rules) := by
  intro l k t r _ hlk _ hr
  cases t with
  | constant m v p s =>
    obtain ⟨token, htoken, hr⟩ := Option.bind_eq_some_iff.mp hr
    refine Option.bind_eq_some_iff.mpr ⟨token, symbols_le hlk v token htoken, ?_⟩
    cases hrule : rules.lookup token with
    | none => simpa only [hrule] using hr
    | some rule =>
      simp only [hrule] at hr ⊢
      exact LeafRule.said_of_le (symbols_le hlk) hr
  | application | ambiguity | grouping => exact hr

/-- Applying a rule to a constant makes of it what the rule says. -/
theorem yields_apply {rule : LeafRule} {p : Production} {s : Span} (ht : t ∈ l)
    (hp : p.KnownTo l.symbols) (hs : s.context ∈ l.symbols) :
    l.Yields (rule.apply t p s) fun k o =>
      ∃ r, rule.said k.symbols t.tree p s = some r ∧ k.Answers r o := by
  cases rule with
  | fail => exact Ensures.pure ⟨_, rfl, answers_error⟩
  | warn expected =>
    refine (yields_intern expected).bind fun k x hlk hx => Ensures.pure ?_
    have hok := answers_ok (stores_tree (mem_of_le hlk ht))
    exact ⟨_, Option.map_eq_some_iff.mpr ⟨x, hx, rfl⟩, hok.warn _⟩
  | rename value =>
    refine (yields_intern value).bind fun k x hlk hx => ?_
    have hx' : x ∈ k.symbols :=
      SymbolTable.mem_iff.mpr ⟨value, SymbolTable.find?_eq_some_iff.mp hx⟩
    have hbuild := yields_constant hx' (hp.of_le (symbols_le hlk))
      (SymbolTable.mem_of_le (symbols_le hlk) hs)
    refine hbuild.bind fun m u hkm hu => Ensures.pure ⟨_, ?_, answers_ok hu⟩
    exact LeafRule.said_of_le (symbols_le hkm) (Option.map_eq_some_iff.mpr ⟨x, hx, rfl⟩)
  | erase =>
    exact (yields_emptyMarker hs).bind fun k u _ hu => Ensures.pure ⟨_, rfl, answers_ok hu⟩

/-- Applying the first rule for its token makes of a constant what the rules say. -/
theorem yields_applyFirst (rules : List (String × LeafRule)) (ht : t ∈ l) (hc : t.isConstant) :
    l.Yields (LeafRule.applyFirst rules t) fun k o => Obeys (LeafRule.saidFirst rules) k t o := by
  cases t with
  | application | ambiguity | grouping => cases hc
  | constant m v p s =>
    have hv : v ∈ l.symbols := (knownTo_of_mem ht).self v (by simp [Forest.nodeSymbols])
    obtain ⟨token, htoken⟩ := SymbolTable.mem_iff.mp hv
    have hcontext : s.context ∈ l.symbols := (knownTo_of_mem ht).context
    have hp : p.KnownTo l.symbols := (knownTo_of_mem ht).production rfl
    refine (yields_consult (SymbolTable.resolve_eq_ok_iff.mpr htoken)).bind fun k a hlk ha => ?_
    obtain ⟨rfl, rfl⟩ := ha
    cases hrule : rules.lookup a with
    | none =>
      refine Ensures.pure ⟨_, ?_, answers_ok (stores_tree ht)⟩
      simp only [LeafRule.saidFirst, htoken, Option.bind_some, hrule]
    | some rule =>
      refine (yields_apply ht hp hcontext).imp fun n o hkn ho => ?_
      obtain ⟨r, hr, ho⟩ := ho
      refine ⟨r, ?_, ho⟩
      simpa only [LeafRule.saidFirst, symbols_le hkn v a htoken, Option.bind_some, hrule] using hr

/-- What the rules make of a constant depends on nothing but the constant, though they count. -/
theorem dependsOnNode_ofRules (rules : List (String × LeafRule)) :
    DependsOnNode base (fun t => do
      Pass.update (· + 1)
      Pass.build (LeafRule.applyFirst rules t)) := by
  refine ⟨_, lasting_saidFirst rules, fun l t s _ ht hc hs => ?_⟩
  obtain ⟨o, s', k, hrun, hlk, hs', ho⟩ := yields_applyFirst rules ht hc s.session hs
  refine ⟨o, { s with session := s', own := s.own + 1 }, k, ?_, hlk, hs', rfl, ho⟩
  rw [StateT.run_bind, Pass.update_run]
  change (Pass.build (LeafRule.applyFirst rules t)).run { s with own := s.own + 1 } = _
  rw [Pass.build_run]
  change ((LeafRule.applyFirst rules t).run s.session).map _ = _
  rw [hrun]
  rfl

end Ledger
end ParseForest
