import ParseForest.Proofs.History
import ParseForest.Proofs.Presentation
import ParseForest.Proofs.Walking

/-!
# No promise is broken

An internal error means that someone broke a promise. Whoever makes grammars and
terms only by the means that there are, and of symbols of the session, breaks
none: a constructor that accepts its arguments leaves a node behind that nothing
can fail on later. So however grammars, terms, cleaners and completers were made
and used, everything goes on with an answer, and in every term that is answered
each application has one child for each slot.
-/
namespace ParseForest

namespace ListDeclaration

/-- The declaration is made of symbols of the table by the means that there are. -/
inductive MadeOf (names : SymbolTable) : ListDeclaration → Prop
  | ofProductions {sort element : SortName} {terminator cons : Production} {d : ListDeclaration} :
      sort.symbol ∈ names → element.symbol ∈ names → terminator.KnownTo names →
      cons.KnownTo names → ofProductions sort element terminator cons = .ok d → MadeOf names d
  | withSeparator {d : ListDeclaration} {separator : Symbol} :
      MadeOf names d → separator ∈ names → MadeOf names (d.withSeparator separator)
  | withNonEmpty {d : ListDeclaration} (nonEmpty : Bool) :
      MadeOf names d → MadeOf names (d.withNonEmpty nonEmpty)

theorem productions_of_ofProductions {sort element : SortName} {terminator cons : Production}
    {d : ListDeclaration} (h : ofProductions sort element terminator cons = .ok d) :
    d.terminator = terminator ∧ d.cons = cons := by
  unfold ofProductions at h
  split_ifs at h
  cases h
  exact ⟨rfl, rfl⟩

theorem MadeOf.knownTo {names : SymbolTable} {d : ListDeclaration} (h : MadeOf names d) :
    d.terminator.KnownTo names ∧ d.cons.KnownTo names := by
  induction h with
  | ofProductions _ _ ht hc hd =>
    obtain ⟨rfl, rfl⟩ := productions_of_ofProductions hd
    exact ⟨ht, hc⟩
  | withSeparator _ _ ih => exact ih
  | withNonEmpty _ _ ih => exact ih

end ListDeclaration

def SortDeclaration.symbols : SortDeclaration → List Symbol
  | .sort s => [s.symbol]
  | .subsort a b => [a.symbol, b.symbol]

namespace Presentation

/-- What is written down is made of symbols of the table by the means that there are. -/
structure MadeOf (names : SymbolTable) (p : Presentation) : Prop where
  sorts : ∀ d ∈ p.declarations, ∀ s ∈ d.symbols, s ∈ names
  lists : ∀ d ∈ p.lists, d.MadeOf names
  productions : ∀ batch ∈ p.batches, ∀ x ∈ batch, x.KnownTo names

theorem MadeOf.knownTo {names : SymbolTable} {p : Presentation} {g : Grammar} (h : p.MadeOf names)
    (hg : p.grammar = .ok g) : g.KnownTo names := by
  have hlists : g.lists.declarations = p.lists := by
    rw [lists_of_grammar hg, ListCatalog.declarations_ofList]
  refine ⟨fun x hx => ?_, fun d hd => ?_, fun d hd => ?_⟩
  · rw [eq_of_grammar hg, mem_labeled_foldl] at hx
    obtain ⟨batch, hb, hx, -⟩ := hx.resolve_left List.not_mem_nil
    exact h.productions batch hb x hx
  · exact (h.lists d (hlists ▸ hd)).knownTo.2
  · exact (h.lists d (hlists ▸ hd)).knownTo.1

end Presentation

/-- A cleaner or a completer that is in use, and what it remembers. -/
structure Tool where
  transformer : Transformer Unit
  memo : Option Memo

/-- What there is after a while of working in one session. -/
structure Workshop where
  session : Session
  /-- Terms that were made or answered. -/
  terms : List Term
  /-- Each tool as it was after each use. -/
  tools : List Tool

namespace Workshop

/-- The workshop in which nothing has happened. -/
def initial : Workshop := ⟨.initial, [], []⟩

/-- The node occurs in one of the terms. -/
def Has (w : Workshop) (t : Term) : Prop := ∃ u ∈ w.terms, t.Occurs u

/-- The grammar can be made in the workshop. -/
def Offers (w : Workshop) (g : Grammar) : Prop :=
  ∃ p : Presentation, p.MadeOf w.session.symbols ∧ p.grammar = .ok g

/-- The constructor is applied to what there is. Whether it accepts the arguments is another
matter. -/
inductive Constructs (w : Workshop) : Build Term → Prop
  | constant {value : Symbol} {p : Production} {span : Span} :
      value ∈ w.session.symbols → p.KnownTo w.session.symbols →
      span.context ∈ w.session.symbols → Constructs w (Build.constant value p span)
  | application {p : Production} {items : List Term} {span : Span} :
      p.KnownTo w.session.symbols → (∀ u ∈ items, w.Has u) →
      span.context ∈ w.session.symbols → Constructs w (Build.application p items span)
  | ambiguity {items : List Term} {span : Span} :
      (∀ u ∈ items, w.Has u) → span.context ∈ w.session.symbols →
      Constructs w (Build.ambiguity items span)
  | grouping {items : List Term} {span : Span} :
      (∀ u ∈ items, w.Has u) → span.context ∈ w.session.symbols →
      Constructs w (Build.grouping items span)

/-- The passes that there are tools for. -/
inductive Passes (w : Workshop) : Transformer Unit → Prop
  | cleaner : Passes w .cleaner
  | completer {g : Grammar} : w.Offers g → Passes w (.completer g)

/-- What can be done in a workshop. Nothing more is done after an internal error. -/
inductive Step (w : Workshop) : Workshop → Prop
  | intern (name : String) {x : Symbol} {s : Session} :
      (Build.intern name).run w.session = .ok (x, s) → Step w { w with session := s }
  | construct {action : Build Term} {t : Term} {s : Session} :
      w.Constructs action → action.run w.session = .ok (t, s) →
      Step w { w with session := s, terms := t :: w.terms }
  | equip {f : Transformer Unit} (memoize : Bool) :
      w.Passes f → Step w { w with tools := ⟨f, if memoize then some ∅ else none⟩ :: w.tools }
  | ask {tool : Tool} {t : Term} {o : Outcome} {s : PassState Unit} (request : Request) :
      tool ∈ w.tools → w.Has t →
      (tool.transformer.answer request t).run ⟨w.session, tool.memo, ()⟩ = .ok (o, s) →
      Step w ⟨s.session, o.term?.toList ++ w.terms, ⟨tool.transformer, s.memo⟩ :: w.tools⟩
  | disambiguate {g : Grammar} {t : Term} {v : Except Rejection Disambiguated} {s : Session}
      (config : PassConfig) : w.Offers g → w.Has t →
      (ParseForest.disambiguate g t config).run w.session = .ok (v, s) →
      Step w { w with session := s, terms := (v.toOption.map (·.term)).toList ++ w.terms }

/-- The workshop can have come about. -/
def Reachable (w : Workshop) : Prop := Relation.ReflTransGen Step initial w

end Workshop

namespace Ledger
variable {l k : Ledger} {w w' : Workshop} {t : Term} {g : Grammar}

theorem Yields.of_run {α : Type} {action : Build α} {post : Ledger → α → Prop} {a : α}
    {s : Session} (h : l.Yields action post) (hrun : action.run l.session = .ok (a, s)) :
    ∃ k, l ≤ k ∧ s = k.session ∧ post k a := by
  obtain ⟨b, k, hrun', hlk, hb⟩ := h.run
  obtain ⟨rfl, rfl⟩ := Prod.mk.inj (Except.ok.inj (hrun.symm.trans hrun'))
  exact ⟨k, hlk, rfl, hb⟩

/-- A rule gives the answers of the tool, and what the tool remembers goes with the ledger. -/
def Trusts (l : Ledger) (tool : Tool) : Prop :=
  ∃ base rule, Lasting base rule ∧ StepEstablishes base (Obeys rule) tool.transformer ∧
    Fits base (Obeys rule) l ⟨l.session, tool.memo, ()⟩

theorem Trusts.of_le {tool : Tool} (h : l.Trusts tool) (hlk : l ≤ k) : k.Trusts tool := by
  obtain ⟨base, rule, hrule, hf, hfits⟩ := h
  refine ⟨base, rule, hrule, hf, le_trans hfits.base_le hlk, rfl, fun memo hm => ?_⟩
  exact (hfits.remembers memo hm).of_le (stable_obeys hrule) hfits.base_le hlk

theorem trusts_of_determinate {f : Transformer Unit} (hf : Determinate l f) (memoize : Bool) :
    l.Trusts ⟨f, if memoize then some ∅ else none⟩ := by
  obtain ⟨rule, hrule, hstep⟩ := hf.exists_rule
  refine ⟨l, rule, hrule, hstep, le_refl l, rfl, fun memo hm => ?_⟩
  cases memoize with
  | false => cases hm
  | true =>
    obtain rfl := Option.some.inj hm
    exact remembers_empty

/-- A tool that is trusted answers with a node of a later ledger, and it is trusted still. -/
theorem Trusts.exists_answer {tool : Tool} (h : l.Trusts tool) (ht : t ∈ l) (request : Request) :
    ∃ o s k, (tool.transformer.answer request t).run ⟨l.session, tool.memo, ()⟩ = .ok (o, s) ∧
      l ≤ k ∧ s.session = k.session ∧ (∀ u, o.result = .ok u → u ∈ k) ∧
      k.Trusts ⟨tool.transformer, s.memo⟩ := by
  obtain ⟨base, rule, hrule, hf, hfits⟩ := h
  obtain ⟨o, s, k, hrun, hlk, hs, r, -, ho⟩ := ensures_answer hrule hf ht request _ hfits
  exact ⟨o, s, k, hrun, hlk, hs.session_eq, ho.mem,
    base, rule, hrule, hf, hs.base_le, rfl, hs.remembers⟩

/-- The ledger accounts for everything in the workshop. -/
structure Accounts (l : Ledger) (w : Workshop) : Prop where
  session_eq : w.session = l.session
  terms_mem : ∀ t ∈ w.terms, t ∈ l
  trusts : ∀ tool ∈ w.tools, l.Trusts tool

theorem Accounts.mem (h : l.Accounts w) (ht : w.Has t) : t ∈ l := by
  obtain ⟨u, hu, htu⟩ := ht
  exact mem_of_occurs (h.terms_mem u hu) htu

theorem Accounts.knownTo (h : l.Accounts w) (hg : w.Offers g) : g.KnownTo l.symbols := by
  obtain ⟨p, hp, hg⟩ := hg
  rw [h.session_eq] at hp
  exact hp.knownTo hg

theorem Accounts.determinate {f : Transformer Unit} (h : l.Accounts w) (hf : w.Passes f) :
    Determinate l f := by
  cases hf with
  | cleaner => exact .cleaner
  | completer hg => exact .completer (h.knownTo hg)

/-- What a constructor accepts becomes a node. -/
theorem Accounts.exists_construct {action : Build Term} {s : Session} (h : l.Accounts w)
    (hc : w.Constructs action) (hrun : action.run w.session = .ok (t, s)) :
    ∃ k, l ≤ k ∧ s = k.session ∧ t ∈ k := by
  have hsymbols : w.session.symbols = l.symbols := congrArg Session.symbols h.session_eq
  rw [h.session_eq] at hrun
  have hyields : l.Yields action fun k u => u ∈ k := by
    cases hc with
    | constant hv hp hs =>
      rw [hsymbols] at hv hp hs
      exact (yields_constant hv hp hs).imp fun _ _ _ hu => hu.mem
    | @application p items span hp hi hs =>
      rw [hsymbols] at hp hs
      have hlen : items.length = p.arity := by
        by_contra hne
        cases (Build.application_run_of_ne hne span l.session).symm.trans hrun
      exact (yields_application (fun u hu => h.mem (hi u hu)) hlen hp hs).imp
        fun _ _ _ hu => hu.mem
    | ambiguity hi hs =>
      rw [hsymbols] at hs
      exact (yields_ambiguity (fun u hu => h.mem (hi u hu)) hs).imp fun _ _ _ hu => hu.mem
    | grouping hi hs =>
      rw [hsymbols] at hs
      exact (yields_grouping (fun u hu => h.mem (hi u hu)) hs).imp fun _ _ _ hu => hu.mem
  exact hyields.of_run hrun

/-- Disambiguation gives a verdict, and what it accepts is a node. -/
theorem Accounts.yields_disambiguate (h : l.Accounts w) (hg : w.Offers g) (ht : w.Has t)
    (config : PassConfig) :
    l.Yields (disambiguate g t config) fun k v => ∀ d, v = .ok d → d.term ∈ k := by
  refine (Ledger.yields_disambiguate (h.knownTo hg) (h.mem ht) config).imp fun k v _ hv d hd => ?_
  obtain ⟨o, ho, rfl⟩ := hv
  exact ho.mem d.term (Outcome.verdict_eq_ok_iff.mp hd).1

/-- Everything stays accounted for while nodes are added. -/
theorem Accounts.grow {s : Session} {made : List Term} {tools : List Tool} (h : l.Accounts w)
    (hlk : l ≤ k) (hs : s = k.session) (hmade : ∀ t ∈ made, t ∈ k)
    (htools : ∀ tool ∈ tools, k.Trusts tool) :
    k.Accounts ⟨s, made ++ w.terms, tools ++ w.tools⟩ where
  session_eq := hs
  terms_mem := List.forall_mem_append.mpr ⟨hmade, fun t ht => mem_of_le hlk (h.terms_mem t ht)⟩
  trusts :=
    List.forall_mem_append.mpr ⟨htools, fun tool htool => (h.trusts tool htool).of_le hlk⟩

/-- Whatever is done, there is a ledger that accounts for it. -/
theorem Accounts.step (h : l.Accounts w) (hstep : w.Step w') : ∃ k : Ledger, k.Accounts w' := by
  have nothing {k : Ledger} : ∀ t ∈ ([] : List Term), t ∈ k := by simp
  have noTools {k : Ledger} : ∀ tool ∈ ([] : List Tool), k.Trusts tool := by simp
  cases hstep with
  | intern name hrun =>
    rw [h.session_eq] at hrun
    obtain ⟨k, hlk, hs, -⟩ := (yields_intern name).of_run hrun
    exact ⟨k, h.grow hlk hs nothing noTools⟩
  | construct hc hrun =>
    obtain ⟨k, hlk, hs, ht⟩ := h.exists_construct hc hrun
    exact ⟨k, h.grow hlk hs (List.forall_mem_singleton.mpr ht) noTools⟩
  | equip memoize hf =>
    have htool := trusts_of_determinate (h.determinate hf) memoize
    exact ⟨l, h.grow (le_refl l) h.session_eq nothing (List.forall_mem_singleton.mpr htool)⟩
  | ask request htool ht hrun =>
    rw [h.session_eq] at hrun
    obtain ⟨o, s, k, hrun', hlk, hs, hmem, htrusts⟩ :=
      (h.trusts _ htool).exists_answer (h.mem ht) request
    obtain ⟨rfl, rfl⟩ := Prod.mk.inj (Except.ok.inj (hrun.symm.trans hrun'))
    refine ⟨k, h.grow hlk hs (fun u hu => ?_) (List.forall_mem_singleton.mpr htrusts)⟩
    exact hmem u (Outcome.term?_eq_some_iff.mp (Option.mem_toList.mp hu))
  | @disambiguate g t v s config hg ht hrun =>
    rw [h.session_eq] at hrun
    obtain ⟨k, hlk, hs, hv⟩ := (h.yields_disambiguate hg ht config).of_run hrun
    refine ⟨k, h.grow hlk hs (fun u hu => ?_) noTools⟩
    cases v with
    | error r => cases hu
    | ok d =>
      obtain rfl := List.mem_singleton.mp hu
      exact hv d rfl

theorem exists_accounts (h : w.Reachable) : ∃ l : Ledger, l.Accounts w := by
  induction h with
  | refl => exact ⟨initial, rfl, by simp [Workshop.initial], by simp [Workshop.initial]⟩
  | tail _ hstep ih =>
    obtain ⟨l, hl⟩ := ih
    exact hl.step hstep

end Ledger

namespace Workshop
variable {w w' w'' : Workshop}

/-- What can be done leads from one workshop to the other, in which there is all that there was
before, and the same symbols. -/
structure Leads (w w' : Workshop) : Prop where
  steps : Relation.ReflTransGen Step w w'
  symbols_eq : w'.session.symbols = w.session.symbols
  has : ∀ {u}, w.Has u → w'.Has u

theorem Leads.refl (w : Workshop) : w.Leads w := ⟨.refl, rfl, id⟩

theorem Leads.trans (h : w.Leads w') (h' : w'.Leads w'') : w.Leads w'' :=
  ⟨h.steps.trans h'.steps, h'.symbols_eq.trans h.symbols_eq, fun hu => h'.has (h.has hu)⟩

theorem Leads.reachable (h : w.Leads w') (hw : w.Reachable) : w'.Reachable := hw.trans h.steps

/-- A node is made. -/
theorem exists_leads_of_constructs {action : Build Term} {t : Term} {s : Session}
    (hc : w.Constructs action) (hrun : action.run w.session = .ok (t, s))
    (hs : s.symbols = w.session.symbols) : ∃ w', w.Leads w' ∧ w'.Has t := by
  refine ⟨{ w with session := s, terms := t :: w.terms }, ⟨.single (.construct hc hrun), hs, ?_⟩,
    t, List.mem_cons_self, .refl⟩
  rintro u ⟨v, hv, huv⟩
  exact ⟨v, List.mem_cons_of_mem t hv, huv⟩

/-- There can be a term with the given tree. -/
def CanMake (w : Workshop) (r : Tree) : Prop := ∃ w' t, w.Leads w' ∧ w'.Has t ∧ t.tree = r

theorem exists_leads_all {rs : List Tree} (hw : w.Reachable)
    (h : ∀ r ∈ rs, ∀ {w : Workshop}, w.Reachable → r.KnownTo w.session.symbols → w.CanMake r)
    (hk : ∀ r ∈ rs, r.KnownTo w.session.symbols) :
    ∃ w', ∃ ts : List Term, w.Leads w' ∧ (∀ t ∈ ts, w'.Has t) ∧ ts.map Forest.tree = rs := by
  induction rs generalizing w with
  | nil => exact ⟨w, [], .refl w, by simp, rfl⟩
  | cons r rs ih =>
    obtain ⟨hr, hrs⟩ := List.forall_mem_cons.mp h
    obtain ⟨hkr, hkrs⟩ := List.forall_mem_cons.mp hk
    obtain ⟨w', t, hww', ht, htree⟩ := hr hw hkr
    obtain ⟨w'', ts, hww'', hts, htrees⟩ :=
      ih (hww'.reachable hw) hrs fun r hr => hww'.symbols_eq ▸ hkrs r hr
    exact ⟨w'', t :: ts, hww'.trans hww'', List.forall_mem_cons.mpr ⟨hww''.has ht, hts⟩,
      by rw [List.map_cons, htree, htrees]⟩

/-- Whatever tree the constructors accept, a term with this tree can be made of symbols that are
there. -/
theorem canMake {r : Tree} (hw : w.Reachable) (hr : r.WellFormed)
    (hk : r.KnownTo w.session.symbols) : w.CanMake r := by
  have items {rs : List Tree} {w : Workshop} (hw : w.Reachable)
      (ih : ∀ r ∈ rs, ∀ {w : Workshop}, w.Reachable → r.WellFormed →
        r.KnownTo w.session.symbols → w.CanMake r) (hr : ∀ r ∈ rs, r.WellFormed)
      (hk : ∀ r ∈ rs, r.KnownTo w.session.symbols) :
      ∃ w', ∃ ts : List Term, w.Leads w' ∧ (∀ t ∈ ts, w'.Has t) ∧ ts.map Forest.tree = rs :=
    exists_leads_all hw (fun r hm {_} hw => ih r hm hw (hr r hm)) hk
  induction r using Forest.induction generalizing w with
  | constant m v p s =>
    have hc : w.Constructs (Build.constant v p s) :=
      .constant (hk.self v (by simp [Forest.nodeSymbols])) (hk.production rfl) hk.context
    obtain ⟨w', hww', ht⟩ := exists_leads_of_constructs hc (Build.constant_run v p s _) rfl
    exact ⟨w', _, hww', ht, rfl⟩
  | application m p rs s ih =>
    obtain ⟨w', ts, hww', hts, rfl⟩ :=
      items hw ih (fun r hm => hr.items hm) fun r hm => hk.of_mem_items hm
    have hlen : ts.length = p.arity := by
      have harity : (ts.map Forest.tree).length = p.arity := hr.self
      rwa [List.length_map] at harity
    rw [← hww'.symbols_eq] at hk
    have hc : w'.Constructs (Build.application p ts s) :=
      .application (hk.production rfl) hts hk.context
    obtain ⟨w'', hww'', ht⟩ := exists_leads_of_constructs hc (Build.application_run hlen s _) rfl
    exact ⟨w'', _, hww'.trans hww'', ht, Forest.tree_application _ p ts s⟩
  | ambiguity m rs s ih =>
    obtain ⟨w', ts, hww', hts, rfl⟩ :=
      items hw ih (fun r hm => hr.items hm) fun r hm => hk.of_mem_items hm
    rw [← hww'.symbols_eq] at hk
    have hc : w'.Constructs (Build.ambiguity ts s) := .ambiguity hts hk.context
    obtain ⟨w'', hww'', ht⟩ := exists_leads_of_constructs hc (Build.ambiguity_run ts s _) rfl
    obtain ⟨l, hl⟩ := Ledger.exists_accounts (hww'.reachable hw)
    refine ⟨w'', _, hww'.trans hww'', ht, ?_⟩
    rw [Forest.tree_ambiguity, ← Ledger.eraseDups_map_tree fun t ht => hl.mem (hts t ht),
      eraseDups_eq_self hr.self]
  | grouping m rs s ih =>
    obtain ⟨w', ts, hww', hts, rfl⟩ :=
      items hw ih (fun r hm => hr.items hm) fun r hm => hk.of_mem_items hm
    rw [← hww'.symbols_eq] at hk
    have hc : w'.Constructs (Build.grouping ts s) := .grouping hts hk.context
    obtain ⟨w'', hww'', ht⟩ := exists_leads_of_constructs hc (Build.grouping_run ts s _) rfl
    exact ⟨w'', _, hww'.trans hww'', ht, Forest.tree_grouping _ ts s⟩

/-- In a workshop that has come about in whatever way there is no internal error, neither of
disambiguation nor of the tools, and a walk has none but those of what it asks. All applications,
also in the terms that are answered, have one child for each slot. -/
theorem no_internal_error (h : w.Reachable) {t : Term} (ht : w.Has t) :
    t.Saturated ∧
    (∀ g config, w.Offers g → ∃ v s, (disambiguate g t config).run w.session = .ok (v, s) ∧
      ∀ d, v = .ok d → d.term.Saturated) ∧
    (∀ tool ∈ w.tools, ∀ request, ∃ o s,
      (tool.transformer.answer request t).run ⟨w.session, tool.memo, ()⟩ = .ok (o, s) ∧
        ∀ u, o.result = .ok u → u.Saturated) ∧
    ∀ {σ : Type} (self : Term → Pass σ Outcome) (s : PassState σ),
      (∀ e, (Transformer.walk self t).run s = .error e →
        ∃ u ∈ t.items, ∃ r, (self u).run r = .error e) ∧
      ∀ o s', (Transformer.walk self t).run s = .ok (o, s') →
        (∀ u ∈ t.items, ∀ r r' p x, (self u).run r = .ok (p, r') → p.result = .ok x →
          x.Saturated) → ∀ u, o.result = .ok u → u.Saturated := by
  obtain ⟨l, hl⟩ := Ledger.exists_accounts h
  have saturated {k : Ledger} {u : Term} (hu : u ∈ k) : u.Saturated :=
    (Ledger.wellFormed_of_mem hu).saturated
  have htl := hl.mem ht
  rw [hl.session_eq]
  refine ⟨saturated htl, fun g config hg => ?_, fun tool htool request => ?_, fun self s => ?_⟩
  · obtain ⟨v, k, hrun, -, hv⟩ := (hl.yields_disambiguate hg ht config).run
    exact ⟨v, _, hrun, fun d hd => saturated (hv d hd)⟩
  · obtain ⟨o, s, k, hrun, -, -, ho, -⟩ := (hl.trusts tool htool).exists_answer htl request
    exact ⟨o, s, hrun, fun u hu => saturated (ho u hu)⟩
  · exact ⟨fun e he => Transformer.exists_of_walk_error (saturated htl).self he,
      fun o s' hrun hself u hu => Transformer.saturated_of_walk (saturated htl) hrun hself hu⟩

theorem reachable_foldl_intern {l : Ledger} (h : Reachable ⟨l.session, [], []⟩)
    (names : List String) : Reachable ⟨(names.foldl Ledger.intern l).session, [], []⟩ := by
  induction names generalizing l with
  | nil => exact h
  | cons name names ih => exact ih (h.tail (.intern name rfl))

open Ledger in
theorem madeOf_terse : Presentation.terse.MadeOf listNames.symbols := by
  refine ⟨by decide, fun d hd => ?_, by decide⟩
  obtain rfl := List.mem_singleton.mp hd
  have hd : ListDeclaration.ofProductions listSort elementSort listEnd listCons = .ok _ := rfl
  exact .ofProductions (by decide) (by decide) (by decide) (by decide) hd

open Ledger in
/-- There can be an element in the slot of a list sort. -/
theorem exists_reachable_ofList : ∃ (w : Workshop) (t : Term), w.Reachable ∧ w.Has t ∧
    t.tree = .application () ofList [element] .unknown ∧
      w.session.symbols = listNames.symbols := by
  have hstart : Reachable ⟨Ledger.initial.session, [], []⟩ := .refl
  have hnames := reachable_foldl_intern hstart ["Exp", "Exps", ".Exps", "_,_", "f"]
  have hknown : Forest.KnownTo listNames.symbols (.application () ofList [element] .unknown) := by
    decide
  obtain ⟨w, t, hw, ht, htree⟩ := canMake hnames (by decide) hknown
  exact ⟨w, t, hw.reachable hnames, ht, htree, hw.symbols_eq⟩

/-- An element is put into the slot of a list sort, and a completer is at hand. -/
theorem no_internal_error_ofList : ∃ (w : Workshop) (t : Term) (g : Grammar) (tool : Tool),
    w.Reachable ∧ w.Has t ∧ t.tree = .application () Ledger.ofList [Ledger.element] .unknown ∧
      w.Offers g ∧ tool ∈ w.tools ∧ tool.transformer = .completer g ∧
      (∃ v s, (disambiguate g t {}).run w.session = .ok (v, s)) ∧
      ∃ o s, (tool.transformer.answer .walked t).run ⟨w.session, tool.memo, ()⟩ = .ok (o, s) := by
  obtain ⟨w, t, hw, ht, htree, hsymbols⟩ := exists_reachable_ofList
  obtain ⟨g, hgrammar⟩ : ∃ g, Presentation.terse.grammar = .ok g := ⟨_, rfl⟩
  have hg : w.Offers g := ⟨_, hsymbols ▸ madeOf_terse, hgrammar⟩
  have hequipped := hw.tail (.equip true (.completer hg))
  obtain ⟨-, hdisambiguate, htools, -⟩ := no_internal_error hequipped ht
  obtain ⟨v, s, hrun, -⟩ := hdisambiguate g {} hg
  obtain ⟨o, s', hrun', -⟩ := htools _ List.mem_cons_self .walked
  exact ⟨_, t, g, _, hequipped, ht, htree, hg, List.mem_cons_self, rfl, ⟨v, s, hrun⟩,
    o, s', hrun'⟩

end Workshop
end ParseForest
