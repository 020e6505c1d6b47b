import ParseForest.Proofs.Lockstep

/-!
# The numbers of symbols

The number of a symbol depends on all that was interned before it. Reading gives
things that correspond, whatever that was: each string gets corresponding symbols,
what is made of corresponding symbols corresponds, and where something is compared
the answer is the same. Disambiguation keeps this up, so what a run ends in reads
the same.
-/
namespace ParseForest

/-- A wrong number of terms is complained of by the arity and by texts only. -/
theorem InternalError.message_arityMismatch_congr {names other : SymbolTable} {p p' : Production}
    {count : Nat} {s s' : Span} (harity : p.arity = p'.arity)
    (hp : p.text names = p'.text other) (hs : s.text names = s'.text other) :
    (arityMismatch p count s).message names = (arityMismatch p' count s').message other := by
  unfold message description Description.report Span.internalError Span.annotate
  dsimp only [List.foldl_cons, List.foldl_nil]
  unfold Annotation.text
  dsimp only
  rw [harity, hp, hs]

namespace Ledger
open SymbolTable
variable {l l' k k' : Ledger}

/-- What is made of the symbols of one ledger corresponds to what is made of those of another. -/
def Matches {α : Type} [Renamable α] (l l' : Ledger) (a b : α) : Prop :=
  Corresponds l.symbols l'.symbols a b

theorem Matches.of_le {α : Type} [Renamable α] {a b : α} (h : Matches l l' a b) (hlk : l ≤ k)
    (hlk' : l' ≤ k') : Matches k k' a b :=
  Corresponds.of_le h (symbols_le hlk) (symbols_le hlk')

/-- What is legible reads the same. -/
theorem Matches.eq_of_legible {α γ : Type} [Renamable α] {f : SymbolTable → α → γ} {a b : α}
    (h : Matches l l' a b) (hf : Legible f) : f l.symbols a = f l'.symbols b :=
  Corresponds.eq_of_legible h hf l.reserved l'.reserved

/-- The terms are nodes, and their trees correspond. -/
structure Twins (l l' : Ledger) (t t' : Term) : Prop where
  mem : t ∈ l
  mem' : t' ∈ l'
  tree : Matches l l' t.tree t'.tree

theorem Twins.of_le {t t' : Term} (h : Twins l l' t t') (hlk : l ≤ k) (hlk' : l' ≤ k') :
    Twins k k' t t' := ⟨mem_of_le hlk h.mem, mem_of_le hlk' h.mem', h.tree.of_le hlk hlk'⟩

theorem lasts_matches {α : Type} [Renamable α] : Lasts (Matches : Ledger → Ledger → α → α → Prop) :=
  fun _ _ _ _ _ _ hlk hlk' h => h.of_le hlk hlk'

theorem lasts_twins : Lasts Twins := fun _ _ _ _ _ _ hlk hlk' h => h.of_le hlk hlk'

section Strings

theorem inStep_intern (name : String) :
    InStep l l' (Spelling.intern name) (Spelling.intern name) Matches :=
  (inStep_build (yields_intern name) (yields_intern name)).imp fun _ _ _ _ _ _ h =>
    corresponds_of_find? h.1 h.2

theorem inStep_sort (name : String) :
    InStep l l' (Spelling.sort name) (Spelling.sort name) Matches :=
  (inStep_intern name).bind fun _ _ _ _ _ _ h => InStep.pure (Corresponds.sortName h)

/-- Members of a list that are read in step match. -/
theorem InStep.mapM_matches {χ α : Type} [Renamable α] {action action' : χ → Spelling α}
    {xs : List χ}
    (h : ∀ x ∈ xs, ∀ k k', l ≤ k → l' ≤ k' → InStep k k' (action x) (action' x) Matches) :
    InStep l l' (xs.mapM action) (xs.mapM action') Matches :=
  (InStep.mapM lasts_matches h).imp fun _ _ _ _ _ _ hall =>
    corresponds_of_forall₂ hall

/-- Strings that are only interned leave nothing behind but a larger table. -/
theorem exists_run_interned (names : List String) (l : Ledger) : ∃ ss k,
    (names.mapM Spelling.intern).run.run l.session = (.ok ss, k.session) ∧ l ≤ k := by
  induction names generalizing l with
  | nil => exact ⟨[], l, rfl, le_refl l⟩
  | cons name names ih =>
    obtain ⟨s, k, hrun, hlk, -⟩ := (yields_intern name).run (l := l)
    have hfirst : (Spelling.intern name).run.run l.session = (.ok s, k.session) :=
      Spelling.run_build_of_ok hrun
    obtain ⟨ss, m, hrest, hkm⟩ := ih k
    refine ⟨s :: ss, m, ?_, le_trans hlk hkm⟩
    rw [List.mapM_cons, Spelling.run_bind_of_ok hfirst, Spelling.run_bind_of_ok hrest]
    rfl

theorem inStep_interned (names names' : List String) :
    InStep l l' (names.mapM Spelling.intern) (names'.mapM Spelling.intern)
      fun _ _ _ _ => True := by
  obtain ⟨ss, k, hrun, hlk⟩ := exists_run_interned names l
  obtain ⟨ss', k', hrun', hlk'⟩ := exists_run_interned names' l'
  exact ⟨_, _, k, k', hrun, hrun', hlk, hlk', .ok trivial⟩

end Strings

section Productions

theorem inStep_item (item : SpelledItem) : InStep l l' item.read item.read Matches := by
  cases item with
  | terminal token =>
    exact (inStep_intern token).bind fun _ _ _ _ _ _ h => InStep.pure (Corresponds.terminal h)
  | nonterminal sort =>
    exact (inStep_sort sort).bind fun _ _ _ _ _ _ h => InStep.pure (Corresponds.nonterminal h)

theorem inStep_label (label : Option String) :
    InStep l l' (label.mapM Spelling.intern) (label.mapM Spelling.intern) Matches := by
  cases label with
  | none => exact InStep.pure ⟨nofun, nofun, fun _ _ _ => rfl⟩
  | some name =>
    rw [Option.mapM_some, ← bind_pure_comp]
    refine (inStep_intern name).bind fun k k' s r _ _ h => InStep.pure ⟨?_, ?_, ?_⟩
    · exact fun x hx => Option.some.inj hx ▸ h.known
    · exact fun x hx => Option.some.inj hx ▸ h.known'
    · exact fun hle hle' hρ => congrArg some (h.rename_eq hle hle' hρ)

theorem inStep_production (p : SpelledProduction) : InStep l l' p.read p.read Matches := by
  refine (inStep_sort p.sort).bind fun k k' s r _ _ hs => ?_
  refine (InStep.mapM_matches fun item _ _ _ _ _ => inStep_item item).bind
    fun m m' items items' hkm hkm' hi => ?_
  refine (inStep_label p.label).bind fun n n' label label' hmn hmn' hl => ?_
  refine (InStep.mapM_matches fun name _ _ _ _ _ => inStep_intern name).bind
    fun o o' keys keys' hno hno' hk => InStep.pure ?_
  have hmo := le_trans hmn hno
  have hmo' := le_trans hmn' hno'
  exact Corresponds.production (hs.of_le (le_trans hkm hmo) (le_trans hkm' hmo'))
    (hi.of_le hmo hmo') (hl.of_le hno hno') hk

end Productions

/-- What stands at a position of two lists is related if the lists are. -/
theorem getElem?_of_forall₂ {α β : Type} {R : α → β → Prop} {as : Array α} {bs : Array β}
    (h : List.Forall₂ R as.toList bs.toList) (i : Nat) :
    as[i]? = none ∧ bs[i]? = none ∨ ∃ a b, as[i]? = some a ∧ bs[i]? = some b ∧ R a b := by
  have hlen : as.size = bs.size := h.length_eq
  by_cases hi : i < as.size
  · have hi' : i < bs.size := hlen ▸ hi
    exact .inr ⟨_, _, Array.getElem?_eq_getElem hi, Array.getElem?_eq_getElem hi', h.get hi hi'⟩
  · exact .inl ⟨Array.getElem?_eq_none (Nat.not_lt.mp hi),
      Array.getElem?_eq_none (hlen ▸ Nat.not_lt.mp hi)⟩

section Grammars
variable {ps ps' : Array Production}

theorem inStep_productionAt (hps : List.Forall₂ (Matches l l') ps.toList ps'.toList)
    (position : Nat) : InStep l l' (Spelling.productionAt ps position)
      (Spelling.productionAt ps' position) Matches := by
  unfold Spelling.productionAt
  rcases getElem?_of_forall₂ hps position with ⟨h, h'⟩ | ⟨p, p', h, h', hp⟩
  · rw [h, h']
    exact InStep.throw rfl
  · rw [h, h']
    exact InStep.pure hp

theorem inStep_subsorts (d : SpelledSubsorts) : InStep l l' d.read d.read Matches := by
  refine (InStep.mapM_matches fun name _ _ _ _ _ => inStep_sort name).bind
    fun k k' sorts sorts' _ _ hs => ?_
  refine (InStep.mapM_matches fun c _ m m' _ _ => ?_).bind
    fun m m' pairs pairs' hkm hkm' hp => ?_
  · refine (inStep_sort c.1).bind fun n n' sub sub' _ _ hsub => ?_
    refine (inStep_sort c.2).bind fun o o' sup sup' hno hno' hsup => InStep.pure ?_
    have hsub := hsub.of_le hno hno'
    exact ⟨⟨hsub.known, hsup.known⟩, ⟨hsub.known', hsup.known'⟩, fun hle hle' hρ =>
      congrArg₂ Prod.mk (hsub.rename_eq hle hle' hρ) (hsup.rename_eq hle hle' hρ)⟩
  · have hl := Corresponds.lattice (hs.of_le hkm hkm') hp m.reserved m'.reserved
    rcases hl.except m.reserved m'.reserved with ⟨L, L', h, h', hL⟩ | ⟨e, e', h, h', he⟩
    · rw [h, h']
      exact InStep.pure hL
    · have htext : e.text m.symbols = e'.text m'.symbols :=
        Matches.eq_of_legible he LatticeError.legible_text
      rw [h, h']
      exact InStep.throw htext

theorem inStep_list (hps : List.Forall₂ (Matches l l') ps.toList ps'.toList) (d : SpelledList) :
    InStep l l' (d.read ps) (d.read ps') Matches := by
  refine (inStep_sort d.sort).bind fun k k' sort sort' hlk hlk' hs => ?_
  refine (inStep_sort d.element).bind fun m m' element element' hkm hkm' he => ?_
  have hlm := le_trans hlk hkm
  have hlm' := le_trans hlk' hkm'
  have hps := lasts_matches.forall₂ hlm hlm' hps
  refine (inStep_productionAt hps d.terminator).bind
    fun n n' terminator terminator' hmn hmn' ht => ?_
  have hps := lasts_matches.forall₂ hmn hmn' hps
  refine (inStep_productionAt hps d.cons).bind fun o o' cons cons' hno hno' hc => ?_
  have hmo := le_trans hmn hno
  have hmo' := le_trans hmn' hno'
  have hd := Corresponds.declaration (hs.of_le (le_trans hkm hmo) (le_trans hkm' hmo'))
    (he.of_le hmo hmo') (ht.of_le hno hno') hc
  rcases hd.except o.reserved o'.reserved with ⟨D, D', h, h', hD⟩ | ⟨e, e', h, h', he⟩
  · rw [h, h']
    dsimp only
    cases d.separator with
    | none => exact InStep.pure (Corresponds.withNonEmpty hD d.nonEmpty)
    | some separator =>
      refine (inStep_intern separator).bind fun q q' s s' hoq hoq' hs => InStep.pure ?_
      exact (Corresponds.withNonEmpty (Matches.of_le hD hoq hoq') d.nonEmpty).withSeparator hs
  · have htext : e.text o.symbols = e'.text o'.symbols :=
      Matches.eq_of_legible he DeclarationError.legible_text
    rw [h, h']
    exact InStep.throw htext

theorem inStep_grammar (hps : List.Forall₂ (Matches l l') ps.toList ps'.toList)
    (g : SpelledGrammar) : InStep l l' (g.read ps) (g.read ps') Matches := by
  have hps {k k' : Ledger} (hlk : l ≤ k) (hlk' : l' ≤ k') :
      List.Forall₂ (Matches k k') ps.toList ps'.toList :=
    lasts_matches.forall₂ hlk hlk' hps
  refine (inStep_subsorts g.subsorts).bind fun k k' L L' hlk hlk' hL => ?_
  refine (InStep.mapM_matches fun d _ m m' hkm hkm' =>
    inStep_list (hps (le_trans hlk hkm) (le_trans hlk' hkm')) d).bind
    fun m m' ds ds' hkm hkm' hds => ?_
  refine (InStep.mapM_matches fun batch _ n n' hmn hmn' => InStep.mapM_matches
    fun position _ o o' hno hno' => ?_).bind fun n n' batches batches' hmn hmn' hb =>
      InStep.pure ?_
  · exact inStep_productionAt (hps (le_trans hlk (le_trans hkm (le_trans hmn hno)))
      (le_trans hlk' (le_trans hkm' (le_trans hmn' hno')))) position
  · exact Corresponds.grammar (hL.of_le (le_trans hkm hmn) (le_trans hkm' hmn'))
      (hds.of_le hmn hmn') hb

end Grammars

section Nodes
variable {p p' : Production} {s s' : Span} {items items' : List Term}

theorem inStep_span (s : Option SpelledSpan) :
    InStep l l' (Spelling.span s) (Spelling.span s) Matches := by
  cases s with
  | none =>
    have hunknown := corresponds_reserved l.reserved l'.reserved (s := Symbol.unknownContext)
      (by decide)
    exact InStep.pure (hunknown.span 0 0)
  | some s =>
    exact (inStep_intern s.context).bind fun _ _ _ _ _ _ h =>
      InStep.pure (Corresponds.span h s.offset s.len)

/-- Terms are twins if the trees that they store are renamed to each other. -/
theorem Twins.of_stores {t t' : Term} {r r' : Tree} (hlk : l ≤ k) (hlk' : l' ≤ k')
    (h : k.Stores r t) (h' : k'.Stores r' t')
    (hr : ∀ {later later' : SymbolTable} {ρ : Symbol → Symbol}, l.symbols ≤ later →
      l'.symbols ≤ later' → later.Translates ρ later' → r.rename ρ = r') : Twins k k' t t' where
  mem := h.mem
  mem' := h'.mem
  tree :=
    { known := Forest.knownTo_tree.mpr (knownTo_of_mem h.mem)
      known' := Forest.knownTo_tree.mpr (knownTo_of_mem h'.mem)
      rename_eq := fun hle hle' hρ => by
        rw [h.tree_eq, h'.tree_eq]
        exact hr (SymbolTable.le_trans (symbols_le hlk) hle)
          (SymbolTable.le_trans (symbols_le hlk') hle') hρ }

/-- The trees of twins correspond as lists. -/
theorem matches_trees (h : List.Forall₂ (Twins l l') items items') :
    Matches l l' (items.map Forest.tree) (items'.map Forest.tree) :=
  corresponds_of_forall₂ (List.forall₂_map_left_iff.mpr
    (List.forall₂_map_right_iff.mpr (h.imp fun _ _ ht => ht.tree)))

theorem forall_mem_of_twins (h : List.Forall₂ (Twins l l') items items') :
    (∀ t ∈ items, t ∈ l) ∧ ∀ t ∈ items', t ∈ l' := by
  refine ⟨fun t ht => ?_, fun t ht => ?_⟩
  · obtain ⟨u, -, htu⟩ := forall₂_exists_right h ht
    exact htu.mem
  · obtain ⟨u, -, hut⟩ := forall₂_exists_left h ht
    exact hut.mem'

theorem inStep_constant {v v' : Symbol} (hv : Matches l l' v v') (hp : Matches l l' p p')
    (hs : Matches l l' s s') : InStep l l' (Spelling.build (Build.constant v p s))
      (Spelling.build (Build.constant v' p' s')) Twins := by
  refine (inStep_build (yields_constant hv.known hp.known hs.known)
    (yields_constant hv.known' hp.known' hs.known')).imp fun k k' t t' hlk hlk' h => ?_
  refine Twins.of_stores hlk hlk' h.1 h.2 fun {later later' ρ} hle hle' hρ => ?_
  have hv' : ρ v = v' := hv.rename_eq hle hle' hρ
  have hp' : p.rename ρ = p' := hp.rename_eq hle hle' hρ
  have hs' : s.rename ρ = s' := hs.rename_eq hle hle' hρ
  rw [Forest.rename, hv', hp', hs']

/-- An application to a wrong number of terms is refused with the same words. -/
theorem inStep_application (hp : Matches l l' p p') (hi : List.Forall₂ (Twins l l') items items')
    (hs : Matches l l' s s') : InStep l l' (Spelling.build (Build.application p items s))
      (Spelling.build (Build.application p' items' s')) Twins := by
  have harity : p.arity = p'.arity := hp.eq_of_legible Production.legible_arity
  have hlength := hi.length_eq
  obtain ⟨hitems, hitems'⟩ := forall_mem_of_twins hi
  by_cases hlen : items.length = p.arity
  · have hlen' : items'.length = p'.arity := by rw [← hlength, hlen, harity]
    refine (inStep_build (yields_application hitems hlen hp.known hs.known)
      (yields_application hitems' hlen' hp.known' hs.known')).imp fun k k' t t' hlk hlk' h => ?_
    refine Twins.of_stores hlk hlk' h.1 h.2 fun {later later' ρ} hle hle' hρ => ?_
    have hp' : p.rename ρ = p' := hp.rename_eq hle hle' hρ
    have hs' : s.rename ρ = s' := hs.rename_eq hle hle' hρ
    have hi' : (items.map Forest.tree).map (Forest.rename ρ) = items'.map Forest.tree :=
      (matches_trees hi).rename_eq hle hle' hρ
    rw [Forest.rename_application, hp', hi', hs']
  · have hlen' : items'.length ≠ p'.arity := by rwa [← hlength, ← harity]
    refine inStep_build_of_error (Build.application_run_of_ne hlen s l.session)
      (Build.application_run_of_ne hlen' s' l'.session) ?_
    rw [hlength]
    exact InternalError.message_arityMismatch_congr harity
      (hp.eq_of_legible Production.legible_text) (hs.eq_of_legible Span.legible_text)

theorem inStep_ambiguity (hi : List.Forall₂ (Twins l l') items items') (hs : Matches l l' s s') :
    InStep l l' (Spelling.build (Build.ambiguity items s))
      (Spelling.build (Build.ambiguity items' s')) Twins := by
  obtain ⟨hitems, hitems'⟩ := forall_mem_of_twins hi
  refine (inStep_build (yields_ambiguity hitems hs.known)
    (yields_ambiguity hitems' hs.known')).imp fun k k' t t' hlk hlk' h => ?_
  refine Twins.of_stores hlk hlk' h.1 h.2 fun {later later' ρ} hle hle' hρ => ?_
  have hs' : s.rename ρ = s' := hs.rename_eq hle hle' hρ
  have hi' : (items.map Forest.tree).map (Forest.rename ρ) = items'.map Forest.tree :=
    (matches_trees hi).rename_eq hle hle' hρ
  rw [Forest.rename_ambiguity, ← Forest.eraseDups_map_rename hρ.injective, hi', hs']

theorem inStep_grouping (hi : List.Forall₂ (Twins l l') items items') (hs : Matches l l' s s') :
    InStep l l' (Spelling.build (Build.grouping items s))
      (Spelling.build (Build.grouping items' s')) Twins := by
  obtain ⟨hitems, hitems'⟩ := forall_mem_of_twins hi
  refine (inStep_build (yields_grouping hitems hs.known)
    (yields_grouping hitems' hs.known')).imp fun k k' t t' hlk hlk' h => ?_
  refine Twins.of_stores hlk hlk' h.1 h.2 fun {later later' ρ} hle hle' hρ => ?_
  have hs' : s.rename ρ = s' := hs.rename_eq hle hle' hρ
  have hi' : (items.map Forest.tree).map (Forest.rename ρ) = items'.map Forest.tree :=
    (matches_trees hi).rename_eq hle hle' hρ
  rw [Forest.rename_grouping, hi', hs']

variable {ps ps' : Array Production} {nodes nodes' : Array Term}

theorem inStep_nodeAt (hn : List.Forall₂ (Twins l l') nodes.toList nodes'.toList)
    (position : Nat) : InStep l l' (Spelling.nodeAt nodes position)
      (Spelling.nodeAt nodes' position) Twins := by
  unfold Spelling.nodeAt
  rcases getElem?_of_forall₂ hn position with ⟨h, h'⟩ | ⟨t, t', h, h', ht⟩
  · rw [h, h']
    exact InStep.throw rfl
  · rw [h, h']
    exact InStep.pure ht

theorem inStep_children (hn : List.Forall₂ (Twins l l') nodes.toList nodes'.toList)
    (children : List Nat) : InStep l l' (children.mapM (Spelling.nodeAt nodes))
      (children.mapM (Spelling.nodeAt nodes')) fun k k' => List.Forall₂ (Twins k k') :=
  InStep.mapM lasts_twins fun position _ _ _ hlk hlk' =>
    inStep_nodeAt (lasts_twins.forall₂ hlk hlk' hn) position

theorem inStep_node (hps : List.Forall₂ (Matches l l') ps.toList ps'.toList)
    (hn : List.Forall₂ (Twins l l') nodes.toList nodes'.toList) (n : SpelledNode) :
    InStep l l' (n.read ps nodes) (n.read ps' nodes') Twins := by
  have hps {k k' : Ledger} (hlk : l ≤ k) (hlk' : l' ≤ k') :
      List.Forall₂ (Matches k k') ps.toList ps'.toList :=
    lasts_matches.forall₂ hlk hlk' hps
  have hn {k k' : Ledger} (hlk : l ≤ k) (hlk' : l' ≤ k') :
      List.Forall₂ (Twins k k') nodes.toList nodes'.toList :=
    lasts_twins.forall₂ hlk hlk' hn
  cases n with
  | constant value production span =>
    refine (inStep_span span).bind fun k k' s s' hlk hlk' hs => ?_
    refine (inStep_intern value).bind fun m m' v v' hkm hkm' hv => ?_
    refine (inStep_productionAt (hps (le_trans hlk hkm) (le_trans hlk' hkm')) production).bind
      fun n n' p p' hmn hmn' hp => ?_
    exact inStep_constant (hv.of_le hmn hmn') hp
      (hs.of_le (le_trans hkm hmn) (le_trans hkm' hmn'))
  | application production children span =>
    refine (inStep_span span).bind fun k k' s s' hlk hlk' hs => ?_
    refine (inStep_productionAt (hps hlk hlk') production).bind fun m m' p p' hkm hkm' hp => ?_
    refine (inStep_children (hn (le_trans hlk hkm) (le_trans hlk' hkm')) children).bind
      fun n n' ts ts' hmn hmn' hts => ?_
    exact inStep_application (hp.of_le hmn hmn') hts
      (hs.of_le (le_trans hkm hmn) (le_trans hkm' hmn'))
  | ambiguity children span =>
    refine (inStep_span span).bind fun k k' s s' hlk hlk' hs => ?_
    refine (inStep_children (hn hlk hlk') children).bind fun m m' ts ts' hkm hkm' hts => ?_
    exact inStep_ambiguity hts (hs.of_le hkm hkm')
  | grouping children span =>
    refine (inStep_span span).bind fun k k' s s' hlk hlk' hs => ?_
    refine (inStep_children (hn hlk hlk') children).bind fun m m' ts ts' hkm hkm' hts => ?_
    exact inStep_grouping hts (hs.of_le hkm hkm')

end Nodes

/-- What two inputs describe goes together part by part. -/
structure SettingsMatch (l l' : Ledger) (s s' : Setting) : Prop where
  productions : List.Forall₂ (Matches l l') s.productions.toList s'.productions.toList
  nodes : List.Forall₂ (Twins l l') s.nodes.toList s'.nodes.toList
  grammar : Matches l l' s.grammar s'.grammar

/-- An input is read in step with itself, whatever was interned before. -/
theorem inStep_read (i : SpelledInput) (known known' : List String) :
    InStep l l' { i with known }.read { i with known := known' }.read SettingsMatch := by
  -- From here on nothing depends on what the tables already hold.
  refine (inStep_interned known known').bind fun k k' _ _ _ _ _ => ?_
  refine (InStep.mapM lasts_matches fun p _ _ _ _ _ =>
    inStep_production p).bind fun m m' ps ps' _ _ hps => ?_
  have hnodes : InStep m m'
      (i.nodes.foldlM (fun nodes n => do return nodes.push (← n.read ps.toArray nodes)) #[])
      (i.nodes.foldlM (fun nodes n => do return nodes.push (← n.read ps'.toArray nodes)) #[])
      fun n n' nodes nodes' => List.Forall₂ (Twins n n') nodes.toList nodes'.toList := by
    refine InStep.foldlM .nil fun n _ o o' nodes nodes' hmo hmo' hn => ?_
    have hps' := lasts_matches.forall₂ hmo hmo' hps
    refine (inStep_node hps' hn n).bind fun q q' t t' hoq hoq' ht => InStep.pure ?_
    rw [Array.toList_push, Array.toList_push]
    exact List.rel_append (lasts_twins.forall₂ hoq hoq' hn) (.cons ht .nil)
  refine hnodes.bind fun n n' nodes nodes' hmn hmn' hn => ?_
  have hps' := lasts_matches.forall₂ hmn hmn' hps
  have settings {q q' : Ledger} {g g' : Grammar} (hnq : n ≤ q) (hnq' : n' ≤ q')
      (hg : Matches q q' g g') :
      SettingsMatch q q' ⟨ps.toArray, nodes, g⟩ ⟨ps'.toArray, nodes', g'⟩ :=
    ⟨lasts_matches.forall₂ hnq hnq' hps', lasts_twins.forall₂ hnq hnq' hn,
      hg⟩
  dsimp only
  cases i.grammar with
  | none =>
    have hempty : Matches n n' (∅ : Grammar) ∅ :=
      ⟨⟨nofun, nofun, nofun⟩, ⟨nofun, nofun, nofun⟩, fun _ _ _ => rfl⟩
    exact InStep.pure (settings (le_refl n) (le_refl n') hempty)
  | some g =>
    exact (inStep_grammar hps' g).bind fun _ _ _ _ hnq hnq' hg =>
      InStep.pure (settings hnq hnq' hg)

/-- Disambiguation ends in what reads the same. -/
theorem inStep_disambiguate {g g' : Grammar} {t t' : Term} (hg : Matches l l' g g')
    (ht : Twins l l' t t') (config : PassConfig) :
    InStep l l' (Spelling.build (disambiguate g t config))
      (Spelling.build (disambiguate g' t' config))
      fun k k' v v' => Report.ofVerdict k.symbols v = Report.ofVerdict k'.symbols v' := by
  refine (inStep_build (yields_disambiguate hg.known ht.mem config)
    (yields_disambiguate hg.known' ht.mem' config)).imp fun k k' v v' hlk hlk' h => ?_
  obtain ⟨⟨o, ho, rfl⟩, o', ho', rfl⟩ := h
  have houtcome : Matches l l' (t.tree.disambiguated l.symbols g)
      (t'.tree.disambiguated l'.symbols g') := Corresponds.disambiguated hg ht.tree
  rw [Report.ofVerdict_verdict, Report.ofVerdict_verdict, ho.tree_eq, ho'.tree_eq]
  exact (houtcome.of_le hlk hlk').eq_of_legible Report.legible_ofOutcome

end Ledger

namespace SpelledInput

/-- The numbers of symbols cannot be observed. Whatever strings are interned before all others, an
input is read or refused, and its term is accepted or rejected, with the same words: the same tree,
the same failures and the same warnings, all symbols written as strings. -/
theorem numbering_unobservable (i : SpelledInput) (known known' : List String) (position : Nat)
    (config : PassConfig) : { i with known }.report position config =
      { i with known := known' }.report position config := by
  have hstep : Ledger.InStep .initial .initial ({ i with known }.disambiguated position config)
      ({ i with known := known' }.disambiguated position config)
      fun k k' v v' => Report.ofVerdict k.symbols v = Report.ofVerdict k'.symbols v' := by
    refine (Ledger.inStep_read i known known').bind fun k k' s s' _ _ hs => ?_
    refine (Ledger.inStep_nodeAt hs.nodes position).bind fun m m' t t' hkm hkm' ht => ?_
    exact Ledger.inStep_disambiguate (hs.grammar.of_le hkm hkm') ht config
  obtain ⟨r, r', k, k', hrun, hrun', -, -, hend⟩ := hstep
  have hinitial : Ledger.initial.session = .initial := rfl
  rw [hinitial] at hrun hrun'
  unfold report
  rw [hrun, hrun']
  cases hend with
  | ok h => exact h
  | error h => exact congrArg Report.unread h

/-- In the one table and in the other, the same two attributes are stored in different orders. -/
example :
    let stored (names : SymbolTable) :=
      (OrderedSet.ofList (names.internMany ["hook", "left"]).1).toList.map names.text
    stored (SymbolTable.initial.internMany ["hook", "left"]).2 = ["hook", "left"] ∧
      stored (SymbolTable.initial.internMany ["left", "hook"]).2 = ["left", "hook"] := by
  decide

end SpelledInput
end ParseForest
