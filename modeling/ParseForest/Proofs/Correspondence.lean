import Mathlib.Data.List.GetD
import Mathlib.Data.List.Nodup
import ParseForest.Proofs.Presentation
import ParseForest.Proofs.RenamedPasses

/-!
# What goes together in two tables

Things that are made of the symbols of two tables go together if symbols can be
renamed to take the one to the other. The tables need not have the same strings
yet. They may both grow until they do, and what goes together still does. What is
read off such things is the same if it depends only on the strings of symbols.
-/
namespace ParseForest

/-- What is made of symbols. -/
class Renamable (α : Type) where
  rename : (Symbol → Symbol) → α → α
  /-- The symbols are in the table. -/
  KnownTo : SymbolTable → α → Prop
  knownTo_of_le : ∀ {names later : SymbolTable} {a : α}, names ≤ later → KnownTo names a →
    KnownTo later a

namespace Renamable
variable {α ε : Type}

instance : Renamable Symbol := ⟨id, fun names s => s ∈ names, SymbolTable.mem_of_le⟩

instance : Renamable SortName :=
  ⟨SortName.rename, fun names s => s.symbol ∈ names, SymbolTable.mem_of_le⟩

instance : Renamable Span :=
  ⟨Span.rename, fun names s => s.context ∈ names, SymbolTable.mem_of_le⟩

instance : Renamable ProductionItem :=
  ⟨ProductionItem.rename, fun names item => item.symbol ∈ names, SymbolTable.mem_of_le⟩

instance : Renamable Production :=
  ⟨Production.rename, fun names p => p.KnownTo names, fun h hp => hp.of_le h⟩

instance : Renamable Tree :=
  ⟨Forest.rename, fun names t => t.KnownTo names, fun h ht => ht.of_le h⟩

instance [Renamable α] : Renamable (List α) where
  rename ρ := List.map (rename ρ)
  KnownTo names as := ∀ a ∈ as, KnownTo names a
  knownTo_of_le h has a ha := knownTo_of_le h (has a ha)

instance [Renamable α] : Renamable (Option α) where
  rename ρ := Option.map (rename ρ)
  KnownTo names o := ∀ a, o = some a → KnownTo names a
  knownTo_of_le h ho a ha := knownTo_of_le h (ho a ha)

instance {β : Type} [Renamable α] [Renamable β] : Renamable (α × β) where
  rename ρ := Prod.map (rename ρ) (rename ρ)
  KnownTo names c := KnownTo names c.1 ∧ KnownTo names c.2
  knownTo_of_le h hc := ⟨knownTo_of_le h hc.1, knownTo_of_le h hc.2⟩

instance [Keyed α] [Renamable α] : Renamable (OrderedSet α) where
  rename ρ := OrderedSet.image (rename ρ)
  KnownTo names s := ∀ a ∈ s, KnownTo names a
  knownTo_of_le h hs a ha := knownTo_of_le h (hs a ha)

instance [Renamable ε] [Renamable α] : Renamable (Except ε α) where
  rename ρ
    | .ok a => .ok (rename ρ a)
    | .error e => .error (rename ρ e)
  KnownTo names
    | .ok a => KnownTo names a
    | .error e => KnownTo names e
  knownTo_of_le {_ _ r} h hr :=
    match r with
    | .ok _ => knownTo_of_le h hr
    | .error _ => knownTo_of_le h hr

instance : Renamable Lattice where
  rename := Lattice.rename
  KnownTo names l := ∀ s ∈ l.sorts, s.symbol ∈ names
  knownTo_of_le h hl s hs := SymbolTable.mem_of_le h (hl s hs)

/-- The other sorts of a declaration are those of its productions. -/
instance : Renamable ListDeclaration where
  rename := ListDeclaration.rename
  KnownTo names d :=
    d.terminator.KnownTo names ∧ d.cons.KnownTo names ∧ ∀ s ∈ d.separator, s ∈ names
  knownTo_of_le h hd :=
    ⟨hd.1.of_le h, hd.2.1.of_le h, fun s hs => SymbolTable.mem_of_le h (hd.2.2 s hs)⟩

instance : Renamable Grammar :=
  ⟨Grammar.rename, fun names g => g.KnownTo names, fun h hg => hg.of_le h⟩

instance : Renamable LatticeError where
  rename ρ
    | .cyclicSubsort sort => .cyclicSubsort (rename ρ sort)
  KnownTo names
    | .cyclicSubsort sort => KnownTo names sort
  knownTo_of_le {_ _ e} h he :=
    match e with
    | .cyclicSubsort _ => SymbolTable.mem_of_le h he

instance : Renamable DeclarationError where
  rename ρ
    | .sortMismatch list found => .sortMismatch (rename ρ list) (rename ρ found)
    | .terminatorNotNullary list arity => .terminatorNotNullary (rename ρ list) arity
    | .malformedCons list element => .malformedCons (rename ρ list) (rename ρ element)
  KnownTo names
    | .sortMismatch list found => KnownTo names list ∧ KnownTo names found
    | .terminatorNotNullary list _ => KnownTo names list
    | .malformedCons list element => KnownTo names list ∧ KnownTo names element
  knownTo_of_le {_ _ e} h he :=
    match e with
    | .sortMismatch _ _ => ⟨knownTo_of_le h he.1, knownTo_of_le h he.2⟩
    | .terminatorNotNullary _ _ => SymbolTable.mem_of_le h he
    | .malformedCons _ _ => ⟨knownTo_of_le h he.1, knownTo_of_le h he.2⟩

theorem knownTo_empty [Keyed α] [Renamable α] (names : SymbolTable) :
    KnownTo names (∅ : OrderedSet α) := fun a ha => absurd ha (OrderedSet.not_mem_empty a)

end Renamable

open Renamable SymbolTable

/-- Wherever both tables have grown to have the same strings, symbols are translated to take the one
to the other. -/
structure Corresponds {α : Type} [Renamable α] (names other : SymbolTable) (a b : α) : Prop where
  known : KnownTo names a
  known' : KnownTo other b
  rename_eq : ∀ {later later' : SymbolTable} {ρ : Symbol → Symbol}, names ≤ later →
    other ≤ later' → later.Translates ρ later' → rename ρ a = b

/-- What is read off by the strings of a table depends on the strings only. -/
structure Legible {α β : Type} [Renamable α] (f : SymbolTable → α → β) : Prop where
  of_le : ∀ {names later : SymbolTable} {a : α}, names ≤ later → KnownTo names a →
    f later a = f names a
  rename : ∀ {names other : SymbolTable} {ρ : Symbol → Symbol} (a : α),
    names.Translates ρ other → f other (rename ρ a) = f names a

section Corresponding
variable {α β ε : Type} [Renamable α] [Renamable β] {names other later later' : SymbolTable}

theorem Corresponds.of_le {a b : α} (h : Corresponds names other a b) (hle : names ≤ later)
    (hle' : other ≤ later') : Corresponds later later' a b :=
  ⟨knownTo_of_le hle h.known, knownTo_of_le hle' h.known', fun hl hl' =>
    h.rename_eq (le_trans hle hl) (le_trans hle' hl')⟩

/-- What is legible reads the same in both tables. -/
theorem Corresponds.eq_of_legible {γ : Type} {f : SymbolTable → α → γ} {a b : α}
    (h : Corresponds names other a b) (hf : Legible f) (hn : initial ≤ names)
    (ho : initial ≤ other) : f names a = f other b := by
  obtain ⟨later, later', ρ, hle, hle', hρ⟩ := exists_translates hn ho
  calc
    f names a = f later a := (hf.of_le hle h.known).symm
    _ = f later' (rename ρ a) := (hf.rename a hρ).symm
    _ = f later' b := by rw [h.rename_eq hle hle' hρ]
    _ = f other b := hf.of_le hle' h.known'

/-- A string has corresponding symbols. -/
theorem corresponds_of_find? {name : String} {s r : Symbol} (hs : names.find? name = some s)
    (hr : other.find? name = some r) : Corresponds names other s r := by
  rw [find?_eq_some_iff] at hs hr
  refine ⟨mem_iff.mpr ⟨name, hs⟩, mem_iff.mpr ⟨name, hr⟩, fun {later later' ρ} hle hle' hρ => ?_⟩
  have hs' := find?_eq_some_iff.mpr (hle s name hs)
  have hr' := find?_eq_some_iff.mpr (hle' r name hr)
  rw [hρ.find?_eq, hs'] at hr'
  exact Option.some.inj hr'

theorem corresponds_of_forall₂ {as bs : List α} (h : List.Forall₂ (Corresponds names other) as bs) :
    Corresponds names other as bs := by
  refine ⟨fun a ha => ?_, fun b hb => ?_, fun hle hle' hρ => ?_⟩
  · obtain ⟨b, -, hab⟩ := forall₂_exists_right h ha
    exact hab.known
  · obtain ⟨a, -, hab⟩ := forall₂_exists_left h hb
    exact hab.known'
  · induction h with
    | nil => rfl
    | cons hab _ ih => exact congrArg₂ List.cons (hab.rename_eq hle hle' hρ) ih

/-- Either both results are successes or both are errors. -/
theorem Corresponds.except {r : Except α β} {r' : Except α β} (h : Corresponds names other r r')
    (hn : initial ≤ names) (ho : initial ≤ other) :
    (∃ b b', r = .ok b ∧ r' = .ok b' ∧ Corresponds names other b b') ∨
      ∃ e e', r = .error e ∧ r' = .error e' ∧ Corresponds names other e e' := by
  -- One renaming is enough to tell the kinds of the results apart.
  obtain ⟨later, later', ρ, hle, hle', hρ⟩ := exists_translates hn ho
  have heq := h.rename_eq hle hle' hρ
  obtain ⟨hk, hk', hall⟩ := h
  cases r <;> cases r'
  · exact .inr ⟨_, _, rfl, rfl, hk, hk', fun hl hl' hρ => Except.error.inj (hall hl hl' hρ)⟩
  · cases heq
  · cases heq
  · exact .inl ⟨_, _, rfl, rfl, hk, hk', fun hl hl' hρ => Except.ok.inj (hall hl hl' hρ)⟩

end Corresponding

namespace SortDeclarations
variable {ρ : Symbol → Symbol} {d : SortDeclarations}

/-- The same declarations with other sorts. -/
def rename (h : Function.Injective ρ) (d : SortDeclarations) : SortDeclarations where
  sorts := d.sorts.map (SortName.rename ρ)
  graph := d.graph
  sorts_nodup := List.Nodup.map (SortName.rename_injective h) d.sorts_nodup
  graph_size := by rw [d.graph_size, List.length_map]

theorem declare_rename (h : Function.Injective ρ) (s : SortName) :
    (d.rename h).declare (s.rename ρ) = (d.declare s).rename h := by
  have hmem : s.rename ρ ∈ (d.rename h).sorts ↔ s ∈ d.sorts :=
    List.mem_map_of_injective (SortName.rename_injective h)
  unfold declare
  by_cases hs : s ∈ d.sorts
  · rw [dif_pos hs, dif_pos (hmem.mpr hs)]
  · rw [dif_neg hs, dif_neg (hmem.not.mpr hs)]
    simp [rename]

theorem subsort_rename (h : Function.Injective ρ) (sub sup : SortName) :
    (d.rename h).subsort (sub.rename ρ) (sup.rename ρ) = (d.subsort sub sup).rename h := by
  have hposition (d : SortDeclarations) (s : SortName) :
      (d.rename h).sorts.idxOf (s.rename ρ) = d.sorts.idxOf s := by
    rw [rename, List.idxOf, List.findIdx_map]
    simp only [Function.comp_def, (SortName.rename_injective h).beq_eq]
    rfl
  rw [subsort, declare_rename, declare_rename, subsort, relate, relate]
  simp only [hposition]
  rfl

/-- The declarations are the same up to renaming if they are made of renamed sorts. -/
theorem ofLists_rename (h : Function.Injective ρ) (sorts : List SortName)
    (pairs : List (SortName × SortName)) :
    ofLists (sorts.map (SortName.rename ρ))
        (pairs.map (Prod.map (SortName.rename ρ) (SortName.rename ρ))) =
      (ofLists sorts pairs).rename h := by
  rw [ofLists, ofLists, List.foldl_map, List.foldl_map]
  have hsorts : sorts.foldl (fun d s => d.declare (s.rename ρ)) (empty.rename h) =
      (sorts.foldl declare empty).rename h :=
    List.foldl_hom (rename h) fun d s => declare_rename h s
  rw [show empty = empty.rename h from rfl, hsorts]
  exact List.foldl_hom (rename h) fun d p => subsort_rename h p.1 p.2

/-- Nothing but what is listed is declared. -/
theorem forall_mem_sorts_ofLists {P : SortName → Prop} {sorts : List SortName}
    {pairs : List (SortName × SortName)} (hs : ∀ s ∈ sorts, P s)
    (hp : ∀ p ∈ pairs, P p.1 ∧ P p.2) : ∀ s ∈ (ofLists sorts pairs).sorts, P s := by
  have declare {d : SortDeclarations} {x : SortName} (hd : ∀ s ∈ d.sorts, P s) (hx : P x) :
      ∀ s ∈ (d.declare x).sorts, P s := by
    intro s hs
    rcases mem_sorts_declare.mp hs with hs | rfl
    · exact hd s hs
    · exact hx
  have hsorts : ∀ s ∈ (sorts.foldl SortDeclarations.declare empty).sorts, P s := by
    refine List.foldlRecOn (motive := fun d : SortDeclarations => ∀ s ∈ d.sorts, P s) sorts _
      (by simp [empty]) ?_
    exact fun d hd x hx => declare hd (hs x hx)
  refine List.foldlRecOn (motive := fun d : SortDeclarations => ∀ s ∈ d.sorts, P s) pairs _
    hsorts ?_
  exact fun d hd p hm => declare (declare hd (hp p hm).1) (hp p hm).2

theorem build_rename {names other : SymbolTable} (h : names.Translates ρ other)
    (d : SortDeclarations) : (d.rename h.injective).build = Renamable.rename ρ d.build := by
  have hdefault : (default : SortName).rename ρ = default :=
    (SortName.rename_eq_iff_of_reserved h (by decide)).mpr rfl
  have hsort (v : Nat) : (d.rename h.injective).sorts.getD v default =
      (d.sorts.getD v default).rename ρ := by
    have hmap := List.getD_map d.sorts default (n := v) (SortName.rename ρ)
    rwa [hdefault] at hmap
  cases ho : d.graph.topologicalOrder with
  | ok order =>
    have ho' : (d.rename h.injective).graph.topologicalOrder = .ok order := ho
    unfold build
    simp only [ho, ho']
    rfl
  | error v =>
    have ho' : (d.rename h.injective).graph.topologicalOrder = .error v := ho
    unfold build
    simp only [ho, ho', hsort]
    rfl

end SortDeclarations

namespace ListDeclaration
variable {ρ : Symbol → Symbol}

theorem ofProductions_rename (h : Function.Injective ρ) (sort element : SortName)
    (terminator cons : Production) :
    ofProductions (sort.rename ρ) (element.rename ρ) (terminator.rename ρ) (cons.rename ρ) =
      Renamable.rename ρ (ofProductions sort element terminator cons) := by
  have hsort (p : Production) : (p.rename ρ).sort = sort.rename ρ ↔ p.sort = sort :=
    (SortName.rename_injective h).eq_iff
  have hslots : (cons.rename ρ).slots = [element.rename ρ, sort.rename ρ] ↔
      cons.slots = [element, sort] := by
    rw [Production.slots_rename]
    exact (List.map_injective_iff.mpr (SortName.rename_injective h)).eq_iff (b := [element, sort])
  unfold ofProductions
  simp only [hsort, hslots, Production.arity_rename]
  by_cases ht : terminator.sort = sort
  · by_cases hc : cons.sort = sort
    · by_cases ha : terminator.arity = 0
      · by_cases hs : cons.slots = [element, sort]
        · simp only [dif_pos ht, dif_pos hc, dif_pos ha, dif_pos hs]
          rfl
        · simp only [dif_pos ht, dif_pos hc, dif_pos ha, dif_neg hs]
          rfl
      · simp only [dif_pos ht, dif_pos hc, dif_neg ha]
        rfl
    · simp only [dif_pos ht, dif_neg hc]
      rfl
  · simp only [dif_neg ht]
    rfl

end ListDeclaration

namespace Grammar
variable {ρ : Symbol → Symbol}

theorem withProductions_rename (g : Grammar) (ps : List Production) :
    (g.rename ρ).withProductions (ps.map (Production.rename ρ)) =
      (g.withProductions ps).rename ρ := by
  have hlabel : ((fun p : Production => p.label.isSome) ∘ Production.rename ρ) =
      fun p => p.label.isSome := funext fun p => by simp [Production.rename]
  simp only [withProductions, rename, List.map_append, List.filter_map, hlabel]

theorem ofSorts_rename (l : Lattice) (ds : List ListDeclaration) :
    ofSorts (l.rename ρ) (.ofList (ds.map (ListDeclaration.rename ρ))) =
      (ofSorts l (.ofList ds)).rename ρ := by
  have hlists : ListCatalog.ofList (ds.map (ListDeclaration.rename ρ)) =
      ⟨(ListCatalog.ofList ds).declarations.map (ListDeclaration.rename ρ)⟩ :=
    congrArg ListCatalog.mk (by
      rw [ListCatalog.declarations_ofList]
      exact ListCatalog.declarations_ofList _)
  rw [ofSorts, hlists]
  rfl

end Grammar

section Making
variable {ρ : Symbol → Symbol} {names other : SymbolTable}

/-- Reserved symbols correspond to themselves. -/
theorem corresponds_reserved (hn : initial ≤ names) (ho : initial ≤ other) {s : Symbol}
    (hs : s ∈ Symbol.reserved.map Prod.fst) : Corresponds names other s s := by
  obtain ⟨entry, hentry, rfl⟩ := List.mem_map.mp hs
  have hname := name?_initial entry hentry
  exact corresponds_of_find? (find?_eq_some_iff.mpr (hn _ _ hname))
    (find?_eq_some_iff.mpr (ho _ _ hname))

theorem Corresponds.sortName {s r : Symbol} (h : Corresponds names other s r) :
    Corresponds names other (SortName.mk s) ⟨r⟩ :=
  ⟨h.known, h.known', fun hle hle' hρ => congrArg SortName.mk (h.rename_eq hle hle' hρ)⟩

theorem Corresponds.span {c d : Symbol} (h : Corresponds names other c d) (offset len : Nat) :
    Corresponds names other (Span.mk offset len c) ⟨offset, len, d⟩ :=
  ⟨h.known, h.known', fun hle hle' hρ =>
    congrArg (Span.mk offset len) (h.rename_eq hle hle' hρ)⟩

theorem Corresponds.terminal {s r : Symbol} (h : Corresponds names other s r) :
    Corresponds names other (ProductionItem.terminal s) (.terminal r) :=
  ⟨h.known, h.known', fun hle hle' hρ =>
    congrArg ProductionItem.terminal (h.rename_eq hle hle' hρ)⟩

theorem Corresponds.nonterminal {s r : SortName} (h : Corresponds names other s r) :
    Corresponds names other (ProductionItem.nonterminal s) (.nonterminal r) :=
  ⟨h.known, h.known', fun hle hle' hρ =>
    congrArg ProductionItem.nonterminal (h.rename_eq hle hle' hρ)⟩

/-- A production is made of what its parts correspond to, whatever the order of its attributes. -/
theorem Corresponds.production {s r : SortName} {items items' : List ProductionItem}
    {label label' : Option Symbol} {keys keys' : List Symbol} (hs : Corresponds names other s r)
    (hi : Corresponds names other items items') (hl : Corresponds names other label label')
    (hk : Corresponds names other keys keys') :
    Corresponds names other (Production.mk s items (label.map Label.mk) (.ofList keys))
      ⟨r, items', label'.map Label.mk, .ofList keys'⟩ := by
  have knownTo {names : SymbolTable} {s : SortName} {items : List ProductionItem}
      {label : Option Symbol} {keys : List Symbol} (hs : KnownTo names s)
      (hi : KnownTo names items) (hl : KnownTo names label) (hk : KnownTo names keys) :
      (Production.mk s items (label.map Label.mk) (.ofList keys)).KnownTo names := by
    intro x hx
    simp only [Production.symbols, List.mem_cons, List.mem_append, List.mem_map, Option.map_map,
      Option.mem_toList, Option.map_eq_some_iff, OrderedSet.mem_toList, OrderedSet.mem_ofList] at hx
    rcases hx with rfl | (⟨item, hitem, rfl⟩ | ⟨y, hy, rfl⟩) | hx
    · exact hs
    · exact hi item hitem
    · exact hl y hy
    · exact hk x hx
  refine ⟨knownTo hs.known hi.known hl.known hk.known,
    knownTo hs.known' hi.known' hl.known' hk.known', fun {later later' ρ} hle hle' hρ => ?_⟩
  have himage : (OrderedSet.ofList keys).image ρ = .ofList (keys.map ρ) :=
    OrderedSet.ext fun x => by simp
  rw [← hs.rename_eq hle hle' hρ, ← hi.rename_eq hle hle' hρ, ← hl.rename_eq hle hle' hρ,
    ← hk.rename_eq hle hle' hρ]
  change Production.mk _ _ _ _ = _
  rw [himage, Option.map_map]
  cases label <;> rfl

theorem Corresponds.lattice {sorts sorts' : List SortName}
    {pairs pairs' : List (SortName × SortName)} (hs : Corresponds names other sorts sorts')
    (hp : Corresponds names other pairs pairs') (hn : initial ≤ names) (ho : initial ≤ other) :
    Corresponds names other (SortDeclarations.ofLists sorts pairs).build
      (SortDeclarations.ofLists sorts' pairs').build := by
  have knownTo {names : SymbolTable} {d : SortDeclarations} (hn : initial ≤ names)
      (hd : ∀ s ∈ d.sorts, s.symbol ∈ names) : KnownTo names d.build := by
    have hdefault : (default : SortName).symbol ∈ names := mem_of_le hn (by decide)
    unfold SortDeclarations.build
    split
    · exact hd
    · rename_i v _
      change (d.sorts.getD v default).symbol ∈ names
      rw [List.getD_eq_getElem?_getD]
      cases hv : d.sorts[v]? with
      | none => exact hdefault
      | some s => exact hd s (List.mem_of_getElem? hv)
  refine ⟨knownTo hn (SortDeclarations.forall_mem_sorts_ofLists hs.known hp.known),
    knownTo ho (SortDeclarations.forall_mem_sorts_ofLists hs.known' hp.known'),
    fun hle hle' hρ => ?_⟩
  rw [← hs.rename_eq hle hle' hρ, ← hp.rename_eq hle hle' hρ, ← SortDeclarations.build_rename hρ,
    ← SortDeclarations.ofLists_rename hρ.injective]
  rfl

theorem Corresponds.declaration {sort sort' element element' : SortName}
    {terminator terminator' cons cons' : Production} (hs : Corresponds names other sort sort')
    (he : Corresponds names other element element')
    (ht : Corresponds names other terminator terminator')
    (hc : Corresponds names other cons cons') :
    Corresponds names other (ListDeclaration.ofProductions sort element terminator cons)
      (ListDeclaration.ofProductions sort' element' terminator' cons') := by
  have knownTo {names : SymbolTable} {sort element : SortName} {terminator cons : Production}
      (hs : KnownTo names sort) (he : KnownTo names element) (ht : terminator.KnownTo names)
      (hc : cons.KnownTo names) :
      KnownTo names (ListDeclaration.ofProductions sort element terminator cons) := by
    unfold ListDeclaration.ofProductions
    split
    · split
      · split
        · split
          · exact ⟨ht, hc, fun s hs => absurd hs (Option.not_mem_none s)⟩
          · exact ⟨hs, he⟩
        · exact hs
      · exact ⟨hs, hc _ List.mem_cons_self⟩
    · exact ⟨hs, ht _ List.mem_cons_self⟩
  refine ⟨knownTo hs.known he.known ht.known hc.known,
    knownTo hs.known' he.known' ht.known' hc.known', fun hle hle' hρ => ?_⟩
  rw [← hs.rename_eq hle hle' hρ, ← he.rename_eq hle hle' hρ, ← ht.rename_eq hle hle' hρ,
    ← hc.rename_eq hle hle' hρ]
  exact (ListDeclaration.ofProductions_rename hρ.injective sort element terminator cons).symm

theorem Corresponds.withNonEmpty {d d' : ListDeclaration} (h : Corresponds names other d d')
    (nonEmpty : Bool) :
    Corresponds names other (d.withNonEmpty nonEmpty) (d'.withNonEmpty nonEmpty) :=
  ⟨h.known, h.known', fun hle hle' hρ =>
    congrArg (ListDeclaration.withNonEmpty · nonEmpty) (h.rename_eq hle hle' hρ)⟩

theorem Corresponds.withSeparator {d d' : ListDeclaration} {s s' : Symbol}
    (h : Corresponds names other d d') (hs : Corresponds names other s s') :
    Corresponds names other (d.withSeparator s) (d'.withSeparator s') := by
  refine ⟨⟨h.known.1, h.known.2.1, fun x hx => Option.some.inj hx ▸ hs.known⟩,
    ⟨h.known'.1, h.known'.2.1, fun x hx => Option.some.inj hx ▸ hs.known'⟩,
    fun hle hle' hρ => ?_⟩
  rw [← h.rename_eq hle hle' hρ, ← hs.rename_eq hle hle' hρ]
  rfl

theorem Corresponds.grammar {l l' : Lattice} {ds ds' : List ListDeclaration}
    {batches batches' : List (List Production)} (hl : Corresponds names other l l')
    (hd : Corresponds names other ds ds') (hb : Corresponds names other batches batches') :
    Corresponds names other
      (batches.foldl Grammar.withProductions (.ofSorts l (.ofList ds)))
      (batches'.foldl Grammar.withProductions (.ofSorts l' (.ofList ds'))) := by
  have knownTo {names : SymbolTable} {l : Lattice} {ds : List ListDeclaration}
      {batches : List (List Production)} (hd : KnownTo names ds) (hb : KnownTo names batches) :
      (batches.foldl Grammar.withProductions (.ofSorts l (.ofList ds))).KnownTo names := by
    have hlists := (Presentation.foldl_withProductions batches (.ofSorts l (.ofList ds))).2
    have hdeclarations : (batches.foldl Grammar.withProductions
        (.ofSorts l (.ofList ds))).lists.declarations = ds := by
      rw [hlists]
      exact ListCatalog.declarations_ofList ds
    refine ⟨fun p hp => ?_, fun d hm => ?_, fun d hm => ?_⟩
    · obtain ⟨batch, hbatch, hp, -⟩ :=
        (Presentation.mem_labeled_foldl.mp hp).resolve_left List.not_mem_nil
      exact hb batch hbatch p hp
    · exact (hd d (hdeclarations ▸ hm)).2.1
    · exact (hd d (hdeclarations ▸ hm)).1
  refine ⟨knownTo hd.known hb.known, knownTo hd.known' hb.known', fun {_ _ ρ} hle hle' hρ => ?_⟩
  have hempty : Grammar.ofSorts l' (.ofList ds') = (Grammar.ofSorts l (.ofList ds)).rename ρ := by
    rw [← hl.rename_eq hle hle' hρ, ← hd.rename_eq hle hle' hρ]
    exact Grammar.ofSorts_rename l ds
  rw [hempty, ← hb.rename_eq hle hle' hρ]
  change _ = (batches.map (List.map (Production.rename ρ))).foldl Grammar.withProductions _
  rw [List.foldl_map]
  exact (List.foldl_hom (Grammar.rename ρ) fun g ps => Grammar.withProductions_rename g ps).symm

end Making

end ParseForest
