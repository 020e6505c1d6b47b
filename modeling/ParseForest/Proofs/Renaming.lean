import ParseForest.Proofs.CleaningLaws
import ParseForest.Proofs.Disambiguated
import ParseForest.Proofs.Interning

/-!
# Renaming symbols

Two tables may have the same strings under different symbols. Then the symbols of
one are translated to those of the other, and this is a renaming that keeps symbols
apart and leaves the reserved ones alone. Whatever the passes compare stays equal
or different when symbols are renamed, although sets of attributes and of issues
are put in another order.
-/
namespace ParseForest

namespace OrderedSet
variable {α β : Type} [Keyed α] [Keyed β]

/-- The images of the members of a set, in the order of their own keys. -/
def image (f : α → β) (s : OrderedSet α) : OrderedSet β := ofList (s.toList.map f)

variable {f : α → β} {s t : OrderedSet α}

@[simp] theorem mem_image {b : β} : b ∈ s.image f ↔ ∃ a ∈ s, f a = b := by
  rw [image, mem_ofList, List.mem_map]
  rfl

@[simp] theorem image_singleton (a : α) : (singleton a).image f = singleton (f a) := by
  refine ext fun b => ?_
  simp [eq_comm]

theorem image_union : (s ∪ t).image f = s.image f ∪ t.image f := by
  refine ext fun b => ?_
  simp only [mem_image, mem_union, or_and_right, exists_or]

theorem image_unions (sets : List (OrderedSet α)) :
    (unions sets).image f = unions (sets.map (image f)) := by
  induction sets with
  | nil => rfl
  | cons s sets ih => exact image_union.trans (congrArg (s.image f ∪ ·) ih)

theorem image_injective (hf : Function.Injective f) : Function.Injective (image f) := by
  intro s t h
  refine ext fun a => ?_
  have hmem (u : OrderedSet α) : a ∈ u ↔ f a ∈ u.image f := by
    simp only [mem_image]
    constructor
    · intro ha
      exact ⟨a, ha, rfl⟩
    · rintro ⟨b, hb, hab⟩
      exact hf hab ▸ hb
  rw [hmem s, hmem t, h]

theorem image_eq_empty_iff : s.image f = ∅ ↔ s = ∅ := by
  constructor
  · intro h
    refine ext fun a => iff_of_false (fun ha => ?_) (not_mem_empty a)
    exact not_mem_empty (f a) (h ▸ mem_image.mpr ⟨a, ha, rfl⟩)
  · rintro rfl
    rfl

end OrderedSet

namespace SymbolTable
variable {names other : SymbolTable} {ρ : Symbol → Symbol}

/-- The tables have the same strings, and each symbol is taken to the one that the other table has
for its string. -/
structure Translates (ρ : Symbol → Symbol) (names other : SymbolTable) : Prop where
  injective : Function.Injective ρ
  name?_eq : ∀ s, other.name? (ρ s) = names.name? s
  find?_eq : ∀ name, other.find? name = (names.find? name).map ρ
  reserved : ∀ entry ∈ Symbol.reserved, ρ entry.1 = entry.1

theorem Translates.text_eq (h : Translates ρ names other) (s : Symbol) :
    other.text (ρ s) = names.text s := by
  rw [text, text, h.name?_eq]

/-- What is compared with a reserved symbol may be translated first. -/
theorem Translates.eq_reserved_iff (h : Translates ρ names other) {s r : Symbol}
    (hr : r ∈ Symbol.reserved.map Prod.fst) : ρ s = r ↔ s = r := by
  obtain ⟨entry, hentry, rfl⟩ := List.mem_map.mp hr
  have hfixed := h.reserved entry hentry
  rw [← h.injective.eq_iff (a := s), hfixed]

/-- The symbol that the other table has for the string of a symbol. Where there is none, it is one
that the other table does not have. -/
def translation (names other : SymbolTable) (s : Symbol) : Symbol :=
  match (names.name? s).bind other.find? with
  | some r => r
  | none => ⟨other.size + s.index⟩

theorem translates_translation (hn : initial ≤ names) (ho : initial ≤ other)
    (h : ∀ x, names.Has x ↔ other.Has x) :
    Translates (translation names other) names other := by
  have known {s : Symbol} {x : String} (hs : names.name? s = some x) :
      other.find? x = some (translation names other s) := by
    obtain ⟨r, hr⟩ := (h x).mp ⟨s, hs⟩
    have hx := find?_eq_some_iff.mpr hr
    simp only [translation, hs, Option.bind_some, hx]
  have unknown {s : Symbol} (hs : names.name? s = none) :
      translation names other s = ⟨other.size + s.index⟩ := by
    simp only [translation, hs, Option.bind_none]
  have named (s : Symbol) : other.name? (translation names other s) = names.name? s := by
    cases hs : names.name? s with
    | some x => exact find?_eq_some_iff.mp (known hs)
    | none =>
      rw [unknown hs]
      exact name?_eq_none_iff.mpr (Nat.le_add_right _ _)
  refine ⟨fun s r hsr => ?_, named, fun x => ?_, fun entry hentry => ?_⟩
  · have hname : names.name? s = names.name? r := by rw [← named, hsr, named]
    cases hs : names.name? s with
    | some x =>
      have hfind := find?_eq_some_iff.mpr hs
      rw [find?_eq_some_iff.mpr (hname ▸ hs)] at hfind
      exact (Option.some.inj hfind).symm
    | none =>
      rw [unknown hs, unknown (hname ▸ hs)] at hsr
      exact congrArg Symbol.mk (Nat.add_left_cancel (congrArg Symbol.index hsr))
  · cases hx : names.find? x with
    | some s => exact known (find?_eq_some_iff.mp hx)
    | none =>
      refine find?_eq_none_iff.mpr fun r hr => ?_
      obtain ⟨s, hs⟩ := (h x).mpr ⟨r, hr⟩
      exact find?_eq_none_iff.mp hx s hs
  · have hname := name?_initial entry hentry
    have hknown := known (hn _ _ hname)
    rw [find?_eq_some_iff.mpr (ho _ _ hname)] at hknown
    exact (Option.some.inj hknown).symm

/-- Any two tables can grow to have the same strings. -/
theorem exists_translates (hn : initial ≤ names) (ho : initial ≤ other) :
    ∃ later later' ρ, names ≤ later ∧ other ≤ later' ∧ Translates ρ later later' := by
  have hle := le_internMany names other.names.toList
  have hle' := le_internMany other names.names.toList
  refine ⟨_, _, _, hle, hle', translates_translation (le_trans hn hle) (le_trans ho hle')
    fun x => ?_⟩
  rw [has_internMany, has_internMany, has_iff_mem_names, has_iff_mem_names, or_comm]

end SymbolTable

def SortName.rename (ρ : Symbol → Symbol) (s : SortName) : SortName := ⟨ρ s.symbol⟩

def Label.rename (ρ : Symbol → Symbol) (l : Label) : Label := ⟨ρ l.symbol⟩

def Span.rename (ρ : Symbol → Symbol) (s : Span) : Span := { s with context := ρ s.context }

def ProductionItem.rename (ρ : Symbol → Symbol) : ProductionItem → ProductionItem
  | terminal token => terminal (ρ token)
  | nonterminal sort => nonterminal (sort.rename ρ)

/-- The attributes are sorted anew. -/
def Production.rename (ρ : Symbol → Symbol) (p : Production) : Production where
  sort := p.sort.rename ρ
  items := p.items.map (ProductionItem.rename ρ)
  label := p.label.map (Label.rename ρ)
  attributes := p.attributes.image ρ

def Issue.rename (ρ : Symbol → Symbol) : Issue → Issue
  | unlabeledNonSubsort sort arity span => unlabeledNonSubsort (sort.rename ρ) arity (span.rename ρ)
  | listSortExpected found expected span =>
      listSortExpected (found.rename ρ) (expected.rename ρ) (span.rename ρ)

def Failures.rename (ρ : Symbol → Symbol) (f : Failures) : Failures where
  issues := f.issues.image (Issue.rename ρ)
  nonempty h := f.nonempty (OrderedSet.image_eq_empty_iff.mp h)

namespace Forest

mutual

/-- The tree with other symbols in the same places. -/
def rename (ρ : Symbol → Symbol) : Tree → Tree
  | constant _ value production span =>
      constant () (ρ value) (production.rename ρ) (span.rename ρ)
  | application _ production items span =>
      application () (production.rename ρ) (renameAll ρ items) (span.rename ρ)
  | ambiguity _ items span => ambiguity () (renameAll ρ items) (span.rename ρ)
  | grouping _ items span => grouping () (renameAll ρ items) (span.rename ρ)

def renameAll (ρ : Symbol → Symbol) : List Tree → List Tree
  | [] => []
  | t :: ts => rename ρ t :: renameAll ρ ts

end

end Forest

section Names
variable {ρ : Symbol → Symbol}

theorem SortName.rename_injective (h : Function.Injective ρ) :
    Function.Injective (SortName.rename ρ) := fun _ _ hst =>
  congrArg SortName.mk (h (congrArg SortName.symbol hst))

theorem Label.rename_injective (h : Function.Injective ρ) :
    Function.Injective (Label.rename ρ) := fun _ _ hlm =>
  congrArg Label.mk (h (congrArg Label.symbol hlm))

theorem ProductionItem.rename_injective (h : Function.Injective ρ) :
    Function.Injective (ProductionItem.rename ρ) := by
  intro a b hab
  cases a <;> cases b
  · exact congrArg terminal (h (ProductionItem.terminal.inj hab))
  · cases hab
  · cases hab
  · exact congrArg nonterminal (SortName.rename_injective h (ProductionItem.nonterminal.inj hab))

theorem Production.rename_injective (h : Function.Injective ρ) :
    Function.Injective (Production.rename ρ) := by
  intro p q hpq
  obtain ⟨hsort, hitems, hlabel, hattributes⟩ := Production.mk.inj hpq
  cases p
  cases q
  congr 1
  · exact SortName.rename_injective h hsort
  · exact List.map_injective_iff.mpr (ProductionItem.rename_injective h) hitems
  · exact Option.map_injective (Label.rename_injective h) hlabel
  · exact OrderedSet.image_injective h hattributes

end Names

namespace Production
variable {ρ : Symbol → Symbol}

@[simp] theorem slots_rename (p : Production) :
    (p.rename ρ).slots = p.slots.map (SortName.rename ρ) := by
  rw [slots, slots, rename, List.filterMap_map, List.map_filterMap]
  refine List.filterMap_congr fun item _ => ?_
  cases item <;> rfl

@[simp] theorem arity_rename (p : Production) : (p.rename ρ).arity = p.arity := by
  rw [arity, slots_rename, List.length_map, arity]

end Production

def ListDeclaration.rename (ρ : Symbol → Symbol) (d : ListDeclaration) : ListDeclaration where
  sort := d.sort.rename ρ
  element := d.element.rename ρ
  terminator := d.terminator.rename ρ
  cons := d.cons.rename ρ
  separator := d.separator.map ρ
  nonEmpty := d.nonEmpty
  terminator_sort := congrArg (SortName.rename ρ) d.terminator_sort
  cons_sort := congrArg (SortName.rename ρ) d.cons_sort
  terminator_arity := (d.terminator.arity_rename).trans d.terminator_arity
  cons_slots := by
    rw [Production.slots_rename, d.cons_slots]
    rfl

def Lattice.rename (ρ : Symbol → Symbol) (l : Lattice) : Lattice where
  sorts := l.sorts.map (SortName.rename ρ)
  above := l.above
  above_size := by rw [l.above_size, List.length_map]

def Grammar.rename (ρ : Symbol → Symbol) (g : Grammar) : Grammar where
  subsorts := g.subsorts.rename ρ
  lists := ⟨g.lists.declarations.map (ListDeclaration.rename ρ)⟩
  labeled := g.labeled.map (Production.rename ρ)

namespace Forest
variable {ρ : Symbol → Symbol} {t u : Tree}

@[simp] theorem renameAll_eq (ts : List Tree) : renameAll ρ ts = ts.map (rename ρ) := by
  induction ts with
  | nil => rfl
  | cons t ts ih => rw [renameAll, ih, List.map_cons]

theorem rename_application (m : Unit) (p : Production) (ts : List Tree) (s : Span) :
    rename ρ (application m p ts s) =
      application () (p.rename ρ) (ts.map (rename ρ)) (s.rename ρ) := by
  rw [rename, renameAll_eq]

theorem rename_ambiguity (m : Unit) (ts : List Tree) (s : Span) :
    rename ρ (ambiguity m ts s) = ambiguity () (ts.map (rename ρ)) (s.rename ρ) := by
  rw [rename, renameAll_eq]

theorem rename_grouping (m : Unit) (ts : List Tree) (s : Span) :
    rename ρ (grouping m ts s) = grouping () (ts.map (rename ρ)) (s.rename ρ) := by
  rw [rename, renameAll_eq]

@[simp] theorem span_rename (t : Tree) : (t.rename ρ).span = t.span.rename ρ := by
  cases t <;> rfl

@[simp] theorem production?_rename (t : Tree) :
    (t.rename ρ).production? = t.production?.map (Production.rename ρ) := by
  cases t <;> rfl

@[simp] theorem isEmptyMarker_rename (t : Tree) :
    (t.rename ρ).isEmptyMarker = t.isEmptyMarker := by
  cases t with
  | grouping m ts s => cases ts <;> rfl
  | _ => rfl

/-- Trees agree as they did before they were renamed. -/
theorem agrees_rename (h : Function.Injective ρ) (t u : Tree) :
    (t.rename ρ).agrees (u.rename ρ) = t.agrees u := by
  have members {ts us : List Tree} (ih : ∀ x ∈ ts, ∀ y : Tree,
      (x.rename ρ).agrees (y.rename ρ) = x.agrees y) :
      (∀ c ∈ (ts.map (rename ρ)).zip (us.map (rename ρ)), c.1.agrees c.2) ↔
        ∀ c ∈ ts.zip us, c.1.agrees c.2 := by
    rw [List.zip_map, List.forall_mem_map]
    exact forall₂_congr fun c hc => by rw [Prod.map, ih c.1 (List.of_mem_zip hc).1]
  rw [Bool.eq_iff_iff]
  induction t using Forest.induction generalizing u with
  | constant m v p s =>
    cases u with
    | constant =>
      rw [rename, rename, agrees_constant_iff, agrees_constant_iff, h.eq_iff,
        (Production.rename_injective h).eq_iff]
    | _ => exact iff_of_false (by simp [rename, agrees, agreesBy]) (by simp [agrees, agreesBy])
  | application m p ts s ih =>
    cases u with
    | application =>
      rw [rename_application, rename_application, agrees_application_iff, agrees_application_iff,
        (Production.rename_injective h).eq_iff, List.length_map, List.length_map,
        members fun x hx y => Bool.eq_iff_iff.mpr (ih x hx y)]
    | _ => exact iff_of_false (by simp [rename, agrees, agreesBy]) (by simp [agrees, agreesBy])
  | ambiguity m ts s ih =>
    cases u with
    | ambiguity =>
      rw [rename_ambiguity, rename_ambiguity, agrees_ambiguity_iff, agrees_ambiguity_iff,
        List.length_map, List.length_map, List.forall_mem_map]
      refine and_congr_right fun _ => forall₂_congr fun x hx => ?_
      simp only [List.mem_map, exists_exists_and_eq_and, ih x hx]
    | _ => exact iff_of_false (by simp [rename, agrees, agreesBy]) (by simp [agrees, agreesBy])
  | grouping m ts s ih =>
    cases u with
    | grouping =>
      rw [rename_grouping, rename_grouping, agrees_grouping_iff, agrees_grouping_iff,
        List.length_map, List.length_map, members fun x hx y => Bool.eq_iff_iff.mpr (ih x hx y)]
    | _ => exact iff_of_false (by simp [rename, agrees, agreesBy]) (by simp [agrees, agreesBy])

theorem eraseDups_map_rename (h : Function.Injective ρ) (ts : List Tree) :
    (ts.map (rename ρ)).eraseDups = ts.eraseDups.map (rename ρ) :=
  eraseDups_map fun x _ y _ => agrees_rename h x y

end Forest

end ParseForest
