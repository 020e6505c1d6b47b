import ParseForest.Cleaning
import ParseForest.Proofs.Passing

/-!
# What cleaning makes of a tree

Cleaning is a function of the tree of a term. What it makes of a tree is clean:
all applications are labelled, a group has no empty markers and is not of one
term, and an ambiguity has at least two alternatives that are no empty markers. A
clean tree is left as it is, so when a lone survivor takes the place of its
parent it does not matter that it is cleaned a second time.
-/
namespace ParseForest
namespace Forest

/-- The trees of a list that are no empty markers. -/
def proper (ts : List Tree) : List Tree := ts.filter fun u => !u.isEmptyMarker

@[simp] theorem mem_proper {ts : List Tree} {u : Tree} :
    u ∈ proper ts ↔ u ∈ ts ∧ ¬u.isEmptyMarker := by
  simp [proper]

/-- What remains of a group or an ambiguity whose items are clean already. -/
def collapsed (t : Tree) : Tree :=
  match proper t.items with
  | [] => grouping () [] t.span
  | [survivor] => survivor
  | survivors => t.withItems survivors

theorem collapsed_of_nil {t : Tree} (h : proper t.items = []) :
    t.collapsed = grouping () [] t.span := by
  unfold collapsed
  rw [h]

theorem collapsed_of_singleton {t u : Tree} (h : proper t.items = [u]) : t.collapsed = u := by
  unfold collapsed
  rw [h]

theorem collapsed_of_two_le {t : Tree} (h : 2 ≤ (proper t.items).length) :
    t.collapsed = t.withItems (proper t.items) := by
  unfold collapsed
  match hs : proper t.items with
  | [] => simp [hs] at h
  | [_] => simp [hs] at h
  | _ :: _ :: _ => rfl

/-- A collapsed node is an empty marker, its lone survivor, or has all survivors. -/
theorem collapsed_cases {motive : Tree → Prop} {t : Tree} (nothing : motive (grouping () [] t.span))
    (lone : ∀ u ∈ t.items, motive u)
    (several : 2 ≤ (proper t.items).length → motive (t.withItems (proper t.items))) :
    motive t.collapsed := by
  match hs : proper t.items with
  | [] =>
    rw [collapsed_of_nil hs]
    exact nothing
  | [u] =>
    rw [collapsed_of_singleton hs]
    have hu : u ∈ proper t.items := hs ▸ List.mem_cons_self
    exact lone u (mem_proper.mp hu).1
  | _ :: _ :: _ =>
    have hlen : 2 ≤ (proper t.items).length := by simp [hs]
    rw [collapsed_of_two_le hlen]
    exact several hlen

/-- What becomes of a node, given the outcomes of its children. -/
def cleanedNode (t : Tree) (os : List (Outcome Tree)) : Outcome Tree :=
  match t with
  | constant .. => .ok t
  | application _ production items span =>
      match production.label, os with
      | some _, _ => t.joinedAll os
      | none, [o] => o
      | none, _ => .fail (.unlabeledNonSubsort production.sort items.length span)
  | ambiguity .. | grouping .. => (t.joined os).followedBy fun u => .ok u.collapsed

def cleaned (t : Tree) : Outcome Tree := t.fold cleanedNode

theorem cleaned_eq (t : Tree) : t.cleaned = cleanedNode t (t.items.map cleaned) := fold_eq _ t

theorem cleaned_labeled {m : Unit} {p : Production} {l : Label} (h : p.label = some l)
    (ts : List Tree) (s : Span) :
    cleaned (application m p ts s) = (application m p ts s).joined (ts.map cleaned) := by
  rw [cleaned_eq]
  simp only [cleanedNode, h, joined, items]

theorem cleaned_unlabeled_singleton {m : Unit} {p : Production} (h : p.label = none)
    (t : Tree) (s : Span) : cleaned (application m p [t] s) = t.cleaned := by
  rw [cleaned_eq]
  simp only [cleanedNode, h, items, List.map_cons, List.map_nil]

theorem cleaned_unlabeled_of_length_ne {m : Unit} {p : Production} {ts : List Tree}
    (h : p.label = none) (hts : ts.length ≠ 1) (s : Span) :
    cleaned (application m p ts s) = .fail (.unlabeledNonSubsort p.sort ts.length s) := by
  rw [cleaned_eq]
  match ts with
  | [] => simp only [cleanedNode, h, items, List.map_nil]
  | [_] => exact absurd rfl hts
  | _ :: _ :: _ => simp only [cleanedNode, h, items, List.map_cons]

theorem cleaned_of_production?_eq_none {t : Tree} (h : t.production? = none) :
    t.cleaned = (t.joined (t.items.map cleaned)).followedBy fun u => .ok u.collapsed := by
  rw [cleaned_eq]
  cases t with
  | constant | application => cases h
  | ambiguity | grouping => rfl

/-- Cleaning the first tree gives the second. -/
def CleansTo (t u : Tree) : Prop := t.cleaned.result = .ok u

/-- What cleaning makes of those trees of a list that it does not reject. -/
def cleanings (ts : List Tree) : List Tree := Outcome.terms (ts.map cleaned)

section Nodes
variable {m : Unit} {p : Production} {ts : List Tree} {s : Span} {t u v : Tree}

theorem isOk_cleaned_iff : t.cleaned.isOk ↔ ∃ u, t.CleansTo u := Outcome.isOk_iff

theorem CleansTo.unique (hu : t.CleansTo u) (hv : t.CleansTo v) : u = v :=
  Except.ok.inj (hu.symm.trans hv)

theorem mem_cleanings : u ∈ cleanings ts ↔ ∃ t ∈ ts, t.CleansTo u := by
  simp only [cleanings, Outcome.mem_terms, List.mem_map, exists_exists_and_eq_and]
  exact Iff.rfl

theorem forall₂_map_cleaned {us : List Tree} :
    List.Forall₂ (fun o v => o.result = .ok v) (ts.map cleaned) us ↔
      List.Forall₂ CleansTo ts us := List.forall₂_map_left_iff

theorem cleansTo_constant_iff {value : Symbol} :
    CleansTo (constant m value p s) u ↔ u = constant m value p s := by
  rw [CleansTo, cleaned_eq]
  exact ⟨fun h => (Except.ok.inj h).symm, fun h => congrArg Except.ok h.symm⟩

theorem cleansTo_labeled_iff {l : Label} (h : p.label = some l) :
    CleansTo (application m p ts s) u ↔
      ∃ us, List.Forall₂ CleansTo ts us ∧ u = application m p us s := by
  rw [CleansTo, cleaned_labeled h]
  simp only [joined, result_joinedAll_eq_ok_iff, forall₂_map_cleaned]
  rfl

theorem cleansTo_unlabeled_iff (h : p.label = none) :
    CleansTo (application m p ts s) u ↔ ∃ t, ts = [t] ∧ t.CleansTo u := by
  by_cases hts : ts.length = 1
  · obtain ⟨t, rfl⟩ := List.length_eq_one_iff.mp hts
    rw [CleansTo, cleaned_unlabeled_singleton h]
    simp [CleansTo]
  · rw [CleansTo, cleaned_unlabeled_of_length_ne h hts]
    have hne : ∀ t, ts ≠ [t] := fun t he => hts (he ▸ rfl)
    simp [Outcome.fail, hne]

theorem cleansTo_grouping_iff : CleansTo (grouping m ts s) u ↔
    ∃ us, List.Forall₂ CleansTo ts us ∧ u = (grouping () us s).collapsed := by
  rw [CleansTo, cleaned_eq]
  simp only [cleanedNode, Outcome.result_followedBy_eq_ok_iff, joined, result_joinedAll_eq_ok_iff,
    items, forall₂_map_cleaned]
  constructor
  · rintro ⟨_, ⟨us, hus, rfl⟩, hu⟩
    exact ⟨us, hus, (Except.ok.inj hu).symm⟩
  · rintro ⟨us, hus, rfl⟩
    exact ⟨_, ⟨us, hus, rfl⟩, rfl⟩

theorem cleansTo_ambiguity_iff : CleansTo (ambiguity m ts s) u ↔
    (ts = [] ∨ ∃ t ∈ ts, t.cleaned.isOk) ∧
      u = (ambiguity () (cleanings ts).eraseDups s).collapsed := by
  rw [CleansTo, cleaned_eq]
  simp only [cleanedNode, Outcome.result_followedBy_eq_ok_iff, joined, result_joinedSome_eq_ok_iff,
    items, List.map_eq_nil_iff, List.mem_map, exists_exists_and_eq_and]
  constructor
  · rintro ⟨_, ⟨hok, rfl⟩, hu⟩
    exact ⟨hok, (Except.ok.inj hu).symm⟩
  · rintro ⟨hok, rfl⟩
    exact ⟨_, ⟨hok, rfl⟩, rfl⟩

end Nodes

/-- A walked group or ambiguity is one still, and its items are what cleaning makes of items. -/
theorem exists_cleansTo_of_joined {t u : Tree} (h : t.production? = none)
    (hu : (t.joined (t.items.map cleaned)).result = .ok u) :
    u.production? = none ∧ ∀ y ∈ u.items, ∃ x ∈ t.items, x.CleansTo y := by
  cases t with
  | constant | application => cases h
  | ambiguity m ts s =>
    obtain ⟨-, rfl⟩ := result_joinedSome_eq_ok_iff.mp hu
    exact ⟨rfl, fun y hy => mem_cleanings.mp (mem_of_mem_eraseDups hy)⟩
  | grouping m ts s =>
    obtain ⟨us, hus, rfl⟩ := result_joinedAll_eq_ok_iff.mp hu
    exact ⟨rfl, fun y hy => forall₂_exists_left (forall₂_map_cleaned.mp hus) hy⟩

/-- Cleaning has nothing to warn of. -/
theorem warnings_cleaned (t : Tree) : t.cleaned.warnings = ∅ := by
  have children {ts : List Tree} (ih : ∀ u ∈ ts, u.cleaned.warnings = ∅) :
      ∀ o ∈ ts.map cleaned, o.warnings = ∅ := List.forall_mem_map.mpr ih
  have followed {o : Outcome Tree} (ho : o.warnings = ∅) :
      (o.followedBy fun u => .ok u.collapsed).warnings = ∅ := by
    cases hr : o.result with
    | ok u =>
      rw [Outcome.followedBy_of_ok hr, Outcome.mergeWarnings, ho]
      rfl
    | error f => rw [Outcome.followedBy_of_error hr, ho]
  induction t using Forest.induction with
  | constant m v p s =>
    rw [cleaned_eq]
    rfl
  | application m p ts s ih =>
    rw [cleaned_eq]
    unfold cleanedNode
    dsimp only [items]
    split
    · exact warnings_joinedAll (children ih)
    · rename_i o _ ho
      exact children ih o (ho ▸ List.mem_cons_self)
    · rfl
  | ambiguity m ts s ih | grouping m ts s ih =>
    rw [cleaned_eq]
    exact followed (warnings_joined (children ih))

theorem cleaned_eq_ok_iff {t u : Tree} : t.cleaned = .ok u ↔ t.CleansTo u := by
  constructor
  · intro h
    rw [CleansTo, h]
    rfl
  · intro h
    have hw := warnings_cleaned t
    rw [CleansTo] at h
    cases ho : t.cleaned with
    | mk r w =>
      rw [ho] at h hw
      exact congrArg₂ Outcome.mk h hw

/-- What cleaning leaves of a node. -/
def NodeClean : Tree → Prop
  | constant .. => True
  | application _ production _ _ => production.label.isSome
  | ambiguity _ items _ => 2 ≤ items.length ∧ ∀ u ∈ items, ¬u.isEmptyMarker
  | grouping _ items _ => items.length ≠ 1 ∧ ∀ u ∈ items, ¬u.isEmptyMarker

structure Clean (t : Tree) : Prop where
  wellFormed : t.WellFormed
  nodes : Everywhere NodeClean t

section Clean
variable {t u v : Tree}

theorem clean_iff :
    t.Clean ↔ t.NodeWellFormed ∧ t.NodeClean ∧ ∀ u ∈ t.items, u.Clean := by
  constructor
  · intro h
    exact ⟨h.wellFormed.self, h.nodes.self,
      fun u hu => ⟨h.wellFormed.items hu, h.nodes.of_mem_items hu⟩⟩
  · intro ⟨hw, hn, hi⟩
    exact ⟨everywhere_iff.mpr ⟨hw, fun u hu => (hi u hu).wellFormed⟩,
      everywhere_iff.mpr ⟨hn, fun u hu => (hi u hu).nodes⟩⟩

theorem Clean.items (h : t.Clean) (hu : u ∈ t.items) : u.Clean := (clean_iff.mp h).2.2 u hu

theorem clean_emptyMarker (s : Span) : Clean (grouping () [] s) :=
  clean_iff.mpr ⟨trivial, ⟨by simp, by simp⟩, by simp [Forest.items]⟩

/-- Collapsing a node gives a clean tree if its items are clean. -/
theorem clean_collapsed (hp : t.production? = none) (hw : t.NodeWellFormed)
    (hi : ∀ u ∈ t.items, u.Clean) : t.collapsed.Clean := by
  have hproper : ∀ u ∈ proper t.items, u.Clean := fun u hu => hi u (mem_proper.mp hu).1
  have hne : ∀ u ∈ proper t.items, ¬u.isEmptyMarker := fun u hu => (mem_proper.mp hu).2
  refine collapsed_cases (clean_emptyMarker _) hi fun hlen => ?_
  cases t with
  | constant | application => cases hp
  | ambiguity m ts s =>
    have hpair : (proper (ambiguity m ts s).items).Pairwise fun x y => ¬y.agrees x :=
      List.Pairwise.filter _ hw
    rw [withItems_ambiguity, eraseDups_eq_self hpair]
    exact clean_iff.mpr ⟨hpair, ⟨hlen, hne⟩, hproper⟩
  | grouping m ts s =>
    exact clean_iff.mpr ⟨trivial, ⟨Nat.ne_of_gt hlen, hne⟩, hproper⟩

/-- A clean group or ambiguity has nothing to lose. -/
theorem collapsed_of_clean (hp : t.production? = none) (h : t.Clean) : t.collapsed = t := by
  obtain ⟨hw, hn, -⟩ := clean_iff.mp h
  have hne : ∀ u ∈ t.items, ¬u.isEmptyMarker := by
    cases t with
    | constant | application => cases hp
    | ambiguity | grouping => exact hn.2
  have hself : proper t.items = t.items :=
    List.filter_eq_self.mpr fun u hu => by simpa using hne u hu
  by_cases hlen : 2 ≤ t.items.length
  · rw [collapsed_of_two_le (hself.symm ▸ hlen), hself, withItems_self hw]
  · cases t with
    | constant | application => cases hp
    | ambiguity => exact absurd hn.1 hlen
    | grouping m ts s =>
      have hts : ts = [] := by
        have h1 : ts.length ≠ 1 := hn.1
        refine List.eq_nil_of_length_eq_zero ?_
        simp only [Forest.items] at hlen
        omega
      subst hts
      exact collapsed_of_nil hself

/-- What cleaning makes of a tree is clean. -/
theorem CleansTo.clean (ht : t.WellFormed) (h : t.CleansTo u) : u.Clean := by
  have all {ts us : List Tree} (hts : ∀ x ∈ ts, x.WellFormed)
      (ih : ∀ x ∈ ts, ∀ {y : Tree}, x.WellFormed → x.CleansTo y → y.Clean)
      (hf : List.Forall₂ CleansTo ts us) : ∀ y ∈ us, y.Clean := by
    intro y hy
    obtain ⟨x, hx, hxy⟩ := forall₂_exists_left hf hy
    exact ih x hx (hts x hx) hxy
  induction t using Forest.induction generalizing u with
  | constant m v p s =>
    rw [cleansTo_constant_iff.mp h]
    exact clean_iff.mpr ⟨trivial, trivial, by simp [Forest.items]⟩
  | application m p ts s ih =>
    cases hl : p.label with
    | some l =>
      obtain ⟨us, hf, rfl⟩ := (cleansTo_labeled_iff hl).mp h
      have hlen : us.length = p.arity := hf.length_eq.symm.trans ht.self
      exact clean_iff.mpr ⟨hlen, Option.isSome_iff_exists.mpr ⟨l, hl⟩,
        all (fun x hx => ht.items hx) ih hf⟩
    | none =>
      obtain ⟨x, rfl, hx⟩ := (cleansTo_unlabeled_iff hl).mp h
      exact ih x List.mem_cons_self (ht.items List.mem_cons_self) hx
  | ambiguity m ts s ih =>
    obtain ⟨-, rfl⟩ := cleansTo_ambiguity_iff.mp h
    refine clean_collapsed rfl (pairwise_eraseDups _) fun y hy => ?_
    obtain ⟨x, hx, hxy⟩ := mem_cleanings.mp (mem_of_mem_eraseDups hy)
    exact ih x hx (ht.items hx) hxy
  | grouping m ts s ih =>
    obtain ⟨us, hf, rfl⟩ := cleansTo_grouping_iff.mp h
    exact clean_collapsed rfl trivial (all (fun x hx => ht.items hx) ih hf)

/-- Cleaning leaves a clean tree as it is. -/
theorem Clean.cleansTo_self (h : t.Clean) : t.CleansTo t := by
  have same {ts : List Tree} (ih : ∀ x ∈ ts, x.Clean → x.CleansTo x) (hc : ∀ x ∈ ts, x.Clean) :
      List.Forall₂ CleansTo ts ts := List.forall₂_same.mpr fun x hx => ih x hx (hc x hx)
  induction t using Forest.induction with
  | constant m v p s => exact cleansTo_constant_iff.mpr rfl
  | application m p ts s ih =>
    obtain ⟨l, hl⟩ := Option.isSome_iff_exists.mp h.nodes.self
    exact (cleansTo_labeled_iff hl).mpr ⟨ts, same ih fun x hx => h.items hx, rfl⟩
  | ambiguity m ts s ih =>
    have hf := same ih fun x hx => h.items hx
    have hts : cleanings ts = ts := Outcome.terms_eq_of_forall₂ (forall₂_map_cleaned.mpr hf)
    refine cleansTo_ambiguity_iff.mpr ⟨?_, ?_⟩
    · by_cases hnil : ts = []
      · exact .inl hnil
      · obtain ⟨x, hx⟩ := List.exists_mem_of_ne_nil ts hnil
        exact .inr ⟨x, hx, isOk_cleaned_iff.mpr ⟨x, ih x hx (h.items hx)⟩⟩
    · rw [hts, eraseDups_eq_self h.wellFormed.self, collapsed_of_clean rfl h]
  | grouping m ts s ih =>
    exact cleansTo_grouping_iff.mpr
      ⟨ts, same ih fun x hx => h.items hx, (collapsed_of_clean rfl h).symm⟩

theorem height_collapsed_le {n : Nat} (h : ∀ u ∈ t.items, u.height < n) :
    t.collapsed.height ≤ n := by
  refine collapsed_cases (motive := fun u => u.height ≤ n) ?_ ?_ fun _ => ?_
  · exact height_le_iff.mpr (by simp [Forest.items])
  · exact fun u hu => Nat.le_of_lt (h u hu)
  · exact height_le_iff.mpr fun u hu => h u (mem_proper.mp (mem_of_mem_items_withItems hu)).1

/-- Cleaning makes no tree higher. -/
theorem CleansTo.height_le (h : t.CleansTo u) : u.height ≤ t.height := by
  have all {ts us : List Tree} {n : Nat} (hn : ∀ x ∈ ts, x.height < n)
      (ih : ∀ x ∈ ts, ∀ {y : Tree}, x.CleansTo y → y.height ≤ x.height)
      (hf : List.Forall₂ CleansTo ts us) : ∀ y ∈ us, y.height < n := by
    intro y hy
    obtain ⟨x, hx, hxy⟩ := forall₂_exists_left hf hy
    exact Nat.lt_of_le_of_lt (ih x hx hxy) (hn x hx)
  induction t using Forest.induction generalizing u with
  | constant m v p s => exact Nat.le_of_eq (congrArg height (cleansTo_constant_iff.mp h))
  | application m p ts s ih =>
    cases hl : p.label with
    | some l =>
      obtain ⟨us, hf, rfl⟩ := (cleansTo_labeled_iff hl).mp h
      exact height_le_iff.mpr (all (fun x hx => height_lt_of_mem_items hx) ih hf)
    | none =>
      obtain ⟨x, rfl, hx⟩ := (cleansTo_unlabeled_iff hl).mp h
      have hlt : x.height < (application m p [x] s).height :=
        height_lt_of_mem_items List.mem_cons_self
      have hle := ih x List.mem_cons_self hx
      omega
  | ambiguity m ts s ih =>
    obtain ⟨-, rfl⟩ := cleansTo_ambiguity_iff.mp h
    refine height_collapsed_le fun y hy => ?_
    obtain ⟨x, hx, hxy⟩ := mem_cleanings.mp (mem_of_mem_eraseDups hy)
    have hlt : x.height < (ambiguity m ts s).height := height_lt_of_mem_items hx
    have hle := ih x hx hxy
    omega
  | grouping m ts s ih =>
    obtain ⟨us, hf, rfl⟩ := cleansTo_grouping_iff.mp h
    exact height_collapsed_le (all (fun x hx => height_lt_of_mem_items hx) ih hf)

theorem knownTo_collapsed {names : SymbolTable} (h : t.KnownTo names) :
    t.collapsed.KnownTo names := by
  refine collapsed_cases ?_ (fun u hu => h.of_mem_items hu) fun _ => ?_
  · exact everywhere_iff.mpr ⟨List.forall_mem_singleton.mpr h.context, by simp [Forest.items]⟩
  · exact h.withItems fun u hu => h.of_mem_items (mem_proper.mp hu).1

/-- Cleaning brings in no symbols. -/
theorem CleansTo.knownTo {names : SymbolTable} (h : t.CleansTo u) (ht : t.KnownTo names) :
    u.KnownTo names := by
  have all {ts us : List Tree} (hts : ∀ x ∈ ts, x.KnownTo names)
      (ih : ∀ x ∈ ts, ∀ {y : Tree}, x.CleansTo y → x.KnownTo names → y.KnownTo names)
      (hf : List.Forall₂ CleansTo ts us) : ∀ y ∈ us, y.KnownTo names := by
    intro y hy
    obtain ⟨x, hx, hxy⟩ := forall₂_exists_left hf hy
    exact ih x hx hxy (hts x hx)
  induction t using Forest.induction generalizing u with
  | constant m v p s =>
    obtain rfl := cleansTo_constant_iff.mp h
    exact ht
  | application m p ts s ih =>
    cases hl : p.label with
    | some l =>
      obtain ⟨us, hf, rfl⟩ := (cleansTo_labeled_iff hl).mp h
      exact everywhere_iff.mpr ⟨ht.self, all (fun x hx => ht.of_mem_items hx) ih hf⟩
    | none =>
      obtain ⟨x, rfl, hx⟩ := (cleansTo_unlabeled_iff hl).mp h
      exact ih x List.mem_cons_self hx (ht.of_mem_items List.mem_cons_self)
  | ambiguity m ts s ih =>
    obtain ⟨-, rfl⟩ := cleansTo_ambiguity_iff.mp h
    refine knownTo_collapsed (everywhere_iff.mpr ⟨ht.self, fun y hy => ?_⟩)
    obtain ⟨x, hx, hxy⟩ := mem_cleanings.mp (mem_of_mem_eraseDups hy)
    exact ih x hx hxy (ht.of_mem_items hx)
  | grouping m ts s ih =>
    obtain ⟨us, hf, rfl⟩ := cleansTo_grouping_iff.mp h
    refine knownTo_collapsed (everywhere_iff.mpr ⟨ht.self, ?_⟩)
    exact all (fun x hx => ht.of_mem_items hx) ih hf

end Clean
end Forest

namespace Ledger
variable {σ : Type} {l k : Ledger} {t : Term}

/-- Items of a node that are no empty markers. -/
def properItems (t : Term) : List Term := t.items.filter fun u => !u.isEmptyMarker

theorem proper_items_tree (t : Term) :
    Forest.proper t.tree.items = (properItems t).map Forest.tree := by
  simp [properItems, Forest.proper, List.filter_map, Function.comp_def]

/-- What a walked group or ambiguity collapses to. If one item is left, it is cleaned again, and `S`
relates it to what comes of that. -/
inductive Collapsed (S : Term → Term → Prop) (t : Term) : Term → Prop
  | marker : t.isEmptyMarker → Collapsed S t t
  | nothing (mark : Tag) : properItems t = [] → ¬t.isEmptyMarker →
      Collapsed S t (.grouping mark [] t.span)
  | lone {u v : Term} : properItems t = [u] → S u v → Collapsed S t v
  | several {v : Term} : 2 ≤ (properItems t).length → t.Rebuilt (properItems t) v →
      Collapsed S t v

/-- Rules by which a relation between nodes and what cleaning makes of them can be established. -/
structure CleaningRules (S : Term → Term → Prop) : Prop where
  constant : ∀ m v p s, S (.constant m v p s) (.constant m v p s)
  labeled : ∀ {m p ts s us u}, p.label.isSome → List.Forall₂ S ts us →
    Forest.Rebuilt (.application m p ts s) us u → S (.application m p ts s) u
  unlabeled : ∀ {m p x s u}, p.label = none → S x u → S (.application m p [x] s) u
  collapsed : ∀ {t us w v}, t.production? = none → List.Forall₂ S (surviving Forest.cleaned t) us →
    t.Rebuilt us w → Collapsed S w v → S t v

/-- Nothing is known but the trees. -/
theorem cleaningRules_true : CleaningRules fun _ _ => True := by
  constructor <;> intros <;> trivial

/-- Terms and their outcomes by cleaning. -/
abbrev Cleaned : Relation := Follows fun _ => Forest.cleaned

/-- Terms and their outcomes by cleaning, where `S` relates each node to the node of the outcome. -/
abbrev CleanedWith (S : Term → Term → Prop) : Relation := FollowsWith (fun _ => Forest.cleaned) S

theorem settledBy_cleaned {base : SymbolTable} : SettledBy base fun _ => Forest.cleaned :=
  fun _ _ _ _ _ _ => rfl

section Rules
variable {S : Term → Term → Prop} {base : Ledger}

/-- Collapse a node whose items are clean already, so that to clean the sole survivor once more
changes nothing. -/
theorem ensures_collapse {self : Term → Pass σ Outcome} (ht : t ∈ l)
    (hp : t.production? = none) (hi : ∀ u ∈ t.items, u.tree.CleansTo u.tree)
    (hself : ∀ u ∈ t.items,
      Ensures (Fits base (CleanedWith S)) l (self u) fun k o => CleanedWith S k u o) :
    Ensures (Fits base (CleanedWith S)) l (Cleaning.collapse self t)
      fun k o => k.AnswersWith (.ok t.tree.collapsed) (Collapsed S t) o := by
  have hstable : Stable base (CleanedWith S) := stable_followsWith settledBy_cleaned
  have hcontext : t.span.context ∈ l.symbols := (knownTo_of_mem ht).context
  have hproper := proper_items_tree t
  unfold Cleaning.collapse
  split
  · rename_i hs
    have hnil : properItems t = [] := hs
    rw [hnil, List.map_nil] at hproper
    rw [Forest.collapsed_of_nil hproper, Forest.span_tree]
    split
    · rename_i hm
      refine Ensures.pure (answersWith_ok ⟨ht, ?_⟩ (.marker hm))
      obtain ⟨m, s, rfl⟩ := Forest.isEmptyMarker_iff.mp hm
      exact Forest.tree_grouping m [] s
    · rename_i hm
      have hbuild := ensures_build (σ := σ) hstable
        (yields_made_grouping (fun _ h => absurd h List.not_mem_nil) hcontext)
      refine hbuild.bind fun k u _ hu => Ensures.pure ?_
      obtain ⟨hk, m, rfl⟩ := hu
      exact answersWith_ok ⟨hk, Forest.tree_grouping m [] t.span⟩ (.nothing m hnil hm)
  · rename_i u hs
    have hsole : properItems t = [u] := hs
    have hu : u ∈ t.items := List.mem_of_mem_filter (hs ▸ List.mem_cons_self)
    rw [hsole, List.map_singleton] at hproper
    rw [Forest.collapsed_of_singleton hproper, ← Forest.cleaned_eq_ok_iff.mpr (hi u hu)]
    exact (hself u hu).imp fun k o _ ho => ho.imp fun v _ hv => .lone hsole hv
  · rename_i hnil hsingleton
    have htwo : 2 ≤ (properItems t).length := by
      unfold properItems
      match hs : t.items.filter fun u => !u.isEmptyMarker with
      | [] => exact absurd hs hnil
      | [u] => exact absurd hs (hsingleton u)
      | _ :: _ :: _ => rw [hs]; simp
    have hlen : 2 ≤ (Forest.proper t.tree.items).length := by rwa [hproper, List.length_map]
    have hmem : ∀ u ∈ properItems t, u ∈ l :=
      fun u hu => mem_of_mem_items ht (List.mem_of_mem_filter hu)
    have hanswers {k : Ledger} {u : Term} (hu : u ∈ k) (h : t.Rebuilt (properItems t) u) :
        k.AnswersWith (.ok (t.tree.withItems ((properItems t).map Forest.tree)))
          (Collapsed S t) (.ok u) :=
      answersWith_ok ⟨hu, tree_of_rebuilt ht hmem h⟩ (.several htwo h)
    rw [Forest.collapsed_of_two_le hlen, hproper]
    split
    · rename_i heq
      have hall : properItems t = t.items :=
        List.length_filter_eq_length_iff.mp heq |> List.filter_eq_self.mpr
      exact Ensures.pure (hanswers ht (.inl ⟨hall, rfl⟩))
    · rename_i hne
      have hbuild := ensures_build (σ := σ) hstable (yields_renewed ht hmem (by
        intro m p us s he
        rw [he] at hp
        cases hp))
      refine hbuild.bind fun k u _ hu => Ensures.pure (hanswers hu.1 (.inr ⟨?_, hu.2⟩))
      exact fun hall => hne (congrArg List.length hall)

/-- The items of a walked group or ambiguity are what cleaning makes of items. -/
theorem exists_cleansTo_of_walked {v : Term} (hp : t.production? = none)
    (hv : (t.tree.joined (t.tree.items.map Forest.cleaned)).result = .ok v.tree) :
    v.production? = none ∧ ∀ u ∈ v.items, ∃ x ∈ t.tree.items, x.CleansTo u.tree := by
  obtain ⟨hpv, hitems⟩ :=
    Forest.exists_cleansTo_of_joined (by rwa [Forest.production?_tree]) hv
  rw [Forest.production?_tree] at hpv
  rw [Forest.items_tree v] at hitems
  exact ⟨hpv, fun u hu => hitems u.tree (List.mem_map_of_mem hu)⟩

theorem ensures_step_of_production?_eq_none (hS : CleaningRules S)
    {self : Term → Pass σ Outcome} (hb : base ≤ l) (ht : t ∈ l) (hp : t.production? = none)
    (hself : ∀ k u, l ≤ k → u ∈ k → u.height < t.height →
      Ensures (Fits base (CleanedWith S)) k (self u) fun m o => CleanedWith S m u o) :
    Ensures (Fits base (CleanedWith S)) l
      (do (← Transformer.walk self t).andThen (Cleaning.collapse self))
      fun k o => k.AnswersWith t.tree.cleaned (S t) o := by
  have hpt : t.tree.production? = none := by rwa [Forest.production?_tree]
  have hw : t.tree.WellFormed := Forest.wellFormed_tree.mpr (wellFormed_of_mem ht)
  rw [Forest.cleaned_of_production?_eq_none hpt]
  refine (ensures_walk settledBy_cleaned hb ht hself).bind fun k o hlk ho => ?_
  have hcollapse (v : Term) (hv : v ∈ k)
      (hjoined : (t.tree.joined (t.tree.items.map Forest.cleaned)).result = .ok v.tree) :
      Ensures (Fits base (CleanedWith S)) k (Cleaning.collapse self v)
        fun n p => n.AnswersWith (.ok v.tree.collapsed) (Collapsed S v) p := by
    obtain ⟨hpv, horigin⟩ := exists_cleansTo_of_walked hp hjoined
    refine ensures_collapse hv hpv (fun u hu => ?_) fun u hu => ?_
    · obtain ⟨x, hx, hxu⟩ := horigin u hu
      exact (hxu.clean (hw.items hx)).cleansTo_self
    · obtain ⟨x, hx, hxu⟩ := horigin u hu
      refine hself k u hlk (mem_of_mem_items hv hu) ?_
      have hle := hxu.height_le
      have hlt := Forest.height_lt_of_mem_items hx
      rw [Forest.height_tree] at hle hlt
      omega
  have hthen := ensures_andThen (f := fun _ u => .ok u.collapsed) ho
    fun v hv hjoined _ => hcollapse v hv hjoined
  refine hthen.imp fun n p _ hp' => hp'.imp fun v _ hv => ?_
  obtain ⟨w, ⟨us, hus, hrebuilt⟩, hv⟩ := hv
  exact hS.collapsed hp hus hrebuilt hv

theorem stepEstablishes_cleaner (hS : CleaningRules S) :
    StepEstablishes base (CleanedWith S) (Transformer.cleaner : Transformer σ) := by
  intro self l t hb ht hself
  change Ensures _ l (Cleaning.step self t)
    fun k o => k.AnswersWith (Forest.cleaned t.tree) (S t) o
  cases t with
  | constant m v p s =>
    exact Ensures.pure (answersWith_ok (stores_tree ht) (hS.constant m v p s))
  | application m p ts s =>
    have hwalk := ensures_walk settledBy_cleaned hb ht hself
    rw [Forest.tree_application] at hwalk ⊢
    cases hl : p.label with
    | some label =>
      rw [Cleaning.step_labeled hl, Forest.cleaned_labeled hl]
      refine hwalk.imp fun k o _ ho => ho.imp fun u _ hu => ?_
      obtain ⟨us, hus, hrebuilt⟩ := hu
      exact hS.labeled (Option.isSome_iff_exists.mpr ⟨label, hl⟩) hus hrebuilt
    | none =>
      by_cases hlen : ts.length = 1
      · obtain ⟨sole, rfl⟩ := List.length_eq_one_iff.mp hlen
        have hsole : sole ∈ (Forest.application m p [sole] s).items := List.mem_cons_self
        rw [Cleaning.step_unlabeled_singleton hl, List.map_singleton,
          Forest.cleaned_unlabeled_singleton hl]
        refine (hself l sole (le_refl l) (mem_of_mem_items ht hsole)
          (Forest.height_lt_of_mem_items hsole)).imp fun k o _ ho => ?_
        exact ho.imp fun u _ hu => hS.unlabeled hl hu
      · have hlen' : (ts.map Forest.tree).length ≠ 1 := by rwa [List.length_map]
        rw [Cleaning.step_unlabeled_of_length_ne hl hlen,
          Forest.cleaned_unlabeled_of_length_ne hl hlen', List.length_map]
        exact Ensures.pure answersWith_error
  | ambiguity | grouping => exact ensures_step_of_production?_eq_none hS hb ht rfl hself

theorem stepEstablishes_cleaned :
    StepEstablishes base Cleaned (Transformer.cleaner : Transformer σ) := by
  rw [Cleaned, ← followsWith_true]
  exact stepEstablishes_cleaner cleaningRules_true

/-- Cleaning a term is cleaning its tree, whatever is remembered at the start, and a relation that
the rules establish holds between the node and what becomes of it. -/
theorem ensures_clean (hS : CleaningRules S) (ht : t ∈ l) :
    Ensures (Within l) l (clean t) fun k o => k.AnswersWith t.tree.cleaned (S t) o :=
  ensures_transformAfresh (stable_followsWith settledBy_cleaned) (stepEstablishes_cleaner hS) ht

end Rules

/-- What cleaning a term returns in the session of a ledger. The cleaner may have been used
before, so its memo holds anything. -/
def cleaning (l : Ledger) (memo : Option Memo) (t : Term) : Except InternalError Outcome :=
  (clean t).run' ⟨l.session, memo, ()⟩

/-- Cleaning a term returns what cleaning makes of its tree. -/
theorem exists_cleaning_eq (ht : t ∈ l) (memo : Option Memo) :
    ∃ o : Outcome, l.cleaning memo t = .ok o ∧ o.map Forest.tree = t.tree.cleaned := by
  obtain ⟨o, s, k, hrun, -, -, ho⟩ :=
    ensures_clean cleaningRules_true ht ⟨l.session, memo, ()⟩ ⟨le_refl l, rfl⟩
  refine ⟨o, ?_, ho.tree_eq⟩
  rw [cleaning, StateT.run'_eq, hrun]
  rfl

theorem map_tree_of_cleaning (ht : t ∈ l) {memo : Option Memo} {o : Outcome}
    (h : l.cleaning memo t = .ok o) : o.map Forest.tree = t.tree.cleaned := by
  obtain ⟨p, hp, hmap⟩ := exists_cleaning_eq ht memo
  rw [h] at hp
  exact Except.ok.inj hp ▸ hmap

theorem isOk_of_cleaning (ht : t ∈ l) {memo : Option Memo} {o : Outcome}
    (h : l.cleaning memo t = .ok o) : o.isOk = t.tree.cleaned.isOk := by
  rw [← map_tree_of_cleaning ht h, Outcome.isOk_map]

theorem cleansTo_of_cleaning (ht : t ∈ l) {memo : Option Memo} {o : Outcome} {u : Term}
    (h : l.cleaning memo t = .ok o) (hu : o.result = .ok u) : t.tree.CleansTo u.tree := by
  rw [Forest.CleansTo, ← map_tree_of_cleaning ht h, Outcome.result_map, hu]
  rfl

theorem exists_cleaning_of_cleansTo (ht : t ∈ l) (memo : Option Memo) {v : Tree}
    (h : t.tree.CleansTo v) :
    ∃ o u, l.cleaning memo t = .ok o ∧ o.result = .ok u ∧ u.tree = v := by
  obtain ⟨o, ho, hmap⟩ := exists_cleaning_eq ht memo
  rw [Forest.CleansTo, ← hmap, Outcome.result_map_eq_ok_iff] at h
  obtain ⟨u, hu, huv⟩ := h
  exact ⟨o, u, ho, hu, huv⟩

end Ledger
end ParseForest
