import ParseForest.Proofs.Cleaned
import ParseForest.Proofs.Readings

/-!
# Cleaning a forest is cleaning its readings

What cleaning makes of a tree stands for what cleaning makes of the readings of
the tree. A group collapses in the same way before and after its items are read,
because a reading of a clean tree is an empty marker only if the tree is one. An
ambiguity may lose a reading when an alternative cleans to an empty marker and
another does not, and in no other way.
-/
namespace ParseForest
namespace Forest

theorem isEmptyMarker_eq_of_agrees {a b : Tree} (h : a.agrees b) :
    a.isEmptyMarker = b.isEmptyMarker := by
  cases a with
  | constant =>
    obtain ⟨_, _, rfl⟩ := agrees_constant_left.mp h
    rfl
  | application =>
    obtain ⟨_, _, _, rfl, -⟩ := agrees_application_left.mp h
    rfl
  | ambiguity =>
    obtain ⟨_, _, _, rfl, -⟩ := agrees_ambiguity_left.mp h
    rfl
  | grouping =>
    obtain ⟨_, _, _, rfl, hf⟩ := agrees_grouping_left.mp h
    cases hf <;> rfl

/-- A clean tree reads as an empty marker only if it is one. -/
theorem ReadsAs.isEmptyMarker_eq {t r : Tree} (h : t.ReadsAs r) (ht : t.Clean) :
    r.isEmptyMarker = t.isEmptyMarker := by
  induction t using Forest.induction generalizing r with
  | constant =>
    obtain rfl := readsAs_constant_iff.mp h
    rfl
  | application =>
    obtain ⟨_, -, rfl⟩ := readsAs_application_iff.mp h
    rfl
  | ambiguity m ts s ih =>
    obtain ⟨hlen, hne⟩ : 2 ≤ ts.length ∧ ∀ u ∈ ts, ¬u.isEmptyMarker := ht.nodes.self
    rcases readsAs_ambiguity_iff.mp h with ⟨rfl, -⟩ | ⟨x, hx, hr⟩
    · simp at hlen
    · rw [ih x hx hr (ht.items hx)]
      exact Bool.eq_false_iff.mpr (hne x hx)
  | grouping =>
    obtain ⟨_, hf, rfl⟩ := readsAs_grouping_iff.mp h
    cases hf <;> rfl

/-- Lists that are related member by member stay so without empty markers, if only empty markers
are related to empty markers. -/
theorem forall₂_proper {R : Tree → Tree → Prop} {ts us : List Tree} (h : List.Forall₂ R ts us)
    (he : ∀ t ∈ ts, ∀ u, R t u → u.isEmptyMarker = t.isEmptyMarker) :
    List.Forall₂ R (proper ts) (proper us) := by
  induction h with
  | nil => exact .nil
  | @cons t u ts us hr hf ih =>
    have htail := ih fun t' ht' => he t' (List.mem_cons_of_mem _ ht')
    have heq := he t List.mem_cons_self u hr
    cases ht : t.isEmptyMarker with
    | true => simpa [proper, ht, heq] using htail
    | false => simpa [proper, ht, heq] using ⟨hr, htail⟩

/-- A term for a list of terms: a lone one stands for itself. -/
def gathered (ts : List Tree) (s : Span) : Tree :=
  match ts with
  | [t] => t
  | ts => grouping () ts s

theorem collapsed_grouping (m : Unit) (ts : List Tree) (s : Span) :
    (grouping m ts s).collapsed = gathered (proper ts) s := by
  unfold collapsed gathered
  simp only [items]
  match proper ts with
  | [] => rfl
  | [_] => rfl
  | _ :: _ :: _ => rfl

theorem gathered_singleton (t : Tree) (s : Span) : gathered [t] s = t := rfl

theorem gathered_of_length_ne {ts : List Tree} (h : ts.length ≠ 1) (s : Span) :
    gathered ts s = grouping () ts s := by
  match ts with
  | [] => rfl
  | [_] => exact absurd rfl h
  | _ :: _ :: _ => rfl

theorem readsAs_gathered_iff {ts : List Tree} {s : Span} {q : Tree} :
    (gathered ts s).ReadsAs q ↔ ∃ us, List.Forall₂ ReadsAs ts us ∧ q = gathered us s := by
  by_cases hlen : ts.length = 1
  · obtain ⟨t, rfl⟩ := List.length_eq_one_iff.mp hlen
    rw [gathered_singleton]
    constructor
    · intro hq
      exact ⟨[q], .cons hq .nil, rfl⟩
    · intro ⟨us, hus, hq⟩
      cases hus with
      | cons hr hnil =>
        cases hnil
        exact hq ▸ hr
  · rw [gathered_of_length_ne hlen, readsAs_grouping_iff]
    have hgathered {us : List Tree} (hus : List.Forall₂ ReadsAs ts us) :
        gathered us s = grouping () us s :=
      gathered_of_length_ne (hus.length_eq ▸ hlen) s
    constructor
    · intro ⟨us, hus, hq⟩
      exact ⟨us, hus, hq.trans (hgathered hus).symm⟩
    · intro ⟨us, hus, hq⟩
      exact ⟨us, hus, hq.trans (hgathered hus)⟩

theorem agrees_gathered {ts us : List Tree} {s r : Span}
    (h : List.Forall₂ (fun t u => t.agrees u) ts us) : (gathered ts s).agrees (gathered us r) := by
  by_cases hlen : ts.length = 1
  · obtain ⟨t, rfl⟩ := List.length_eq_one_iff.mp hlen
    cases h with
    | cons ht hnil =>
      cases hnil
      exact ht
  · rw [gathered_of_length_ne hlen, gathered_of_length_ne (h.length_eq ▸ hlen)]
    exact agrees_grouping h

theorem agrees_collapsed_grouping {m n : Unit} {ts us : List Tree} {s r : Span}
    (h : List.Forall₂ (fun t u => t.agrees u) ts us) :
    (grouping m ts s).collapsed.agrees (grouping n us r).collapsed := by
  rw [collapsed_grouping, collapsed_grouping]
  exact agrees_gathered (forall₂_proper h fun t _ u htu => (isEmptyMarker_eq_of_agrees htu).symm)

/-- Readings of what is left of a list can be extended to readings of the list. -/
theorem exists_forall₂_of_proper {ts qs : List Tree} (ht : ∀ t ∈ ts, t.Clean)
    (h : List.Forall₂ ReadsAs (proper ts) qs) :
    ∃ us, List.Forall₂ ReadsAs ts us ∧ proper us = qs := by
  induction ts generalizing qs with
  | nil =>
    cases h
    exact ⟨[], .nil, rfl⟩
  | cons t ts ih =>
    obtain ⟨hclean, hrest⟩ := List.forall_mem_cons.mp ht
    cases hm : t.isEmptyMarker with
    | true =>
      have hproper : proper (t :: ts) = proper ts := by simp [proper, hm]
      obtain ⟨r, hr⟩ := exists_readsAs t
      obtain ⟨us, hus, hqs⟩ := ih hrest (hproper ▸ h)
      have hrm : r.isEmptyMarker := hr.isEmptyMarker_eq hclean ▸ hm
      exact ⟨r :: us, .cons hr hus, by simpa [proper, hrm] using hqs⟩
    | false =>
      have hproper : proper (t :: ts) = t :: proper ts := by simp [proper, hm]
      rw [hproper] at h
      cases h with
      | @cons _ q _ qs hq hrest' =>
        obtain ⟨us, hus, hqs⟩ := ih hrest hrest'
        have hqm : q.isEmptyMarker = false := hq.isEmptyMarker_eq hclean ▸ hm
        exact ⟨q :: us, .cons hq hus, by simpa [proper, hqm] using hqs⟩

/-- To read a collapsed group is to collapse a group of readings. -/
theorem readsAs_collapsed_grouping_iff {m : Unit} {ts : List Tree} {s : Span} {q : Tree}
    (ht : ∀ t ∈ ts, t.Clean) : (grouping m ts s).collapsed.ReadsAs q ↔
      ∃ us, List.Forall₂ ReadsAs ts us ∧ q = (grouping m us s).collapsed := by
  rw [collapsed_grouping, readsAs_gathered_iff]
  constructor
  · intro ⟨qs, hqs, hq⟩
    obtain ⟨us, hus, rfl⟩ := exists_forall₂_of_proper ht hqs
    exact ⟨us, hus, hq.trans (collapsed_grouping m us s).symm⟩
  · intro ⟨us, hus, hq⟩
    refine ⟨proper us, forall₂_proper hus fun t hm u hu => hu.isEmptyMarker_eq (ht t hm), ?_⟩
    rw [hq, collapsed_grouping]

/-- A collapsed ambiguity reads as the alternatives that are left do. -/
theorem readsAs_collapsed_ambiguity_iff {m : Unit} {ts : List Tree} {s : Span} {q : Tree}
    (ht : NodeWellFormed (ambiguity m ts s)) : (ambiguity m ts s).collapsed.ReadsAs q ↔
      (proper ts = [] ∧ q = grouping () [] s) ∨ ∃ t ∈ proper ts, t.ReadsAs q := by
  have hitems : proper (ambiguity m ts s).items = proper ts := rfl
  match hs : proper ts with
  | [] =>
    rw [collapsed_of_nil (hitems.trans hs), readsAs_grouping_iff]
    constructor
    · intro ⟨us, hus, hq⟩
      cases hus
      exact .inl ⟨rfl, hq⟩
    · intro h
      rcases h with ⟨-, hq⟩ | ⟨t, hm, -⟩
      · exact ⟨[], .nil, hq⟩
      · cases hm
  | [t] =>
    rw [collapsed_of_singleton (hitems.trans hs)]
    simp
  | _ :: _ :: _ =>
    have hpair : (proper ts).Pairwise fun x y => ¬y.agrees x := List.Pairwise.filter _ ht
    rw [collapsed_of_two_le (by simp [hitems, hs]), withItems_ambiguity, hitems,
      eraseDups_eq_self hpair, readsAs_ambiguity_iff, hs]

/-- If a reading is not rejected, then neither is the tree. -/
theorem ReadsAs.exists_cleansTo {t r v : Tree} (hr : t.ReadsAs r) (hv : r.CleansTo v) :
    ∃ u, t.CleansTo u := by
  have all {ts rs vs : List Tree}
      (ih : ∀ x ∈ ts, ∀ {r v : Tree}, x.ReadsAs r → r.CleansTo v → ∃ u, x.CleansTo u)
      (hrs : List.Forall₂ ReadsAs ts rs) (hvs : List.Forall₂ CleansTo rs vs) :
      ∃ us, List.Forall₂ CleansTo ts us := by
    refine forall₂_exists fun x hx => ?_
    obtain ⟨r, hm, hxr⟩ := forall₂_exists_right hrs hx
    obtain ⟨v, -, hrv⟩ := forall₂_exists_right hvs hm
    exact ih x hx hxr hrv
  induction t using Forest.induction generalizing r v with
  | constant => exact ⟨_, cleansTo_constant_iff.mpr rfl⟩
  | application m p ts s ih =>
    obtain ⟨rs, hrs, rfl⟩ := readsAs_application_iff.mp hr
    cases hl : p.label with
    | some l =>
      obtain ⟨vs, hvs, -⟩ := (cleansTo_labeled_iff hl).mp hv
      obtain ⟨us, hus⟩ := all ih hrs hvs
      exact ⟨_, (cleansTo_labeled_iff hl).mpr ⟨us, hus, rfl⟩⟩
    | none =>
      obtain ⟨r, rfl, hrv⟩ := (cleansTo_unlabeled_iff hl).mp hv
      cases hrs with
      | @cons x _ ts _ hxr hnil =>
        cases hnil
        obtain ⟨u, hu⟩ := ih x List.mem_cons_self hxr hrv
        exact ⟨u, (cleansTo_unlabeled_iff hl).mpr ⟨x, rfl, hu⟩⟩
  | ambiguity m ts s ih =>
    rcases readsAs_ambiguity_iff.mp hr with ⟨rfl, -⟩ | ⟨x, hx, hxr⟩
    · exact ⟨_, cleansTo_ambiguity_iff.mpr ⟨.inl rfl, rfl⟩⟩
    · have hok : x.cleaned.isOk := isOk_cleaned_iff.mpr (ih x hx hxr hv)
      exact ⟨_, cleansTo_ambiguity_iff.mpr ⟨.inr ⟨x, hx, hok⟩, rfl⟩⟩
  | grouping m ts s ih =>
    obtain ⟨rs, hrs, rfl⟩ := readsAs_grouping_iff.mp hr
    obtain ⟨vs, hvs, -⟩ := cleansTo_grouping_iff.mp hv
    obtain ⟨us, hus⟩ := all ih hrs hvs
    exact ⟨_, cleansTo_grouping_iff.mpr ⟨us, hus, rfl⟩⟩

/-- The outcome of cleaning some reading of the first tree agrees with the second. -/
def CleanedReading (t q : Tree) : Prop := ∃ r, t.ReadsAs r ∧ ∃ v, r.CleansTo v ∧ q.agrees v

theorem exists_readings_of_forall₂ {ts qs : List Tree} (h : List.Forall₂ CleanedReading ts qs) :
    ∃ rs vs, List.Forall₂ ReadsAs ts rs ∧ List.Forall₂ CleansTo rs vs ∧
      List.Forall₂ (fun q v => q.agrees v) qs vs := by
  obtain ⟨rs, hrs, hqs⟩ := forall₂_between h
  obtain ⟨vs, hvs, hagree⟩ := forall₂_between hqs
  exact ⟨rs, vs, hrs, hvs, hagree.flip⟩

/-- What cleaning makes of a tree has no readings but those that cleaning makes of readings. -/
theorem CleansTo.readsAs_sound {t u q : Tree} (ht : t.WellFormed) (hu : t.CleansTo u)
    (hq : u.ReadsAs q) : t.CleanedReading q := by
  have all {ts us qs : List Tree} (hts : ∀ x ∈ ts, x.WellFormed)
      (ih : ∀ x ∈ ts, ∀ {u q : Tree}, x.WellFormed → x.CleansTo u → u.ReadsAs q →
        x.CleanedReading q) (hus : List.Forall₂ CleansTo ts us)
      (hqs : List.Forall₂ ReadsAs us qs) : List.Forall₂ CleanedReading ts qs :=
    forall₂_trans hus hqs fun x hx u q hu hq => ih x hx (hts x hx) hu hq
  induction t using Forest.induction generalizing u q with
  | constant m v p s =>
    obtain rfl := cleansTo_constant_iff.mp hu
    obtain rfl := readsAs_constant_iff.mp hq
    exact ⟨_, readsAs_constant_iff.mpr rfl, _, cleansTo_constant_iff.mpr rfl, agrees_refl _⟩
  | application m p ts s ih =>
    cases hl : p.label with
    | some l =>
      obtain ⟨us, hus, rfl⟩ := (cleansTo_labeled_iff hl).mp hu
      obtain ⟨qs, hqs, rfl⟩ := readsAs_application_iff.mp hq
      obtain ⟨rs, vs, hrs, hvs, hagree⟩ :=
        exists_readings_of_forall₂ (all (fun x hx => ht.items hx) ih hus hqs)
      exact ⟨_, readsAs_application_iff.mpr ⟨rs, hrs, rfl⟩,
        _, (cleansTo_labeled_iff hl).mpr ⟨vs, hvs, rfl⟩, agrees_application hagree⟩
    | none =>
      obtain ⟨x, rfl, hx⟩ := (cleansTo_unlabeled_iff hl).mp hu
      obtain ⟨r, hr, v, hv, hagree⟩ :=
        ih x List.mem_cons_self (ht.items List.mem_cons_self) hx hq
      exact ⟨_, readsAs_application_iff.mpr ⟨[r], .cons hr .nil, rfl⟩,
        v, (cleansTo_unlabeled_iff hl).mpr ⟨r, rfl, hv⟩, hagree⟩
  | ambiguity m ts s ih =>
    obtain ⟨hok, rfl⟩ := cleansTo_ambiguity_iff.mp hu
    -- A reading of any kept alternative is one of the tree, also if it agrees with `q` only.
    have lift {c q' : Tree} (hc : c ∈ cleanings ts) (hr : c.ReadsAs q') (ha : q.agrees q') :
        CleanedReading (ambiguity m ts s) q := by
      obtain ⟨x, hx, hxc⟩ := mem_cleanings.mp hc
      obtain ⟨r, hr, v, hv, hagree⟩ := ih x hx (ht.items hx) hxc hr
      exact ⟨r, readsAs_ambiguity_iff.mpr (.inr ⟨x, hx, hr⟩), v, hv, agrees_trans ha hagree⟩
    rcases (readsAs_collapsed_ambiguity_iff (pairwise_eraseDups _)).mp hq with
      ⟨hnil, rfl⟩ | ⟨c, hc, hr⟩
    · rcases hok with rfl | ⟨x, hx, hxok⟩
      · refine ⟨_, readsAs_ambiguity_iff.mpr (.inl ⟨rfl, rfl⟩), _, ?_, agrees_refl _⟩
        exact cleansTo_grouping_iff.mpr ⟨[], .nil, rfl⟩
      · obtain ⟨c, hxc⟩ := isOk_cleaned_iff.mp hxok
        have hc : c ∈ cleanings ts := mem_cleanings.mpr ⟨x, hx, hxc⟩
        obtain ⟨d, hd, hcd⟩ := exists_agrees_of_mem hc
        have hdm : d.isEmptyMarker := by
          by_contra hne
          have hmem := mem_proper.mpr ⟨hd, hne⟩
          rw [hnil] at hmem
          cases hmem
        obtain ⟨n, s', rfl⟩ := isEmptyMarker_iff.mp hdm
        exact lift (mem_of_mem_eraseDups hd) (readsAs_grouping_iff.mpr ⟨[], .nil, rfl⟩)
          (agrees_grouping .nil)
    · exact lift (mem_of_mem_eraseDups (mem_proper.mp hc).1) hr (agrees_refl q)
  | grouping m ts s ih =>
    obtain ⟨us, hus, rfl⟩ := cleansTo_grouping_iff.mp hu
    have hclean : ∀ u ∈ us, u.Clean := by
      intro u hm
      obtain ⟨x, hx, hxu⟩ := forall₂_exists_left hus hm
      exact hxu.clean (ht.items hx)
    obtain ⟨qs, hqs, rfl⟩ := (readsAs_collapsed_grouping_iff hclean).mp hq
    obtain ⟨rs, vs, hrs, hvs, hagree⟩ :=
      exists_readings_of_forall₂ (all (fun x hx => ht.items hx) ih hus hqs)
    exact ⟨_, readsAs_grouping_iff.mpr ⟨rs, hrs, rfl⟩,
      _, cleansTo_grouping_iff.mpr ⟨vs, hvs, rfl⟩, agrees_collapsed_grouping hagree⟩

/-- No alternative of the node cleans to an empty marker. -/
def AlternativesLast (t : Tree) : Prop :=
  t.isAmbiguity → ∀ x ∈ t.items, ∀ v, x.CleansTo v → ¬v.isEmptyMarker

/-- If no alternative vanishes, then no reading is lost that cleaning does not reject. -/
theorem CleansTo.readsAs_complete {t u r v : Tree} (ht : t.WellFormed)
    (hlast : Everywhere AlternativesLast t) (hu : t.CleansTo u) (hr : t.ReadsAs r)
    (hv : r.CleansTo v) : ∃ q, u.ReadsAs q ∧ v.agrees q := by
  have all {ts us rs vs : List Tree} (hts : ∀ x ∈ ts, x.WellFormed ∧ Everywhere AlternativesLast x)
      (ih : ∀ x ∈ ts, ∀ {u r v : Tree}, x.WellFormed → Everywhere AlternativesLast x →
        x.CleansTo u → x.ReadsAs r → r.CleansTo v → ∃ q, u.ReadsAs q ∧ v.agrees q)
      (hus : List.Forall₂ CleansTo ts us) (hrs : List.Forall₂ ReadsAs ts rs)
      (hvs : List.Forall₂ CleansTo rs vs) :
      ∃ qs, List.Forall₂ ReadsAs us qs ∧ List.Forall₂ (fun v q => v.agrees q) vs qs := by
    have htv := forall₂_trans hrs hvs fun x hx r v hr hv =>
      (show ∃ r, x.ReadsAs r ∧ r.CleansTo v from ⟨r, hr, hv⟩)
    refine forall₂_square hus htv fun x hx u v hu hrv => ?_
    obtain ⟨r, hr, hv⟩ := hrv
    exact ih x hx (hts x hx).1 (hts x hx).2 hu hr hv
  induction t using Forest.induction generalizing u r v with
  | constant m w p s =>
    obtain rfl := cleansTo_constant_iff.mp hu
    obtain rfl := readsAs_constant_iff.mp hr
    obtain rfl := cleansTo_constant_iff.mp hv
    exact ⟨_, readsAs_constant_iff.mpr rfl, agrees_refl _⟩
  | application m p ts s ih =>
    have hts : ∀ x ∈ ts, x.WellFormed ∧ Everywhere AlternativesLast x :=
      fun x hx => ⟨ht.items hx, hlast.of_mem_items hx⟩
    obtain ⟨rs, hrs, rfl⟩ := readsAs_application_iff.mp hr
    cases hl : p.label with
    | some l =>
      obtain ⟨us, hus, rfl⟩ := (cleansTo_labeled_iff hl).mp hu
      obtain ⟨vs, hvs, rfl⟩ := (cleansTo_labeled_iff hl).mp hv
      obtain ⟨qs, hqs, hagree⟩ := all hts ih hus hrs hvs
      exact ⟨_, readsAs_application_iff.mpr ⟨qs, hqs, rfl⟩, agrees_application hagree⟩
    | none =>
      obtain ⟨x, rfl, hxu⟩ := (cleansTo_unlabeled_iff hl).mp hu
      obtain ⟨r, rfl, hrv⟩ := (cleansTo_unlabeled_iff hl).mp hv
      obtain ⟨hxr, -⟩ := List.forall₂_cons.mp hrs
      obtain ⟨hw, hl⟩ := hts x List.mem_cons_self
      exact ih x List.mem_cons_self hw hl hxu hxr hrv
  | ambiguity m ts s ih =>
    obtain ⟨-, rfl⟩ := cleansTo_ambiguity_iff.mp hu
    have hread {q : Tree} := readsAs_collapsed_ambiguity_iff (m := ()) (s := s) (q := q)
      (pairwise_eraseDups (cleanings ts))
    rcases readsAs_ambiguity_iff.mp hr with ⟨rfl, rfl⟩ | ⟨x, hx, hxr⟩
    · obtain ⟨vs, hvs, rfl⟩ := cleansTo_grouping_iff.mp hv
      cases hvs
      exact ⟨_, hread.mpr (.inl ⟨rfl, rfl⟩), agrees_refl _⟩
    · obtain ⟨c, hxc⟩ := hxr.exists_cleansTo hv
      obtain ⟨q, hq, hvq⟩ := ih x hx (ht.items hx) (hlast.of_mem_items hx) hxc hxr hv
      -- The cleaned alternative itself may have been dropped for one that agrees with it.
      obtain ⟨d, hd, hcd⟩ := exists_agrees_of_mem (mem_cleanings.mpr ⟨x, hx, hxc⟩)
      obtain ⟨y, hy, hyd⟩ := mem_cleanings.mp (mem_of_mem_eraseDups hd)
      have hne : ¬d.isEmptyMarker := hlast.self rfl y hy d hyd
      obtain ⟨q', hq', hqq⟩ := hq.of_agrees hcd
      exact ⟨q', hread.mpr (.inr ⟨d, mem_proper.mpr ⟨hd, hne⟩, hq'⟩), agrees_trans hvq hqq⟩
  | grouping m ts s ih =>
    have hts : ∀ x ∈ ts, x.WellFormed ∧ Everywhere AlternativesLast x :=
      fun x hx => ⟨ht.items hx, hlast.of_mem_items hx⟩
    obtain ⟨rs, hrs, rfl⟩ := readsAs_grouping_iff.mp hr
    obtain ⟨us, hus, rfl⟩ := cleansTo_grouping_iff.mp hu
    obtain ⟨vs, hvs, rfl⟩ := cleansTo_grouping_iff.mp hv
    have hclean : ∀ u ∈ us, u.Clean := by
      intro u hm
      obtain ⟨x, hx, hxu⟩ := forall₂_exists_left hus hm
      exact hxu.clean (ht.items hx)
    obtain ⟨qs, hqs, hagree⟩ := all hts ih hus hrs hvs
    exact ⟨_, (readsAs_collapsed_grouping_iff hclean).mpr ⟨qs, hqs, rfl⟩,
      agrees_collapsed_grouping hagree⟩

/-- Cleaning rejects a tree just if it rejects all its readings. -/
theorem isOk_cleaned_iff_exists_readsAs {t : Tree} (ht : t.WellFormed) :
    t.cleaned.isOk ↔ ∃ r, t.ReadsAs r ∧ r.cleaned.isOk := by
  constructor
  · intro h
    obtain ⟨u, hu⟩ := isOk_cleaned_iff.mp h
    obtain ⟨q, hq⟩ := exists_readsAs u
    obtain ⟨r, hr, v, hv, -⟩ := hu.readsAs_sound ht hq
    exact ⟨r, hr, isOk_cleaned_iff.mpr ⟨v, hv⟩⟩
  · intro ⟨r, hr, hok⟩
    obtain ⟨v, hv⟩ := isOk_cleaned_iff.mp hok
    exact isOk_cleaned_iff.mpr (hr.exists_cleansTo hv)

end Forest

namespace Ledger

variable {l k : Ledger} {t r : Term}

/-- Cleaning a term agrees with cleaning its readings: it fails just if it fails for every reading,
the result has only readings to which readings of the term are cleaned, and it has all of these
unless an alternative somewhere in the term is cleaned to an empty marker. -/
theorem cleaning_refines_readings (ht : t ∈ l) (memo memo' : Option Memo) :
    ∃ o : Outcome, l.cleaning memo t = .ok o ∧
      (¬o.isOk ↔ ∀ k r, l.Reading k t r →
        ∃ p : Outcome, k.cleaning memo' r = .ok p ∧ ¬p.isOk) ∧
      (∀ u, o.result = .ok u → ∀ q : Tree, u.tree.ReadsAs q → ∃ k r, l.Reading k t r ∧
        ∃ (p : Outcome) (v : Term), k.cleaning memo' r = .ok p ∧ p.result = .ok v ∧
          q.agrees v.tree) ∧
      ((∀ a x : Term, a.Occurs t → a.isAmbiguity → x ∈ a.items → ∀ (p : Outcome) (v : Term),
          l.cleaning memo' x = .ok p → p.result = .ok v → ¬v.isEmptyMarker) →
        ∀ u, o.result = .ok u → ∀ k r, l.Reading k t r → ∀ (p : Outcome) (v : Term),
          k.cleaning memo' r = .ok p → p.result = .ok v →
            ∃ q : Tree, u.tree.ReadsAs q ∧ v.tree.agrees q) := by
  have hw : t.tree.WellFormed := Forest.wellFormed_tree.mpr (wellFormed_of_mem ht)
  obtain ⟨o, ho, -⟩ := exists_cleaning_eq ht memo
  refine ⟨o, ho, ?_, ?_, ?_⟩
  · rw [isOk_of_cleaning ht ho, Forest.isOk_cleaned_iff_exists_readsAs hw]
    constructor
    · intro h k r hr
      obtain ⟨p, hp, -⟩ := exists_cleaning_eq hr.mem memo'
      refine ⟨p, hp, fun hok => h ⟨r.tree, hr.reads, ?_⟩⟩
      rwa [← isOk_of_cleaning hr.mem hp]
    · intro h ⟨q, hq, hok⟩
      obtain ⟨k, r, hr, rfl⟩ := exists_reading ht hq
      obtain ⟨p, hp, hfail⟩ := h k r hr
      rw [isOk_of_cleaning hr.mem hp] at hfail
      exact hfail hok
  · intro u hu q hq
    obtain ⟨r, hr, v, hv, hagree⟩ := (cleansTo_of_cleaning ht ho hu).readsAs_sound hw hq
    obtain ⟨k, r, hread, rfl⟩ := exists_reading ht hr
    obtain ⟨p, v, hp, hpv, rfl⟩ := exists_cleaning_of_cleansTo hread.mem memo' hv
    exact ⟨k, r, hread, p, v, hp, hpv, hagree⟩
  · intro hlast u hu k r hr p v hp hv
    refine (cleansTo_of_cleaning ht ho hu).readsAs_complete hw ?_ hr.reads
      (cleansTo_of_cleaning hr.mem hp hv)
    intro a ha hamb x hx y hxy
    obtain ⟨b, hb, rfl⟩ := Forest.occurs_tree.mp ha
    rw [Forest.isAmbiguity_tree] at hamb
    rw [Forest.items_tree] at hx
    obtain ⟨z, hz, rfl⟩ := List.mem_map.mp hx
    have hzl := mem_of_mem_items (mem_of_occurs ht hb) hz
    obtain ⟨p, v, hp, hpv, rfl⟩ := exists_cleaning_of_cleansTo hzl memo' hxy
    rw [Forest.isEmptyMarker_tree]
    exact hlast b z hb hamb hz p v hp hpv

/-- An ambiguity between an injection of nothing, which is rejected, and a constant. -/
def halfRejected : Tree :=
  .ambiguity () [.application () ⟨.any, [], none, ∅⟩ [] .unknown,
    .constant () .bracket ⟨.any, [], none, ∅⟩ .unknown] .unknown

theorem cleaning_refines_readings_halfRejected : ∃ (l : Ledger) (t : Term), t ∈ l ∧
    t.tree = halfRejected ∧ ∃ o : Outcome, l.cleaning none t = .ok o ∧ o.isOk ∧
      ∀ u, o.result = .ok u → ∀ q : Tree, u.tree.ReadsAs q → ∃ k r, l.Reading k t r ∧
        ∃ (p : Outcome) (v : Term), k.cleaning none r = .ok p ∧ p.result = .ok v ∧
          q.agrees v.tree := by
  obtain ⟨l, t, -, ht, htree⟩ :=
    exists_stores (l := initial) (r := halfRejected) (by decide) (by decide)
  obtain ⟨o, ho, -, hsound, -⟩ := cleaning_refines_readings ht none none
  refine ⟨l, t, ht, htree, o, ho, ?_, hsound⟩
  rw [isOk_of_cleaning ht ho, htree]
  decide

end Ledger
end ParseForest
