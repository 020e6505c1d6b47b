import ParseForest.Proofs.Genuine
import ParseForest.Proofs.Rejection

/-!
# Equal terms are treated alike

Terms are equal whatever their spans and in whatever order alternatives stand.
Nothing that the passes decide depends on these: equal terms are accepted or
rejected together, what they become is equal, and what is said of them differs in
spans only.
-/
namespace ParseForest
namespace Forest
variable {a b : Tree}

theorem exists_agrees_of_mem_items (h : a.agrees b) {x : Tree} (hx : x ∈ a.items) :
    ∃ y ∈ b.items, x.agrees y := by
  cases a with
  | constant => cases hx
  | application m p xs s =>
    obtain ⟨n, ys, r, rfl, hf⟩ := agrees_application_left.mp h
    exact forall₂_exists_right hf hx
  | ambiguity m xs s =>
    obtain ⟨n, ys, r, rfl, -, hex⟩ := agrees_ambiguity_left.mp h
    exact hex x hx
  | grouping m xs s =>
    obtain ⟨n, ys, r, rfl, hf⟩ := agrees_grouping_left.mp h
    exact forall₂_exists_right hf hx

theorem malformed_of_agrees (h : a.agrees b) (ha : a.Malformed) : b.Malformed := by
  cases a with
  | application m p xs s =>
    obtain ⟨n, ys, r, rfl, hf⟩ := agrees_application_left.mp h
    exact ⟨ha.1, hf.length_eq ▸ ha.2⟩
  | constant | ambiguity | grouping => cases ha

/-- Cleaning the tree fails, among other things, for an application without a label that has the
given sort and number of children. -/
def FailsFor (t : Tree) (sort : SortName) (arity : Nat) : Prop :=
  ∃ span, .unlabeledNonSubsort sort arity span ∈ t.cleaned.failures

theorem not_isOk_cleaned_iff_failsFor {t : Tree} :
    ¬t.cleaned.isOk ↔ ∃ sort arity, t.FailsFor sort arity := by
  have hfails := not_isOk_cleaned_iff (t := t) fun e => mem_failures_cleaned_iff
  rw [tree_self] at hfails
  constructor
  · intro h
    obtain ⟨n, hn⟩ := fails_iff.mp (hfails.mp h)
    obtain ⟨e, he⟩ := hn.1.exists_reports
    have hmem : e ∈ t.tree.cleaned.failures := mem_failures_cleaned_iff.mpr ⟨n, hn, he⟩
    obtain ⟨m, p, ts, s, -, rfl⟩ := he
    rw [tree_self] at hmem
    exact ⟨p.sort, ts.length, s, hmem⟩
  · rintro ⟨sort, arity, span, he⟩ hok
    rw [Outcome.failures_eq_empty_iff.mpr hok] at he
    exact OrderedSet.not_mem_empty _ he

theorem failsFor_iff_of_malformed {t : Tree} (ht : t.Malformed) {sort : SortName} {arity : Nat} :
    t.FailsFor sort arity ↔ t.sort? = some sort ∧ t.items.length = arity := by
  have hmem (e : Issue) : e ∈ t.cleaned.failures ↔ t.Reports e := by
    rw [← mem_failures_cleaned_of_malformed ht, tree_self]
  simp only [FailsFor, hmem]
  constructor
  · rintro ⟨span, m, p, ts, s, rfl, he⟩
    injection he with hsort harity
    exact ⟨congrArg some hsort.symm, harity.symm⟩
  · rintro ⟨hsort, rfl⟩
    cases t with
    | application m p ts s =>
      obtain rfl := Option.some.inj hsort
      exact ⟨s, m, p, ts, s, rfl, rfl⟩
    | constant | ambiguity | grouping => cases ht

theorem failsFor_iff_of_not_malformed {t : Tree} (ht : ¬t.Malformed) {sort : SortName}
    {arity : Nat} : t.FailsFor sort arity ↔
      (t.isAmbiguity → ∀ u ∈ t.items, ∃ sort arity, u.FailsFor sort arity) ∧
        ∃ u ∈ t.items, u.FailsFor sort arity := by
  simp only [FailsFor, mem_failures_cleaned_of_not_malformed ht, not_isOk_cleaned_iff_failsFor]
  constructor
  · rintro ⟨span, hlost, u, hu, he⟩
    exact ⟨hlost, u, hu, span, he⟩
  · rintro ⟨hlost, u, hu, span, he⟩
    exact ⟨span, hlost, u, hu, he⟩

/-- Trees that agree fail for the same. -/
theorem FailsFor.of_agrees {sort : SortName} {arity : Nat} (ha : a.WellFormed) (h : a.agrees b)
    (hf : a.FailsFor sort arity) : b.FailsFor sort arity := by
  induction a using items_induction generalizing b sort arity with
  | node a ih =>
    obtain ⟨hlen, hback⟩ := items_of_agrees ha h
    by_cases hm : a.Malformed
    · obtain ⟨hsort, harity⟩ := (failsFor_iff_of_malformed hm).mp hf
      refine (failsFor_iff_of_malformed (malformed_of_agrees h hm)).mpr ⟨?_, hlen.symm.trans harity⟩
      rwa [sort?, ← (alike_of_agrees h).production?_eq]
    · have hm' : ¬b.Malformed := fun hb => hm (malformed_of_agrees (agrees_symm ha h) hb)
      obtain ⟨hlost, x, hx, hxf⟩ := (failsFor_iff_of_not_malformed hm).mp hf
      obtain ⟨y, hy, hxy⟩ := exists_agrees_of_mem_items h hx
      refine (failsFor_iff_of_not_malformed hm').mpr
        ⟨fun hamb v hv => ?_, y, hy, ih x hx (ha.items hx) hxy hxf⟩
      -- Every alternative of `b` agrees with one of `a`, and this one fails for something.
      obtain ⟨u, hu, huv⟩ := hback v hv
      obtain ⟨sort', arity', huf⟩ := hlost ((alike_of_agrees h).isAmbiguity_eq ▸ hamb) u hu
      exact ⟨sort', arity', ih u hu (ha.items hu) huv huf⟩

theorem failsFor_iff_of_agrees (ha : a.WellFormed) (hb : b.WellFormed) (h : a.agrees b)
    {sort : SortName} {arity : Nat} : a.FailsFor sort arity ↔ b.FailsFor sort arity :=
  ⟨.of_agrees ha h, .of_agrees hb (agrees_symm ha h)⟩

/-- A tree that agrees with one that is cleaned is cleaned as well. -/
theorem exists_cleansTo_of_agrees {u : Tree} (hb : b.WellFormed) (h : b.agrees a)
    (hu : a.CleansTo u) : ∃ v, b.CleansTo v := by
  by_contra hnone
  have hfail : ¬b.cleaned.isOk := fun hok => hnone (isOk_cleaned_iff.mp hok)
  obtain ⟨sort, arity, hf⟩ := not_isOk_cleaned_iff_failsFor.mp hfail
  exact not_isOk_cleaned_iff_failsFor.mpr ⟨sort, arity, hf.of_agrees hb h⟩
    (isOk_cleaned_iff.mpr ⟨u, hu⟩)

theorem wellFormed_ambiguity_eraseDups {m : Unit} {ts : List Tree} {s : Span}
    (h : ∀ t ∈ ts, t.WellFormed) : (ambiguity m ts.eraseDups s : Tree).WellFormed :=
  everywhere_iff.mpr ⟨pairwise_eraseDups ts, fun t ht => h t (mem_of_mem_eraseDups ht)⟩

/-- Collapsing ambiguities that agree gives trees that agree. -/
theorem agrees_collapsed_ambiguity {m n : Unit} {xs ys : List Tree} {s r : Span}
    (hx : (ambiguity m xs s : Tree).WellFormed) (hy : (ambiguity n ys r : Tree).WellFormed)
    (h : (ambiguity m xs s).agrees (ambiguity n ys r)) :
    (ambiguity m xs s).collapsed.agrees (ambiguity n ys r).collapsed := by
  have hsymm : ∀ x ∈ xs, ∀ y : Tree, x.agrees y → y.agrees x :=
    fun x hm y hxy => agrees_symm (hx.items hm) hxy
  -- How many alternatives are left does not change when they are reordered or replaced by equals.
  obtain ⟨zs, hperm, hf⟩ := exists_perm_of_agrees hsymm hx.self h
  have hproper : List.Forall₂ (fun x z => x.agrees z) (proper xs) (proper zs) :=
    forall₂_proper hf fun x _ z hxz => (isEmptyMarker_eq_of_agrees hxz).symm
  have hperm' : (proper zs).Perm (proper ys) := hperm.filter _
  match hs : proper xs with
  | [] =>
    rw [hs] at hproper
    rw [List.forall₂_nil_left_iff.mp hproper] at hperm'
    rw [collapsed_of_nil (t := ambiguity m xs s) hs,
      collapsed_of_nil (t := ambiguity n ys r) (List.nil_perm.mp hperm')]
    exact agrees_grouping .nil
  | [x] =>
    rw [hs] at hproper
    obtain ⟨z, _, hxz, hnil, hz⟩ := List.forall₂_cons_left_iff.mp hproper
    rw [hz, List.forall₂_nil_left_iff.mp hnil] at hperm'
    rw [collapsed_of_singleton (t := ambiguity m xs s) hs,
      collapsed_of_singleton (t := ambiguity n ys r) (List.singleton_perm.mp hperm').symm]
    exact hxz
  | _ :: _ :: _ =>
    have hlenx : 2 ≤ (proper xs).length := by simp [hs]
    have hleny : 2 ≤ (proper ys).length := by
      rw [← hperm'.length_eq, ← hproper.length_eq]
      exact hlenx
    rw [collapsed_of_two_le (t := ambiguity m xs s) hlenx,
      collapsed_of_two_le (t := ambiguity n ys r) hleny]
    refine agrees_ambiguity_eraseDups (fun x hm => hx.items (mem_proper.mp hm).1)
      (fun y hm => hy.items (mem_proper.mp hm).1) (fun x hm => ?_) fun y hm => ?_
    · obtain ⟨z, hz, hxz⟩ := forall₂_exists_right hproper hm
      exact ⟨z, hperm'.mem_iff.mp hz, hxz⟩
    · obtain ⟨x, hxm, hxy⟩ := forall₂_exists_left hproper (hperm'.mem_iff.mpr hm)
      exact ⟨x, hxm, hsymm x (mem_proper.mp hxm).1 y hxy⟩

theorem wellFormed_of_mem_cleanings {ts : List Tree} (hts : ∀ t ∈ ts, t.WellFormed) {u : Tree}
    (hu : u ∈ cleanings ts) : u.WellFormed := by
  obtain ⟨t, ht, htu⟩ := mem_cleanings.mp hu
  exact (htu.clean (hts t ht)).wellFormed

/-- An alternative survives just if one that agrees with it does. So what is left of ambiguities
that agree are ambiguities that agree. -/
theorem agrees_ambiguity_cleanings {m n : Unit} {xs ys : List Tree} {s r s' r' : Span}
    (hx : (ambiguity m xs s : Tree).WellFormed) (hy : (ambiguity n ys r : Tree).WellFormed)
    (h : (ambiguity m xs s).agrees (ambiguity n ys r))
    (hclean : ∀ x ∈ xs, ∀ y ∈ ys, ∀ u v, x.agrees y → x.CleansTo u → y.CleansTo v → u.agrees v) :
    (ambiguity () (cleanings xs).eraseDups s').agrees
      (ambiguity () (cleanings ys).eraseDups r') := by
  have hwx : ∀ u ∈ cleanings xs, u.WellFormed :=
    fun u hu => wellFormed_of_mem_cleanings (fun x hm => hx.items hm) hu
  have hwy : ∀ v ∈ cleanings ys, v.WellFormed :=
    fun v hv => wellFormed_of_mem_cleanings (fun y hm => hy.items hm) hv
  refine agrees_ambiguity_eraseDups hwx hwy (fun u hu => ?_) fun v hv => ?_
  · obtain ⟨x, hxm, hxu⟩ := mem_cleanings.mp hu
    obtain ⟨y, hym, hxy⟩ := (agrees_ambiguity_iff.mp h).2 x hxm
    obtain ⟨v, hyv⟩ :=
      exists_cleansTo_of_agrees (hy.items hym) (agrees_symm (hx.items hxm) hxy) hxu
    exact ⟨v, mem_cleanings.mpr ⟨y, hym, hyv⟩, hclean x hxm y hym u v hxy hxu hyv⟩
  · obtain ⟨y, hym, hyv⟩ := mem_cleanings.mp hv
    obtain ⟨x, hxm, hxy⟩ := (items_of_agrees hx h).2 y hym
    obtain ⟨u, hxu⟩ := exists_cleansTo_of_agrees (hx.items hxm) hxy hyv
    have hu : u ∈ cleanings xs := mem_cleanings.mpr ⟨x, hxm, hxu⟩
    exact ⟨u, hu, agrees_symm (hwx u hu) (hclean x hxm y hym u v hxy hxu hyv)⟩

/-- What cleaning makes of trees that agree agrees. -/
theorem CleansTo.agrees {u v : Tree} (ha : a.WellFormed) (hb : b.WellFormed) (h : a.agrees b)
    (hu : a.CleansTo u) (hv : b.CleansTo v) : u.agrees v := by
  induction a using Forest.induction generalizing b u v with
  | constant m w p s =>
    obtain ⟨n, r, rfl⟩ := agrees_constant_left.mp h
    rw [cleansTo_constant_iff.mp hu, cleansTo_constant_iff.mp hv]
    exact h
  | application m p xs s ih =>
    obtain ⟨n, ys, r, rfl, hxy⟩ := agrees_application_left.mp h
    cases hl : p.label with
    | some l =>
      obtain ⟨us, hus, rfl⟩ := (cleansTo_labeled_iff hl).mp hu
      obtain ⟨vs, hvs, rfl⟩ := (cleansTo_labeled_iff hl).mp hv
      exact agrees_application (forall₂_opposite hxy hus hvs
        fun x hx y hy _ _ => ih x hx (ha.items hx) (hb.items hy))
    | none =>
      obtain ⟨x, rfl, hx⟩ := (cleansTo_unlabeled_iff hl).mp hu
      obtain ⟨y, rfl, hy⟩ := (cleansTo_unlabeled_iff hl).mp hv
      exact ih x List.mem_cons_self (ha.items List.mem_cons_self) (hb.items List.mem_cons_self)
        (List.forall₂_cons.mp hxy).1 hx hy
  | ambiguity m xs s ih =>
    obtain ⟨n, ys, r, rfl, -⟩ := agrees_ambiguity_left.mp h
    obtain ⟨-, rfl⟩ := cleansTo_ambiguity_iff.mp hu
    obtain ⟨-, rfl⟩ := cleansTo_ambiguity_iff.mp hv
    refine agrees_collapsed_ambiguity
      (wellFormed_ambiguity_eraseDups fun u => wellFormed_of_mem_cleanings fun x hx => ha.items hx)
      (wellFormed_ambiguity_eraseDups fun v => wellFormed_of_mem_cleanings fun y hy => hb.items hy)
      (agrees_ambiguity_cleanings ha hb h ?_)
    exact fun x hx y hy u v => ih x hx (ha.items hx) (hb.items hy)
  | grouping m xs s ih =>
    obtain ⟨n, ys, r, rfl, hxy⟩ := agrees_grouping_left.mp h
    obtain ⟨us, hus, rfl⟩ := cleansTo_grouping_iff.mp hu
    obtain ⟨vs, hvs, rfl⟩ := cleansTo_grouping_iff.mp hv
    exact agrees_collapsed_grouping (forall₂_opposite hxy hus hvs
      fun x hx y hy _ _ => ih x hx (ha.items hx) (hb.items hy))

end Forest

namespace Completion
variable {names : SymbolTable} {g : Grammar} {p : Production} {slot : SortName} {a b : Tree}

theorem exists_sameSorts_unions {α β : Type} {xs : List α} {ys : List β} {f : α → Issues}
    {h : β → Issues} (hxy : ∀ x ∈ xs, ∃ y ∈ ys, ∀ e ∈ f x, ∃ d ∈ h y, e.SameSorts d) {e : Issue}
    (he : e ∈ OrderedSet.unions (xs.map f)) :
    ∃ d ∈ OrderedSet.unions (ys.map h), e.SameSorts d := by
  obtain ⟨x, hx, he⟩ := OrderedSet.mem_unions_map.mp he
  obtain ⟨y, hy, hsame⟩ := hxy x hx
  obtain ⟨d, hd, hed⟩ := hsame e he
  exact ⟨d, OrderedSet.mem_unions_map.mpr ⟨y, hy, hd⟩, hed⟩

/-- Of trees that agree, the same is warned in a slot, also through ambiguities. -/
theorem exists_sameSorts_placed (h : a.agrees b) {e : Issue}
    (he : e ∈ (placed names g slot a).warnings) :
    ∃ d ∈ (placed names g slot b).warnings, e.SameSorts d := by
  induction a using Forest.induction generalizing b e with
  | ambiguity m xs s ih =>
    obtain ⟨n, ys, r, rfl, -, hex⟩ := Forest.agrees_ambiguity_left.mp h
    rw [placed_ambiguity] at he ⊢
    refine exists_sameSorts_unions (fun x hx => ?_) he
    obtain ⟨y, hy, hxy⟩ := hex x hx
    exact ⟨y, hy, fun e he => ih x hx hxy he⟩
  | constant | application | grouping =>
    have hb : ¬b.isAmbiguity := by
      rw [← (Forest.alike_of_agrees h).isAmbiguity_eq]
      simp [Forest.isAmbiguity]
    rw [placed_of_not_isAmbiguity (by simp [Forest.isAmbiguity])] at he
    rw [placed_of_not_isAmbiguity hb]
    exact exists_sameSorts_placedTree h he

/-- Trees that agree and are complete become trees that agree in a slot. -/
theorem agrees_filled_of_wellFormed (ha : a.WellFormed) (hb : b.WellFormed) (h : a.agrees b) :
    (filled names g p slot a).tree.agrees (filled names g p slot b).tree := by
  unfold filled
  split
  · exact agrees_placed ha hb h
  · exact h

theorem exists_sameSorts_filled (h : a.agrees b) {e : Issue}
    (he : e ∈ (filled names g p slot a).warnings) :
    ∃ d ∈ (filled names g p slot b).warnings, e.SameSorts d := by
  unfold filled at he ⊢
  split at he
  · rename_i hexpects
    rw [if_pos hexpects]
    exact exists_sameSorts_placed h he
  · exact absurd he (OrderedSet.not_mem_empty e)

/-- Trees that agree are completed to trees that agree. -/
theorem agrees_completed (ha : a.WellFormed) (hb : b.WellFormed) (h : a.agrees b) :
    (completed names g a).tree.agrees (completed names g b).tree := by
  induction a using Forest.induction generalizing b with
  | constant m v p s =>
    obtain ⟨n, r, rfl⟩ := Forest.agrees_constant_left.mp h
    rw [completed_constant, completed_constant]
    exact h
  | application m p xs s ih =>
    obtain ⟨n, ys, r, rfl, hxy⟩ := Forest.agrees_application_left.mp h
    rw [completed_application, completed_application]
    refine Forest.agrees_application (forall₂_zip_map
      (f := fun slot x => (slotted names g p slot x).tree)
      (h := fun slot y => (slotted names g p slot y).tree) hxy fun slot x hx y hy hxy => ?_)
    exact agrees_filled_of_wellFormed (wellFormed_completed (ha.items hx))
      (wellFormed_completed (hb.items hy)) (ih x hx (ha.items hx) (hb.items hy) hxy)
  | ambiguity m xs s ih =>
    obtain ⟨n, ys, r, rfl, -⟩ := Forest.agrees_ambiguity_left.mp h
    rw [completed_ambiguity, completed_ambiguity]
    exact Forest.agrees_ambiguity_map ha h (fun x hx => wellFormed_completed (ha.items hx))
      (fun y hy => wellFormed_completed (hb.items hy))
      fun x hx y hy => ih x hx (ha.items hx) (hb.items hy)
  | grouping m xs s ih =>
    obtain ⟨n, ys, r, rfl, hxy⟩ := Forest.agrees_grouping_left.mp h
    rw [completed_grouping, completed_grouping]
    refine Forest.agrees_grouping ?_
    rw [List.forall₂_map_left_iff, List.forall₂_map_right_iff]
    exact forall₂_imp_of_mem hxy fun x hx y hy => ih x hx (ha.items hx) (hb.items hy)

/-- Of trees that agree, the same is warned. -/
theorem exists_sameSorts_completed (ha : a.WellFormed) (hb : b.WellFormed) (h : a.agrees b)
    {e : Issue} (he : e ∈ (completed names g a).warnings) :
    ∃ d ∈ (completed names g b).warnings, e.SameSorts d := by
  induction a using Forest.items_induction generalizing b e with
  | node a ih =>
    have below : ∀ x ∈ a.items, ∃ y ∈ b.items, ∀ e ∈ (completed names g x).warnings,
        ∃ d ∈ (completed names g y).warnings, e.SameSorts d := by
      intro x hx
      obtain ⟨y, hy, hxy⟩ := Forest.exists_agrees_of_mem_items h hx
      exact ⟨y, hy, fun e he => ih x hx (ha.items hx) (hb.items hy) hxy he⟩
    cases a with
    | application m p xs s =>
      obtain ⟨n, ys, r, rfl, hxy⟩ := Forest.agrees_application_left.mp h
      rw [completed_application] at he ⊢
      rcases OrderedSet.mem_union.mp he with he | he
      · obtain ⟨⟨slot, x⟩, hx, he⟩ := OrderedSet.mem_unions_map.mp he
        obtain ⟨y, hy, hyx, hagree⟩ := exists_mem_zip_of_forall₂ hxy.flip hx
        have hxm := (List.of_mem_zip hx).2
        have hcomplete : (completed names g x).tree.agrees (completed names g y).tree :=
          agrees_completed (ha.items hxm) (hb.items hy) hagree
        obtain ⟨d, hd, hed⟩ := exists_sameSorts_filled hcomplete he
        exact ⟨d, OrderedSet.mem_union.mpr (.inl (OrderedSet.mem_unions_map.mpr ⟨_, hyx, hd⟩)), hed⟩
      · obtain ⟨d, hd, hed⟩ := exists_sameSorts_unions below he
        exact ⟨d, OrderedSet.mem_union.mpr (.inr hd), hed⟩
    | constant | ambiguity | grouping =>
      have hb' : ∀ m p ts s, b ≠ .application m p ts s := by
        rintro m p ts s rfl
        cases Forest.alike_of_agrees h
      rw [completed_of_not_application (by simp)] at he
      rw [completed_of_not_application hb']
      exact exists_sameSorts_unions below he

theorem sorts_completed_iff (ha : a.WellFormed) (hb : b.WellFormed) (h : a.agrees b)
    {found expected : SortName} :
    (∃ s, .listSortExpected found expected s ∈ (completed names g a).warnings) ↔
      ∃ s, .listSortExpected found expected s ∈ (completed names g b).warnings := by
  have carry {a b : Tree} (ha : a.WellFormed) (hb : b.WellFormed) (h : a.agrees b) :
      (∃ s, .listSortExpected found expected s ∈ (completed names g a).warnings) →
        ∃ s, .listSortExpected found expected s ∈ (completed names g b).warnings := by
    rintro ⟨s, he⟩
    obtain ⟨d, hd, found', expected', r, r', hs, rfl⟩ := exists_sameSorts_completed ha hb h he
    injection hs with hf hx
    subst hf hx
    exact ⟨r', hd⟩
  exact ⟨carry ha hb h, carry hb ha (Forest.agrees_symm ha h)⟩

end Completion

namespace Ledger
variable {l k : Ledger} {t u : Term} {g : Grammar}

/-- Both verdicts accept, give equal terms and warn of the same sorts, or both reject, for the same
sorts and numbers of children. -/
def SameVerdict : Except Rejection Disambiguated → Except Rejection Disambiguated → Prop
  | .ok d, .ok d' => d.term == d'.term ∧ ∀ found expected,
      (∃ s, .listSortExpected found expected s ∈ d.warnings) ↔
        ∃ s, .listSortExpected found expected s ∈ d'.warnings
  | .error r, .error r' => ∀ sort arity,
      (∃ s, .unlabeledNonSubsort sort arity s ∈ r.failures) ↔
        ∃ s, .unlabeledNonSubsort sort arity s ∈ r'.failures
  | _, _ => False

/-- What is answered about trees that agree are the same verdicts. -/
theorem sameVerdict_of_answers {names : SymbolTable} {a b : Tree} {o o' : Outcome}
    (ha : a.WellFormed) (hb : b.WellFormed) (h : a.agrees b)
    (ho : l.Answers (a.disambiguated names g) o) (ho' : l.Answers (b.disambiguated names g) o') :
    SameVerdict o.verdict o'.verdict := by
  cases hc : a.cleaned.result with
  | ok x =>
    obtain ⟨y, hc'⟩ := Forest.exists_cleansTo_of_agrees hb (Forest.agrees_symm ha h) hc
    have hx : x.WellFormed := (Forest.CleansTo.clean ha hc).wellFormed
    have hy : y.WellFormed := (Forest.CleansTo.clean hb hc').wellFormed
    have hxy : x.agrees y := Forest.CleansTo.agrees ha hb h hc hc'
    obtain ⟨d, hd, hdl, hdx⟩ := ho.accepts hc
    obtain ⟨d', hd', hdl', hdy⟩ := ho'.accepts hc'
    rw [hd, hd']
    refine ⟨?_, fun found expected => Completion.sorts_completed_iff hx hy hxy⟩
    change d == d'
    rw [beq_eq_agrees hdl hdl', ← Forest.agrees_tree, hdx, hdy]
    exact Completion.agrees_completed hx hy hxy
  | error f =>
    cases hc' : b.cleaned.result with
    | ok y =>
      obtain ⟨x, hx⟩ := Forest.exists_cleansTo_of_agrees ha h hc'
      cases hc.symm.trans hx
    | error f' =>
      rw [ho.rejects hc, ho'.rejects hc']
      intro sort arity
      have hfails : a.FailsFor sort arity ↔ b.FailsFor sort arity :=
        Forest.failsFor_iff_of_agrees ha hb h
      simp only [Forest.FailsFor, Outcome.failures, hc, hc'] at hfails
      exact hfails

/-- The verdicts on equal terms are the same, whatever is remembered. -/
theorem disambiguation_congruent (hg : g.KnownTo l.symbols) (ht : t ∈ l) (hu : u ∈ l)
    (h : t == u) (config config' : PassConfig) : ∃ v w s s',
      (disambiguate g t config).run l.session = .ok (v, s) ∧
      (disambiguate g u config').run s = .ok (w, s') ∧ SameVerdict v w := by
  obtain ⟨v, k, hrun, hlk, o, ho, rfl⟩ := (yields_disambiguate hg ht config).run
  obtain ⟨w, m, hrun', hkm, o', ho', rfl⟩ :=
    (yields_disambiguate (hg.of_le (symbols_le hlk)) (mem_of_le hlk hu) config').run
  rw [Forest.disambiguated_of_le hg (symbols_le hlk)
    (Forest.knownTo_tree.mpr (knownTo_of_mem hu))] at ho'
  rw [beq_eq_agrees ht hu, ← Forest.agrees_tree] at h
  refine ⟨o.verdict, o'.verdict, k.session, m.session, hrun, hrun', ?_⟩
  exact sameVerdict_of_answers (Forest.wellFormed_tree.mpr (wellFormed_of_mem ht))
    (Forest.wellFormed_tree.mpr (wellFormed_of_mem hu)) h (ho.of_le hkm) ho'

/-- The same as `loneElement` with the alternatives turned around, from somewhere else. -/
def turnedElement : Tree :=
  let elsewhere : Span := ⟨7, 3, .unknownContext⟩
  .application () ofList
    [.ambiguity () [.application () listEnd [] elsewhere,
      .constant () .bracket ⟨elementSort, [], none, ∅⟩ elsewhere] elsewhere] .unknown

theorem disambiguation_congruent_turnedElement : ∃ (l : Ledger) (t u : Term), t ∈ l ∧ u ∈ l ∧
    t.tree = loneElement ∧ u.tree = turnedElement ∧ t == u ∧ ∃ d d' s s',
      (disambiguate listGrammar t {}).run l.session = .ok (.ok d, s) ∧
      (disambiguate listGrammar u {}).run s = .ok (.ok d', s') ∧ d.term == d'.term := by
  obtain ⟨k, t, hk, ht, htree⟩ :=
    exists_stores (l := listNames) (r := loneElement) (by decide) (by decide)
  have hknown : turnedElement.KnownTo listNames.symbols := by decide
  obtain ⟨l, u, hkl, hu, hutree⟩ :=
    exists_stores (r := turnedElement) (by decide) (hknown.of_le (symbols_le hk))
  have htl := mem_of_le hkl ht
  have hnames : listGrammar.KnownTo listNames.symbols := ⟨by decide, by decide, by decide⟩
  have hg : listGrammar.KnownTo l.symbols := hnames.of_le (symbols_le (le_trans hk hkl))
  have hequal : t == u := by
    rw [beq_eq_agrees htl hu, ← Forest.agrees_tree, htree, hutree]
    decide
  obtain ⟨v, w, s, s', hrun, hrun', hsame⟩ := disambiguation_congruent hg htl hu hequal {} {}
  have hclean : loneElement.CleansTo loneElement := rfl
  obtain ⟨d, hd⟩ := exists_accepted hg htl {} (htree ▸ hclean)
  rw [disambiguation, StateT.run'_eq, hrun] at hd
  obtain rfl : v = .ok d := Except.ok.inj hd
  cases w with
  | ok d' => exact ⟨l, t, u, htl, hu, htree, hutree, hequal, d, d', s, s', hrun, hrun', hsame.1⟩
  | error r => cases hsame

end Ledger
end ParseForest
