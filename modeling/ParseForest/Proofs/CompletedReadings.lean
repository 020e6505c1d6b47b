import ParseForest.Proofs.Completing
import ParseForest.Proofs.Readings

/-!
# Completing a forest is completing its readings

What completion makes of a tree stands for what completion makes of the readings
of the tree. In the slot of a list sort a tree is judged by its production and,
where it applies a label, by the operator, so this needs that no such operator is
ambiguous. The warnings are those of the readings as well, up to spans.
-/
namespace ParseForest

/-- The issues expect the same list sort and found the same sort. -/
def Issue.SameSorts (e f : Issue) : Prop :=
  ∃ found expected s s',
    e = listSortExpected found expected s ∧ f = listSortExpected found expected s'

theorem Issue.SameSorts.trans {e f d : Issue} (hef : e.SameSorts f) (hfd : f.SameSorts d) :
    e.SameSorts d := by
  obtain ⟨found, expected, s, s', rfl, rfl⟩ := hef
  obtain ⟨found', expected', r, r', h, rfl⟩ := hfd
  injection h with hf hx
  subst hf hx
  exact ⟨found, expected, s, r', rfl, rfl⟩

namespace Forest

/-- The operator of the node is not ambiguous, if the node applies a label. -/
def OperatorFixed {ι : Type} : Forest ι → Prop
  | application _ p (operator :: _) _ => p.label = some Label.apply → ¬operator.isAmbiguity
  | _ => True

instance {ι : Type} : DecidablePred (OperatorFixed : Forest ι → Prop)
  | application _ p (operator :: _) _ =>
      inferInstanceAs (Decidable (p.label = some Label.apply → ¬operator.isAmbiguity))
  | application _ _ [] _ => .isTrue trivial
  | constant .. => .isTrue trivial
  | ambiguity .. => .isTrue trivial
  | grouping .. => .isTrue trivial

theorem operatorFixed_tree {ι : Type} {t : Forest ι} : t.tree.OperatorFixed ↔ t.OperatorFixed := by
  cases t with
  | application m p ts s => cases ts <;> simp [OperatorFixed]
  | _ => simp [OperatorFixed]

variable {names : SymbolTable} {t r : Tree}

/-- The trees are nodes of one kind, with the same production and the same value if they have
any. -/
inductive Alike : Tree → Tree → Prop
  | constant {m n : Unit} {v : Symbol} {p : Production} {s s' : Span} :
      Alike (constant m v p s) (constant n v p s')
  | application {m n : Unit} {p : Production} {ts us : List Tree} {s s' : Span} :
      Alike (application m p ts s) (application n p us s')
  | ambiguity {m n : Unit} {ts us : List Tree} {s s' : Span} :
      Alike (ambiguity m ts s) (ambiguity n us s')
  | grouping {m n : Unit} {ts us : List Tree} {s s' : Span} :
      Alike (grouping m ts s) (grouping n us s')

theorem Alike.production?_eq {a b : Tree} (h : Alike a b) : a.production? = b.production? := by
  cases h <;> rfl

theorem Alike.literal_eq {a b : Tree} (h : Alike a b) : a.literal names = b.literal names := by
  cases h <;> rfl

theorem Alike.isAmbiguity_eq {a b : Tree} (h : Alike a b) : a.isAmbiguity = b.isAmbiguity := by
  cases h <;> rfl

theorem alike_of_agrees {a b : Tree} (h : a.agrees b) : Alike a b := by
  cases a with
  | constant =>
    obtain ⟨_, _, rfl⟩ := agrees_constant_left.mp h
    exact .constant
  | application =>
    obtain ⟨_, _, _, rfl, -⟩ := agrees_application_left.mp h
    exact .application
  | ambiguity =>
    obtain ⟨_, _, _, rfl, -⟩ := agrees_ambiguity_left.mp h
    exact .ambiguity
  | grouping =>
    obtain ⟨_, _, _, rfl, -⟩ := agrees_grouping_left.mp h
    exact .grouping

theorem appliedLabel_eq_of_agrees {a b : Tree} (h : a.agrees b) :
    a.appliedLabel names = b.appliedLabel names := by
  cases a with
  | application m p xs s =>
    obtain ⟨_, _, _, rfl, hf⟩ := agrees_application_left.mp h
    cases hf with
    | nil => rfl
    | cons hxy _ => simp only [appliedLabel, (alike_of_agrees hxy).literal_eq]
  | _ =>
    cases alike_of_agrees h
    rfl

/-- A reading of anything but an ambiguity is a node of the same kind in the same place. -/
theorem ReadsAs.alike (hr : t.ReadsAs r) (ht : ¬t.isAmbiguity) :
    Alike r t ∧ r.span = t.span := by
  cases t with
  | constant =>
    obtain rfl := readsAs_constant_iff.mp hr
    exact ⟨.constant, rfl⟩
  | application =>
    obtain ⟨_, -, rfl⟩ := readsAs_application_iff.mp hr
    exact ⟨.application, rfl⟩
  | ambiguity => exact absurd rfl ht
  | grouping =>
    obtain ⟨_, -, rfl⟩ := readsAs_grouping_iff.mp hr
    exact ⟨.grouping, rfl⟩

theorem ReadsAs.appliedLabel_eq (hr : t.ReadsAs r) (ht : ¬t.isAmbiguity)
    (ho : t.OperatorFixed) : r.appliedLabel names = t.appliedLabel names := by
  cases t with
  | application m p ts s =>
    obtain ⟨us, hus, rfl⟩ := readsAs_application_iff.mp hr
    cases hus with
    | nil => rfl
    | cons hxu _ =>
      simp only [appliedLabel]
      split
      · rename_i hp
        exact (hxu.alike (ho hp)).1.literal_eq
      · rfl
  | constant | grouping =>
    cases (hr.alike ht).1
    rfl
  | ambiguity => exact absurd rfl ht

end Forest

namespace Completion
variable {names : SymbolTable} {g : Grammar} {slot : SortName} {p : Production} {t r : Tree}

/-- What a tree is judged by in the slot of a list sort is the same for both trees. -/
structure JudgedAlike (names : SymbolTable) (a b : Tree) : Prop where
  production?_eq : a.production? = b.production?
  appliedLabel_eq : a.appliedLabel names = b.appliedLabel names

theorem judgedAlike_of_agrees {a b : Tree} (h : a.agrees b) : JudgedAlike names a b :=
  ⟨(Forest.alike_of_agrees h).production?_eq, Forest.appliedLabel_eq_of_agrees h⟩

theorem judgedAlike_of_readsAs (hr : t.ReadsAs r) (ht : ¬t.isAmbiguity) (ho : t.OperatorFixed) :
    JudgedAlike names r t := ⟨(hr.alike ht).1.production?_eq, hr.appliedLabel_eq ht ho⟩

/-- What becomes of a tree becomes of all that are judged like it. -/
theorem placedTree_cases_alike (names : SymbolTable) (g : Grammar) (slot : SortName) (t : Tree) :
    (∀ r, JudgedAlike names r t → placedTree names g slot r = ⟨r, ∅⟩) ∨
      (∃ d, ∀ r, JudgedAlike names r t → placedTree names g slot r = ⟨singletonTree d r, ∅⟩) ∨
      ∃ found, ∀ r, JudgedAlike names r t → placedTree names g slot r =
        ⟨r, .singleton (.listSortExpected found slot r.span)⟩ := by
  have hsort (r : Tree) (h : JudgedAlike names r t) :
      g.judgedSort names r = g.judgedSort names t := by
    rw [Grammar.judgedSort, Grammar.judgedSort, Forest.sort?, Forest.sort?, h.production?_eq,
      h.appliedLabel_eq]
  cases hp : t.production? with
  | none =>
    exact .inl fun r h => placedTree_of_production?_eq_none (h.production?_eq.trans hp)
  | some p =>
    obtain ⟨found, hf⟩ := exists_judgedSort names g hp
    have halike (r : Tree) (h : JudgedAlike names r t) :
        r.production? = some p ∧ g.judgedSort names r = some found :=
      ⟨h.production?_eq.trans hp, (hsort r h).trans hf⟩
    cases hplace : g.placement slot found p with
    | keep =>
      exact .inl fun r h => placedTree_of_keep (halike r h).1 (halike r h).2 hplace
    | element d =>
      exact .inr (.inl ⟨d, fun r h =>
        placedTree_of_element (halike r h).1 (halike r h).2 hplace⟩)
    | misplaced =>
      exact .inr (.inr ⟨found, fun r h =>
        placedTree_of_misplaced (halike r h).1 (halike r h).2 hplace⟩)

theorem readsAs_singletonTree_iff {d : ListDeclaration} (ht : ¬t.isAmbiguity) {q : Tree} :
    (singletonTree d t).ReadsAs q ↔ ∃ r, t.ReadsAs r ∧ q = singletonTree d r := by
  rw [singletonTree, Forest.readsAs_application_iff]
  constructor
  · intro h
    obtain ⟨us, hus, hq⟩ := h
    obtain ⟨r, us', hr, hus', rfl⟩ := List.forall₂_cons_left_iff.mp hus
    obtain ⟨e, us'', he, hus'', rfl⟩ := List.forall₂_cons_left_iff.mp hus'
    obtain ⟨es, hes, rfl⟩ := Forest.readsAs_application_iff.mp he
    cases hus''
    cases hes
    exact ⟨r, hr, by rw [hq, singletonTree, (hr.alike ht).2]⟩
  · intro h
    obtain ⟨r, hr, hq⟩ := h
    have he := Forest.readsAs_application_iff (m := ()) (p := d.terminator) (s := t.span)
      |>.mpr ⟨[], .nil, rfl⟩
    exact ⟨_, .cons hr (.cons he .nil), by rw [hq, singletonTree, (hr.alike ht).2]⟩

theorem agrees_singletonTree {d : ListDeclaration} {a b : Tree} (h : a.agrees b) :
    (singletonTree d a).agrees (singletonTree d b) :=
  Forest.agrees_application (.cons h (.cons (Forest.agrees_application .nil) .nil))

/-- To read what is placed is to place a reading. -/
theorem readsAs_placedTree_iff (ht : ¬t.isAmbiguity) (ho : t.OperatorFixed) {q : Tree} :
    (placedTree names g slot t).tree.ReadsAs q ↔
      ∃ r, t.ReadsAs r ∧ (placedTree names g slot r).tree = q := by
  have halike {r : Tree} (hr : t.ReadsAs r) : JudgedAlike names r t :=
    judgedAlike_of_readsAs hr ht ho
  have hself : JudgedAlike names t t := ⟨rfl, rfl⟩
  rcases placedTree_cases_alike names g slot t with h | ⟨d, h⟩ | ⟨found, h⟩
  · rw [h t hself]
    constructor
    · intro hq
      exact ⟨q, hq, by rw [h q (halike hq)]⟩
    · intro ⟨r, hr, hq⟩
      rw [← hq, h r (halike hr)]
      exact hr
  · rw [h t hself, readsAs_singletonTree_iff ht]
    constructor
    · intro ⟨r, hr, hq⟩
      exact ⟨r, hr, by rw [h r (halike hr), hq]⟩
    · intro ⟨r, hr, hq⟩
      exact ⟨r, hr, by rw [← hq, h r (halike hr)]⟩
  · rw [h t hself]
    constructor
    · intro hq
      exact ⟨q, hq, by rw [h q (halike hq)]⟩
    · intro ⟨r, hr, hq⟩
      rw [← hq, h r (halike hr)]
      exact hr

theorem warnings_placedTree_of_readsAs (ht : ¬t.isAmbiguity) (ho : t.OperatorFixed)
    (hr : t.ReadsAs r) :
    (placedTree names g slot r).warnings = (placedTree names g slot t).warnings := by
  have halike : JudgedAlike names r t := judgedAlike_of_readsAs hr ht ho
  rcases placedTree_cases_alike names g slot t with h | ⟨d, h⟩ | ⟨found, h⟩
  · rw [h r halike, h t ⟨rfl, rfl⟩]
  · rw [h r halike, h t ⟨rfl, rfl⟩]
  · rw [h r halike, h t ⟨rfl, rfl⟩, (hr.alike ht).2]

theorem agrees_placedTree {a b : Tree} (hab : a.agrees b) :
    (placedTree names g slot a).tree.agrees (placedTree names g slot b).tree := by
  have halike : JudgedAlike names a b := judgedAlike_of_agrees hab
  rcases placedTree_cases_alike names g slot b with h | ⟨d, h⟩ | ⟨found, h⟩
  · rw [h a halike, h b ⟨rfl, rfl⟩]
    exact hab
  · rw [h a halike, h b ⟨rfl, rfl⟩]
    exact agrees_singletonTree hab
  · rw [h a halike, h b ⟨rfl, rfl⟩]
    exact hab

theorem exists_sameSorts_placedTree {a b : Tree} (hab : a.agrees b) {e : Issue}
    (he : e ∈ (placedTree names g slot a).warnings) :
    ∃ f ∈ (placedTree names g slot b).warnings, e.SameSorts f := by
  have halike : JudgedAlike names a b := judgedAlike_of_agrees hab
  rcases placedTree_cases_alike names g slot b with h | ⟨d, h⟩ | ⟨found, h⟩
  · rw [h a halike] at he
    exact absurd he (OrderedSet.not_mem_empty e)
  · rw [h a halike] at he
    exact absurd he (OrderedSet.not_mem_empty e)
  · rw [h a halike] at he
    rw [h b ⟨rfl, rfl⟩]
    exact ⟨_, OrderedSet.mem_singleton.mpr rfl, found, slot, a.span, b.span,
      OrderedSet.mem_singleton.mp he, rfl⟩

/-- To read what is placed is to place a reading, also through ambiguities. Alternatives that have
become equal are merged, so a placed reading is found up to equality only. -/
theorem exists_of_readsAs_placed (ho : Forest.Everywhere Forest.OperatorFixed t) {q : Tree}
    (hq : (placed names g slot t).tree.ReadsAs q) :
    ∃ r, t.ReadsAs r ∧ (placed names g slot r).tree = q := by
  induction t using Forest.induction with
  | ambiguity m ts s ih =>
    rw [placed_ambiguity] at hq
    rcases Forest.readsAs_ambiguity_iff.mp hq with ⟨hnil, rfl⟩ | ⟨u, hu, hq⟩
    · have hts : ts = [] := List.map_eq_nil_iff.mp (eraseDups_eq_nil_iff.mp hnil)
      refine ⟨_, Forest.readsAs_ambiguity_iff.mpr (.inl ⟨hts, rfl⟩), ?_⟩
      rw [placed_of_not_isAmbiguity (by simp [Forest.isAmbiguity])]
      rfl
    · obtain ⟨x, hx, rfl⟩ := List.mem_map.mp (mem_of_mem_eraseDups hu)
      obtain ⟨r, hr, hrq⟩ := ih x hx (ho.of_mem_items hx) hq
      exact ⟨r, Forest.readsAs_ambiguity_iff.mpr (.inr ⟨x, hx, hr⟩), hrq⟩
  | constant | application | grouping =>
    rw [placed_of_not_isAmbiguity (by simp [Forest.isAmbiguity])] at hq
    obtain ⟨r, hr, hrq⟩ :=
      (readsAs_placedTree_iff (by simp [Forest.isAmbiguity]) ho.self).mp hq
    exact ⟨r, hr, by rw [placed_of_not_isAmbiguity hr.unambiguous.self, hrq]⟩

theorem exists_readsAs_placed (ho : Forest.Everywhere Forest.OperatorFixed t)
    (hr : t.ReadsAs r) :
    ∃ q, (placed names g slot t).tree.ReadsAs q ∧ (placed names g slot r).tree.agrees q := by
  rw [placed_of_not_isAmbiguity hr.unambiguous.self]
  induction t using Forest.induction with
  | ambiguity m ts s ih =>
    rw [placed_ambiguity]
    rcases Forest.readsAs_ambiguity_iff.mp hr with ⟨rfl, rfl⟩ | ⟨x, hx, hxr⟩
    · exact ⟨_, Forest.readsAs_ambiguity_iff.mpr (.inl ⟨rfl, rfl⟩), Forest.agrees_refl _⟩
    · obtain ⟨q, hq, hrq⟩ := ih x hx (ho.of_mem_items hx) hxr
      obtain ⟨u, hu, hxu⟩ := Forest.exists_agrees_of_mem
        (List.mem_map_of_mem (f := fun u => (placed names g slot u).tree) hx)
      obtain ⟨q', hq', hqq⟩ := hq.of_agrees hxu
      exact ⟨q', Forest.readsAs_ambiguity_iff.mpr (.inr ⟨u, hu, hq'⟩),
        Forest.agrees_trans hrq hqq⟩
  | constant | application | grouping =>
    rw [placed_of_not_isAmbiguity (by simp [Forest.isAmbiguity])]
    exact ⟨_, (readsAs_placedTree_iff (by simp [Forest.isAmbiguity]) ho.self).mpr ⟨r, hr, rfl⟩,
      Forest.agrees_refl _⟩

/-- A tree is warned of in a slot just if one of its readings is. -/
theorem mem_warnings_placed_iff (ho : Forest.Everywhere Forest.OperatorFixed t) {e : Issue} :
    e ∈ (placed names g slot t).warnings ↔
      ∃ r, t.ReadsAs r ∧ e ∈ (placed names g slot r).warnings := by
  induction t using Forest.induction with
  | ambiguity m ts s ih =>
    rw [placed_ambiguity]
    simp only [OrderedSet.mem_unions_map]
    constructor
    · intro h
      obtain ⟨x, hx, he⟩ := h
      obtain ⟨r, hr, her⟩ := (ih x hx (ho.of_mem_items hx)).mp he
      exact ⟨r, Forest.readsAs_ambiguity_iff.mpr (.inr ⟨x, hx, hr⟩), her⟩
    · intro h
      obtain ⟨r, hr, he⟩ := h
      rcases Forest.readsAs_ambiguity_iff.mp hr with ⟨-, rfl⟩ | ⟨x, hx, hxr⟩
      · rw [placed_of_not_isAmbiguity (by simp [Forest.isAmbiguity])] at he
        exact absurd he (OrderedSet.not_mem_empty e)
      · exact ⟨x, hx, (ih x hx (ho.of_mem_items hx)).mpr ⟨r, hxr, he⟩⟩
  | constant | application | grouping =>
    rw [placed_of_not_isAmbiguity (by simp [Forest.isAmbiguity])]
    have hsame {r : Tree} (hr : Forest.ReadsAs _ r) :
        (placed names g slot r).warnings = _ :=
      (congrArg Warned.warnings (placed_of_not_isAmbiguity hr.unambiguous.self)).trans
        (warnings_placedTree_of_readsAs (by simp [Forest.isAmbiguity]) ho.self hr)
    constructor
    · intro he
      obtain ⟨r, hr⟩ := Forest.exists_readsAs _
      exact ⟨r, hr, (hsame hr).symm ▸ he⟩
    · intro h
      obtain ⟨r, hr, he⟩ := h
      exact hsame hr ▸ he

open Forest (Everywhere OperatorFixed)

theorem keeps_operatorFixed : Keeps names g OperatorFixed where
  singleton _ ha ht := everywhere_singletonTree (fun _ => ha) trivial ht
  withItems {t us} hna _ ht := by
    cases t with
    | application m p ts s => exact absurd rfl (hna m p ts s)
    | constant | ambiguity | grouping => trivial
  application {m p ts s} ht := by
    rw [completed_application]
    cases hs : p.slots with
    | nil => trivial
    | cons slot slots =>
      cases ts with
      | nil => trivial
      | cons x ts =>
        intro hp
        change ¬(filled names g p slot (completed names g x).tree).tree.isAmbiguity
        rw [isAmbiguity_filled, isAmbiguity_completed]
        exact ht hp

/-- Completion makes no operator ambiguous. -/
theorem operatorFixed_completed (ht : Everywhere OperatorFixed t) :
    Everywhere OperatorFixed (completed names g t).tree := keeps_operatorFixed.completed ht

/-- What the function makes of the tree stands for what it makes of the readings of the tree. -/
structure ReadsThrough (f : Tree → Warned) (t : Tree) : Prop where
  sound : ∀ q, (f t).tree.ReadsAs q → ∃ r, t.ReadsAs r ∧ (f r).tree = q
  complete : ∀ r, t.ReadsAs r → ∃ q, (f t).tree.ReadsAs q ∧ (f r).tree.agrees q
  warnings_sound : ∀ e ∈ (f t).warnings, ∃ r, t.ReadsAs r ∧ e ∈ (f r).warnings
  warnings_complete : ∀ r, t.ReadsAs r → ∀ e ∈ (f r).warnings,
    ∃ d ∈ (f t).warnings, e.SameSorts d

theorem readsThrough_placed (ho : Everywhere OperatorFixed t) :
    ReadsThrough (placed names g slot) t where
  sound _ hq := exists_of_readsAs_placed ho hq
  complete _ hr := exists_readsAs_placed ho hr
  warnings_sound _ he := (mem_warnings_placed_iff ho).mp he
  warnings_complete r hr e he := by
    have hplaced : placed names g slot r = placedTree names g slot r :=
      placed_of_not_isAmbiguity hr.unambiguous.self
    rw [hplaced] at he
    obtain ⟨d, hd, hed⟩ := exists_sameSorts_placedTree (Forest.agrees_refl r) he
    rw [← hplaced] at hd
    exact ⟨d, (mem_warnings_placed_iff ho).mpr ⟨r, hr, hd⟩, hed⟩

theorem readsThrough_filled (ho : Everywhere OperatorFixed t) :
    ReadsThrough (filled names g p slot) t := by
  by_cases h : p.expects names && g.isListSort slot
  · have hfilled : filled names g p slot = placed names g slot := funext fun u => if_pos h
    rw [hfilled]
    exact readsThrough_placed ho
  · have hfilled : filled names g p slot = fun u => ⟨u, ∅⟩ := funext fun u => if_neg h
    rw [hfilled]
    exact ⟨fun q hq => ⟨q, hq, rfl⟩, fun r hr => ⟨r, hr, Forest.agrees_refl r⟩,
      fun e he => absurd he (OrderedSet.not_mem_empty e),
      fun _ _ e he => absurd he (OrderedSet.not_mem_empty e)⟩

/-- Of trees that agree and are no ambiguities, the same becomes in a slot. -/
theorem agrees_filled {a b : Tree} (ha : ¬a.isAmbiguity) (hab : a.agrees b) :
    (filled names g p slot a).tree.agrees (filled names g p slot b).tree ∧
      ∀ e ∈ (filled names g p slot a).warnings,
        ∃ d ∈ (filled names g p slot b).warnings, e.SameSorts d := by
  have hb : ¬b.isAmbiguity := (Forest.alike_of_agrees hab).isAmbiguity_eq ▸ ha
  unfold filled
  split
  · rw [placed_of_not_isAmbiguity ha, placed_of_not_isAmbiguity hb]
    exact ⟨agrees_placedTree hab, fun e he => exists_sameSorts_placedTree hab he⟩
  · exact ⟨hab, fun e he => absurd he (OrderedSet.not_mem_empty e)⟩

theorem readsThrough_slotted (h : ReadsThrough (completed names g) t)
    (ho : Everywhere OperatorFixed t) : ReadsThrough (slotted names g p slot) t := by
  have hfill : ReadsThrough (filled names g p slot) (completed names g t).tree :=
    readsThrough_filled (operatorFixed_completed ho)
  have hna {r : Tree} (hr : t.ReadsAs r) : ¬(completed names g r).tree.isAmbiguity := by
    rw [isAmbiguity_completed]
    exact hr.unambiguous.self
  constructor
  · intro q hq
    obtain ⟨u, hu, huq⟩ := hfill.sound q hq
    obtain ⟨r, hr, rfl⟩ := h.sound u hu
    exact ⟨r, hr, huq⟩
  · intro r hr
    obtain ⟨u, hu, hru⟩ := h.complete r hr
    obtain ⟨q, hq, huq⟩ := hfill.complete u hu
    exact ⟨q, hq, Forest.agrees_trans (agrees_filled (hna hr) hru).1 huq⟩
  · intro e he
    obtain ⟨u, hu, heu⟩ := hfill.warnings_sound e he
    obtain ⟨r, hr, rfl⟩ := h.sound u hu
    exact ⟨r, hr, heu⟩
  · intro r hr e he
    obtain ⟨u, hu, hru⟩ := h.complete r hr
    obtain ⟨d, hd, hed⟩ := (agrees_filled (hna hr) hru).2 e he
    obtain ⟨d', hd', hdd⟩ := hfill.warnings_complete u hu d hd
    exact ⟨d', hd', hed.trans hdd⟩

section Completed
variable {m : Unit} {ts : List Tree} {s : Span}

theorem readsThrough_constant {v : Symbol} :
    ReadsThrough (completed names g) (.constant m v p s) := by
  have hread {q : Tree} : Forest.ReadsAs (.constant m v p s) q ↔ q = .constant m v p s :=
    Forest.readsAs_constant_iff
  constructor
  · intro q hq
    rw [completed_constant] at hq
    obtain rfl := hread.mp hq
    exact ⟨_, hread.mpr rfl, by rw [completed_constant]⟩
  · intro r hr
    obtain rfl := hread.mp hr
    exact ⟨_, by rw [completed_constant]; exact hr, Forest.agrees_of_tree_eq rfl⟩
  · intro e he
    rw [completed_constant] at he
    exact absurd he (OrderedSet.not_mem_empty e)
  · intro r hr e he
    obtain rfl := hread.mp hr
    rw [completed_constant] at he
    exact absurd he (OrderedSet.not_mem_empty e)

theorem readsThrough_ambiguity (h : ∀ x ∈ ts, ReadsThrough (completed names g) x) :
    ReadsThrough (completed names g) (.ambiguity m ts s) := by
  constructor
  · intro q hq
    rw [completed_ambiguity] at hq
    rcases Forest.readsAs_ambiguity_iff.mp hq with ⟨hnil, rfl⟩ | ⟨u, hu, hq⟩
    · have hts : ts = [] := List.map_eq_nil_iff.mp (eraseDups_eq_nil_iff.mp hnil)
      refine ⟨_, Forest.readsAs_ambiguity_iff.mpr (.inl ⟨hts, rfl⟩), ?_⟩
      rw [completed_grouping]
      rfl
    · obtain ⟨x, hx, rfl⟩ := List.mem_map.mp (mem_of_mem_eraseDups hu)
      obtain ⟨r, hr, hrq⟩ := (h x hx).sound q hq
      exact ⟨r, Forest.readsAs_ambiguity_iff.mpr (.inr ⟨x, hx, hr⟩), hrq⟩
  · intro r hr
    rw [completed_ambiguity]
    rcases Forest.readsAs_ambiguity_iff.mp hr with ⟨rfl, rfl⟩ | ⟨x, hx, hxr⟩
    · refine ⟨_, Forest.readsAs_ambiguity_iff.mpr (.inl ⟨rfl, rfl⟩), ?_⟩
      rw [completed_grouping]
      exact Forest.agrees_refl _
    · -- What the alternative becomes may have been merged with an equal one.
      obtain ⟨q, hq, hrq⟩ := (h x hx).complete r hxr
      obtain ⟨u, hu, hxu⟩ := Forest.exists_agrees_of_mem
        (List.mem_map_of_mem (f := fun u => (completed names g u).tree) hx)
      obtain ⟨q', hq', hqq⟩ := hq.of_agrees hxu
      exact ⟨q', Forest.readsAs_ambiguity_iff.mpr (.inr ⟨u, hu, hq'⟩),
        Forest.agrees_trans hrq hqq⟩
  · intro e he
    rw [completed_ambiguity] at he
    obtain ⟨x, hx, he⟩ := OrderedSet.mem_unions_map.mp he
    obtain ⟨r, hr, her⟩ := (h x hx).warnings_sound e he
    exact ⟨r, Forest.readsAs_ambiguity_iff.mpr (.inr ⟨x, hx, hr⟩), her⟩
  · intro r hr e he
    rw [completed_ambiguity]
    rcases Forest.readsAs_ambiguity_iff.mp hr with ⟨rfl, rfl⟩ | ⟨x, hx, hxr⟩
    · rw [completed_grouping] at he
      exact absurd he (OrderedSet.not_mem_empty e)
    · obtain ⟨d, hd, hed⟩ := (h x hx).warnings_complete r hxr e he
      exact ⟨d, OrderedSet.mem_unions_map.mpr ⟨x, hx, hd⟩, hed⟩

/-- A warning about a child is one about a reading of the child, which is part of a reading of the
children. -/
theorem exists_readings_of_mem_warnings (h : ∀ x ∈ ts, ReadsThrough (completed names g) x)
    {e : Issue} (he : e ∈ OrderedSet.unions (ts.map fun u => (completed names g u).warnings)) :
    ∃ rs, List.Forall₂ Forest.ReadsAs ts rs ∧
      e ∈ OrderedSet.unions (rs.map fun u => (completed names g u).warnings) := by
  obtain ⟨x, hx, hex⟩ := OrderedSet.mem_unions_map.mp he
  obtain ⟨r, hr, her⟩ := (h x hx).warnings_sound e hex
  obtain ⟨rs, hrs, hm⟩ := exists_forall₂_mem (fun x _ => Forest.exists_readsAs x) hx hr
  exact ⟨rs, hrs, OrderedSet.mem_unions_map.mpr ⟨r, hm, her⟩⟩

theorem exists_sameSorts_of_forall₂ (h : ∀ x ∈ ts, ReadsThrough (completed names g) x)
    {rs : List Tree} (hrs : List.Forall₂ Forest.ReadsAs ts rs) {e : Issue}
    (he : e ∈ OrderedSet.unions (rs.map fun u => (completed names g u).warnings)) :
    ∃ d ∈ OrderedSet.unions (ts.map fun u => (completed names g u).warnings), e.SameSorts d := by
  obtain ⟨r, hr, her⟩ := OrderedSet.mem_unions_map.mp he
  obtain ⟨x, hx, hxr⟩ := forall₂_exists_left hrs hr
  obtain ⟨d, hd, hed⟩ := (h x hx).warnings_complete r hxr e her
  exact ⟨d, OrderedSet.mem_unions_map.mpr ⟨x, hx, hd⟩, hed⟩

theorem readsThrough_grouping (h : ∀ x ∈ ts, ReadsThrough (completed names g) x) :
    ReadsThrough (completed names g) (.grouping m ts s) := by
  constructor
  · intro q hq
    rw [completed_grouping] at hq
    obtain ⟨qs, hqs, rfl⟩ := Forest.readsAs_grouping_iff.mp hq
    have hsound : List.Forall₂ (fun x q => ∃ r, x.ReadsAs r ∧ (completed names g r).tree = q)
        ts qs :=
      forall₂_imp_of_mem (List.forall₂_map_left_iff.mp hqs) fun x hx q _ hq =>
        (h x hx).sound q hq
    obtain ⟨rs, hrs, hmap⟩ := forall₂_between hsound
    have hqs : (rs.map fun u => (completed names g u).tree) = qs := by
      rw [← List.forall₂_eq_eq_eq, List.forall₂_map_left_iff]
      exact hmap
    exact ⟨_, Forest.readsAs_grouping_iff.mpr ⟨rs, hrs, rfl⟩, by rw [completed_grouping, hqs]⟩
  · intro r hr
    obtain ⟨rs, hrs, rfl⟩ := Forest.readsAs_grouping_iff.mp hr
    have hcomplete : List.Forall₂ (fun x r => ∃ q, (completed names g x).tree.ReadsAs q ∧
        (completed names g r).tree.agrees q) ts rs :=
      forall₂_imp_of_mem hrs fun x hx r _ hr => (h x hx).complete r hr
    obtain ⟨qs, hqs, hagree⟩ := forall₂_between
      (S := fun q r => (completed names g r).tree.agrees q) hcomplete
    rw [completed_grouping, completed_grouping]
    refine ⟨_, Forest.readsAs_grouping_iff.mpr ⟨qs, List.forall₂_map_left_iff.mpr hqs, rfl⟩, ?_⟩
    exact Forest.agrees_grouping (List.forall₂_map_left_iff.mpr hagree.flip)
  · intro e he
    rw [completed_grouping] at he
    obtain ⟨rs, hrs, her⟩ := exists_readings_of_mem_warnings h he
    exact ⟨_, Forest.readsAs_grouping_iff.mpr ⟨rs, hrs, rfl⟩, by rwa [completed_grouping]⟩
  · intro r hr e he
    obtain ⟨rs, hrs, rfl⟩ := Forest.readsAs_grouping_iff.mp hr
    rw [completed_grouping] at he ⊢
    exact exists_sameSorts_of_forall₂ h hrs he

theorem readsThrough_application (hlen : ts.length = p.arity)
    (ho : ∀ x ∈ ts, Everywhere OperatorFixed x)
    (h : ∀ x ∈ ts, ReadsThrough (completed names g) x) :
    ReadsThrough (completed names g) (.application m p ts s) := by
  have hslot (slot : SortName) (x : Tree) (hx : x ∈ ts) :
      ReadsThrough (slotted names g p slot) x := readsThrough_slotted (h x hx) (ho x hx)
  constructor
  · intro q hq
    rw [completed_application] at hq
    obtain ⟨qs, hqs, rfl⟩ := Forest.readsAs_application_iff.mp hq
    obtain ⟨rs, hrs, hmap⟩ := exists_forall₂_of_zip_map
      (f := fun slot x => (slotted names g p slot x).tree) hlen hqs
      fun slot x hx q hq => (hslot slot x hx).sound q hq
    exact ⟨_, Forest.readsAs_application_iff.mpr ⟨rs, hrs, rfl⟩,
      by rw [completed_application, hmap]⟩
  · intro r hr
    obtain ⟨rs, hrs, rfl⟩ := Forest.readsAs_application_iff.mp hr
    obtain ⟨qs, hqs, hagree⟩ := forall₂_zip_map_square
      (f := fun slot x => (slotted names g p slot x).tree) (A := fun a b => a.agrees b) hlen hrs
      fun slot x hx r hr => (hslot slot x hx).complete r hr
    rw [completed_application, completed_application]
    exact ⟨_, Forest.readsAs_application_iff.mpr ⟨qs, hqs, rfl⟩,
      Forest.agrees_application hagree⟩
  · intro e he
    rw [completed_application] at he
    rcases OrderedSet.mem_union.mp he with he | he
    · obtain ⟨c, hc, hec⟩ := OrderedSet.mem_unions_map.mp he
      obtain ⟨r, hr, her⟩ := (hslot c.1 c.2 (List.of_mem_zip hc).2).warnings_sound e hec
      obtain ⟨rs, hrs, hm⟩ := exists_forall₂_mem_zip (fun x _ => Forest.exists_readsAs x) hc hr
      refine ⟨_, Forest.readsAs_application_iff.mpr ⟨rs, hrs, rfl⟩, ?_⟩
      rw [completed_application]
      exact OrderedSet.mem_union.mpr (.inl (OrderedSet.mem_unions_map.mpr ⟨_, hm, her⟩))
    · obtain ⟨rs, hrs, her⟩ := exists_readings_of_mem_warnings h he
      refine ⟨_, Forest.readsAs_application_iff.mpr ⟨rs, hrs, rfl⟩, ?_⟩
      rw [completed_application]
      exact OrderedSet.mem_union.mpr (.inr her)
  · intro r hr e he
    obtain ⟨rs, hrs, rfl⟩ := Forest.readsAs_application_iff.mp hr
    rw [completed_application] at he ⊢
    rcases OrderedSet.mem_union.mp he with he | he
    · obtain ⟨⟨slot, r⟩, hc, her⟩ := OrderedSet.mem_unions_map.mp he
      obtain ⟨x, hx, hm, hxr⟩ := exists_mem_zip_of_forall₂ hrs hc
      obtain ⟨d, hd, hed⟩ := (hslot slot x hx).warnings_complete r hxr e her
      exact ⟨d, OrderedSet.mem_union.mpr (.inl (OrderedSet.mem_unions_map.mpr ⟨_, hm, hd⟩)), hed⟩
    · obtain ⟨d, hd, hed⟩ := exists_sameSorts_of_forall₂ h hrs he
      exact ⟨d, OrderedSet.mem_union.mpr (.inr hd), hed⟩

end Completed

/-- Completion of a tree stands for completion of its readings, if no operator is ambiguous. -/
theorem readsThrough_completed (hw : t.WellFormed) (ho : Everywhere OperatorFixed t) :
    ReadsThrough (completed names g) t := by
  induction t using Forest.induction with
  | constant => exact readsThrough_constant
  | application m p ts s ih =>
    exact readsThrough_application hw.self (fun x hx => ho.of_mem_items hx)
      fun x hx => ih x hx (hw.items hx) (ho.of_mem_items hx)
  | ambiguity m ts s ih =>
    exact readsThrough_ambiguity fun x hx => ih x hx (hw.items hx) (ho.of_mem_items hx)
  | grouping m ts s ih =>
    exact readsThrough_grouping fun x hx => ih x hx (hw.items hx) (ho.of_mem_items hx)

end Completion

namespace Ledger
variable {l k : Ledger} {t r : Term} {g : Grammar}

/-- Completing a reading, which may be made later, returns what completion makes of its tree. -/
theorem exists_completion_reading (hg : g.KnownTo l.symbols) (ht : t ∈ l)
    (hr : l.Reading k t r) (memo : Option Memo) :
    ∃ (p : Outcome) (v : Term), k.completion g memo r = .ok p ∧ p.result = .ok v ∧
      v.tree = (Completion.completed l.symbols g r.tree).tree ∧
      p.warnings = (Completion.completed l.symbols g r.tree).warnings := by
  obtain ⟨p, hp, hmap⟩ := exists_completion_eq (hg.of_le (symbols_le hr.le)) hr.mem memo
  have hknown : r.tree.KnownTo l.symbols :=
    hr.reads.knownTo (knownTo_tree_of_le ht (le_refl l))
  rw [Completion.completedOutcome, Completion.completed_of_le hg (symbols_le hr.le) hknown] at hmap
  obtain ⟨v, hv, htree⟩ := Outcome.result_map_eq_ok_iff.mp (congrArg Outcome.result hmap)
  exact ⟨p, v, hp, hv, htree, congrArg Outcome.warnings hmap⟩

/-- Completing a term succeeds and agrees with completing its readings, if no operator is ambiguous:
up to equality the readings of the result are what the readings of the term are completed to,
every warning is given for a reading, and what is warned of in a reading is warned of, perhaps with
another span. -/
theorem completion_refines_readings (hg : g.KnownTo l.symbols) (ht : t ∈ l)
    (ho : t.Everywhere Forest.OperatorFixed) (memo memo' : Option Memo) :
    ∃ (o : Outcome) (u : Term), l.completion g memo t = .ok o ∧ o.result = .ok u ∧
      (∀ q : Tree, u.tree.ReadsAs q → ∃ k r, l.Reading k t r ∧
        ∃ (p : Outcome) (v : Term), k.completion g memo' r = .ok p ∧ p.result = .ok v ∧
          q.agrees v.tree) ∧
      (∀ k r, l.Reading k t r → ∃ (p : Outcome) (v : Term), k.completion g memo' r = .ok p ∧
        p.result = .ok v ∧ ∃ q : Tree, u.tree.ReadsAs q ∧ v.tree.agrees q) ∧
      (∀ e ∈ o.warnings, ∃ k r, l.Reading k t r ∧
        ∃ p : Outcome, k.completion g memo' r = .ok p ∧ e ∈ p.warnings) ∧
      (∀ k r, l.Reading k t r → ∀ p : Outcome, k.completion g memo' r = .ok p →
        ∀ e ∈ p.warnings, ∃ d ∈ o.warnings, e.SameSorts d) := by
  have hw : t.tree.WellFormed := Forest.wellFormed_tree.mpr (wellFormed_of_mem ht)
  have hfixed : t.tree.Everywhere Forest.OperatorFixed :=
    (Forest.everywhere_tree fun _ => Forest.operatorFixed_tree.symm).mpr ho
  have hthrough : Completion.ReadsThrough (Completion.completed l.symbols g) t.tree :=
    Completion.readsThrough_completed hw hfixed
  obtain ⟨o, hrun, hmap⟩ := exists_completion_eq hg ht memo
  obtain ⟨u, hu, htree⟩ := Outcome.result_map_eq_ok_iff.mp (congrArg Outcome.result hmap)
  have hwarnings : o.warnings = (Completion.completed l.symbols g t.tree).warnings :=
    congrArg Outcome.warnings hmap
  refine ⟨o, u, hrun, hu, ?_, ?_, ?_, ?_⟩
  · intro q hq
    obtain ⟨r, hr, hrq⟩ := hthrough.sound q (htree ▸ hq)
    obtain ⟨k, r, hread, rfl⟩ := exists_reading ht hr
    obtain ⟨p, v, hp, hv, hvtree, -⟩ := exists_completion_reading hg ht hread memo'
    refine ⟨k, r, hread, p, v, hp, hv, ?_⟩
    rw [hvtree, hrq]
    exact Forest.agrees_refl q
  · intro k r hread
    obtain ⟨p, v, hp, hv, hvtree, -⟩ := exists_completion_reading hg ht hread memo'
    obtain ⟨q, hq, hagree⟩ := hthrough.complete r.tree hread.reads
    exact ⟨p, v, hp, hv, q, htree.symm ▸ hq, hvtree.symm ▸ hagree⟩
  · intro e he
    obtain ⟨r, hr, her⟩ := hthrough.warnings_sound e (hwarnings ▸ he)
    obtain ⟨k, r, hread, rfl⟩ := exists_reading ht hr
    obtain ⟨p, v, hp, -, -, hpw⟩ := exists_completion_reading hg ht hread memo'
    exact ⟨k, r, hread, p, hp, hpw.symm ▸ her⟩
  · intro k r hread p hp e he
    obtain ⟨p', v, hp', -, -, hpw⟩ := exists_completion_reading hg ht hread memo'
    rw [hp] at hp'
    obtain rfl := Except.ok.inj hp'
    rw [hwarnings]
    exact hthrough.warnings_complete r.tree hread.reads e (hpw ▸ he)

/-- The sort of elements and the sort of their lists. -/
def elementSort : SortName := ⟨⟨10⟩⟩

def listSort : SortName := ⟨⟨11⟩⟩

def listEnd : Production := ⟨listSort, [], some ⟨⟨12⟩⟩, ∅⟩

def listCons : Production :=
  ⟨listSort, [.nonterminal elementSort, .nonterminal listSort], some ⟨⟨13⟩⟩, ∅⟩

/-- Makes an element of a list. -/
def ofList : Production := ⟨elementSort, [.nonterminal listSort], some ⟨⟨14⟩⟩, ∅⟩

/-- One list sort, which its elements are a subsort of. -/
def listGrammar : Grammar where
  subsorts := ⟨[elementSort, listSort], #[2, 0], rfl⟩
  lists := ⟨[{
    sort := listSort
    element := elementSort
    terminator := listEnd
    cons := listCons
    terminator_sort := rfl
    cons_sort := rfl
    terminator_arity := rfl
    cons_slots := rfl }]⟩
  labeled := [listEnd, listCons, ofList]

/-- A ledger with the strings of the grammar. -/
def listNames : Ledger :=
  ["Exp", "Exps", ".Exps", "_,_", "f"].foldl intern initial

theorem knownTo_listGrammar : listGrammar.KnownTo listNames.symbols :=
  ⟨by decide, by decide, by decide⟩

def element : Tree := .constant () .bracket ⟨elementSort, [], none, ∅⟩ .unknown

/-- The slot of a list sort holds an ambiguity between an element and an empty list. -/
def loneElement : Tree :=
  .application () ofList
    [.ambiguity () [element, .application () listEnd [] .unknown] .unknown] .unknown

theorem completion_refines_readings_loneElement : ∃ (l : Ledger) (t : Term), t ∈ l ∧
    t.tree = loneElement ∧ ∃ (o : Outcome) (u : Term), l.completion listGrammar none t = .ok o ∧
      o.result = .ok u ∧ ∀ q : Tree, u.tree.ReadsAs q → ∃ k r, l.Reading k t r ∧
        ∃ (p : Outcome) (v : Term), k.completion listGrammar none r = .ok p ∧ p.result = .ok v ∧
          q.agrees v.tree := by
  obtain ⟨l, t, hl, ht, htree⟩ :=
    exists_stores (l := listNames) (r := loneElement) (by decide) (by decide)
  have hg : listGrammar.KnownTo l.symbols :=
    Grammar.KnownTo.of_le ⟨by decide, by decide, by decide⟩ (symbols_le hl)
  have ho : t.Everywhere Forest.OperatorFixed := by
    refine (Forest.everywhere_tree fun _ => Forest.operatorFixed_tree.symm).mp ?_
    rw [htree]
    decide
  obtain ⟨o, u, hrun, hu, hsound, -⟩ := completion_refines_readings hg ht ho none none
  exact ⟨l, t, ht, htree, o, u, hrun, hu, hsound⟩

end Ledger
end ParseForest
