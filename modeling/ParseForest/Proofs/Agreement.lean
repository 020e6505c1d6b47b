import ParseForest.Forest.Agreement
import ParseForest.Forest.Fingerprint
import ParseForest.Proofs.Lists
import ParseForest.Proofs.Occurrence

/-!
# Agreement is an equivalence

Agreement is reflexive and transitive on all forests. It is symmetric when the
alternatives of an ambiguity differ: then no two of them can agree with one
alternative of the other ambiguity, so lists of equal length pair off. The same
pairing shows that forests which agree have the same fingerprint.
-/
namespace ParseForest

/-- The order of alternatives does not matter to a fingerprint. -/
theorem Fingerprint.ambiguity_eq_of_perm {ms ns : List Nat} (h : ms.Perm ns) :
    Fingerprint.nodes.ambiguity ms = Fingerprint.nodes.ambiguity ns := by
  have hsum : ms.foldl (· + ·) 0 = ns.foldl (· + ·) 0 := by
    rw [← List.sum_eq_foldl_nat, ← List.sum_eq_foldl_nat, h.sum_nat]
  unfold Fingerprint.nodes
  dsimp only
  rw [h.length_eq, hsum]

namespace Forest
variable {ι κ μ : Type}

theorem agrees_constant_left {m : ι} {v : Symbol} {p : Production} {s : Span} {b : Forest κ} :
    agrees (constant m v p s) b ↔ ∃ n r, b = constant n v p r := by
  cases b with
  | constant n w q r =>
    rw [agrees_constant_iff]
    constructor
    · rintro ⟨rfl, rfl⟩
      exact ⟨n, r, rfl⟩
    · rintro ⟨_, _, h⟩
      injection h with _ hv hp
      exact ⟨hv.symm, hp.symm⟩
  | _ => simp [agrees, agreesBy]

theorem agrees_application_left {m : ι} {p : Production} {xs : List (Forest ι)} {s : Span}
    {b : Forest κ} : agrees (application m p xs s) b ↔
      ∃ n ys r, b = application n p ys r ∧ List.Forall₂ (fun x y => x.agrees y) xs ys := by
  cases b with
  | application n q ys r =>
    rw [agrees_application_iff]
    constructor
    · rintro ⟨rfl, hlen, h⟩
      exact ⟨n, ys, r, rfl, List.forall₂_iff_zip.mpr ⟨hlen, fun hab => h _ hab⟩⟩
    · rintro ⟨_, _, _, h, hf⟩
      injection h with _ hq hys
      subst hq hys
      exact ⟨rfl, hf.length_eq, fun a ha => List.forall₂_zip hf ha⟩
  | _ => simp [agrees, agreesBy]

theorem agrees_ambiguity_left {m : ι} {xs : List (Forest ι)} {s : Span} {b : Forest κ} :
    agrees (ambiguity m xs s) b ↔ ∃ n ys r, b = ambiguity n ys r ∧ xs.length = ys.length ∧
      ∀ x ∈ xs, ∃ y ∈ ys, x.agrees y := by
  cases b with
  | ambiguity n ys r =>
    rw [agrees_ambiguity_iff]
    constructor
    · intro h
      exact ⟨n, ys, r, rfl, h⟩
    · rintro ⟨_, _, _, h, hlen, hex⟩
      injection h with _ hys
      subst hys
      exact ⟨hlen, hex⟩
  | _ => simp [agrees, agreesBy]

theorem agrees_grouping_left {m : ι} {xs : List (Forest ι)} {s : Span} {b : Forest κ} :
    agrees (grouping m xs s) b ↔
      ∃ n ys r, b = grouping n ys r ∧ List.Forall₂ (fun x y => x.agrees y) xs ys := by
  cases b with
  | grouping n ys r =>
    rw [agrees_grouping_iff]
    constructor
    · rintro ⟨hlen, h⟩
      exact ⟨n, ys, r, rfl, List.forall₂_iff_zip.mpr ⟨hlen, fun hab => h _ hab⟩⟩
    · rintro ⟨_, _, _, h, hf⟩
      injection h with _ hys
      subst hys
      exact ⟨hf.length_eq, fun a ha => List.forall₂_zip hf ha⟩
  | _ => simp [agrees, agreesBy]

theorem agrees_application {m : ι} {n : κ} {p : Production} {xs : List (Forest ι)}
    {ys : List (Forest κ)} {s r : Span} (h : List.Forall₂ (fun x y => x.agrees y) xs ys) :
    (application m p xs s).agrees (application n p ys r) :=
  agrees_application_left.mpr ⟨n, ys, r, rfl, h⟩

theorem agrees_grouping {m : ι} {n : κ} {xs : List (Forest ι)} {ys : List (Forest κ)}
    {s r : Span} (h : List.Forall₂ (fun x y => x.agrees y) xs ys) :
    (grouping m xs s).agrees (grouping n ys r) :=
  agrees_grouping_left.mpr ⟨n, ys, r, rfl, h⟩

/-- Forests that differ in marks only agree. -/
theorem agrees_of_tree_eq {a : Forest ι} {b : Forest κ} (h : a.tree = b.tree) : a.agrees b := by
  have pairs {xs : List (Forest ι)} {ys : List (Forest κ)} (he : xs.map tree = ys.map tree)
      (ih : ∀ x ∈ xs, ∀ {y : Forest κ}, x.tree = y.tree → x.agrees y) :
      List.Forall₂ (fun x y => x.agrees y) xs ys := by
    rw [← List.forall₂_eq_eq_eq, List.forall₂_map_left_iff, List.forall₂_map_right_iff] at he
    exact forall₂_imp_of_mem he fun x hx y _ hxy => ih x hx hxy
  induction a generalizing b with
  | constant m v p s =>
    cases b with
    | constant n w q r =>
      simp only [tree_constant, constant.injEq, true_and] at h
      obtain ⟨rfl, rfl, rfl⟩ := h
      exact agrees_constant_left.mpr ⟨n, s, rfl⟩
    | _ => simp at h
  | application m p xs s ih =>
    cases b with
    | application n q ys r =>
      simp only [tree_application, application.injEq, true_and] at h
      obtain ⟨rfl, he, rfl⟩ := h
      exact agrees_application (pairs he ih)
    | _ => simp at h
  | ambiguity m xs s ih =>
    cases b with
    | ambiguity n ys r =>
      simp only [tree_ambiguity, ambiguity.injEq, true_and] at h
      have hf := pairs h.1 ih
      exact agrees_ambiguity_iff.mpr ⟨hf.length_eq, fun x hx => forall₂_exists_right hf hx⟩
    | _ => simp at h
  | grouping m xs s ih =>
    cases b with
    | grouping n ys r =>
      simp only [tree_grouping, grouping.injEq, true_and] at h
      exact agrees_grouping (pairs h.1 ih)
    | _ => simp at h

@[simp] theorem agrees_refl (t : Forest ι) : t.agrees t := agrees_of_tree_eq rfl

theorem pairwiseBy_congr {known known' : Forest ι → Forest κ → Option Bool} {xs : List (Forest ι)}
    {ys : List (Forest κ)} (h : ∀ x ∈ xs, ∀ y ∈ ys, agreesBy known x y = agreesBy known' x y) :
    pairwiseBy known xs ys = pairwiseBy known' xs ys := by
  induction xs generalizing ys with
  | nil => cases ys <;> rfl
  | cons x xs ih =>
    cases ys with
    | nil => rfl
    | cons y ys =>
      have htail := ih fun x' hx' y' hy' =>
        h x' (List.mem_cons_of_mem _ hx') y' (List.mem_cons_of_mem _ hy')
      rw [pairwiseBy, pairwiseBy, h x List.mem_cons_self y List.mem_cons_self, htail]

theorem includedBy_congr {known known' : Forest ι → Forest κ → Option Bool} {xs : List (Forest ι)}
    {ys : List (Forest κ)} (h : ∀ x ∈ xs, ∀ y ∈ ys, agreesBy known x y = agreesBy known' x y) :
    includedBy known xs ys = includedBy known' xs ys := by
  rw [Bool.eq_iff_iff, includedBy_iff, includedBy_iff]
  constructor
  · intro hxy x hx
    obtain ⟨y, hy, hr⟩ := hxy x hx
    exact ⟨y, hy, h x hx y hy ▸ hr⟩
  · intro hxy x hx
    obtain ⟨y, hy, hr⟩ := hxy x hx
    exact ⟨y, hy, (h x hx y hy).symm ▸ hr⟩

theorem agreesBy_of_known {known : Forest ι → Forest κ → Option Bool} {a : Forest ι}
    {b : Forest κ} {answer : Bool} (h : known a b = some answer) : agreesBy known a b = answer := by
  unfold agreesBy
  simp only [h]

/-- Answers that are known beforehand change nothing if they are right. -/
theorem agreesBy_eq_agrees {known : Forest ι → Forest κ → Option Bool} {a : Forest ι}
    {b : Forest κ} (h : ∀ x y, Occurs x a → Occurs y b → ∀ answer, known x y = some answer →
      answer = x.agrees y) : agreesBy known a b = a.agrees b := by
  induction a generalizing b with
  | constant m v p s =>
    cases hk : known (constant m v p s) b with
    | some answer =>
      rw [agreesBy_of_known hk]
      exact h _ _ .refl .refl answer hk
    | none => cases b <;> simp [agreesBy, hk, agrees]
  | application m p xs s ih =>
    cases hk : known (application m p xs s) b with
    | some answer =>
      rw [agreesBy_of_known hk]
      exact h _ _ .refl .refl answer hk
    | none =>
      cases b with
      | application n q ys r =>
        have hpair : pairwiseBy known xs ys = pairwiseBy (fun _ _ => none) xs ys :=
          pairwiseBy_congr fun x hx y hy =>
            ih x hx fun x' y' hx' hy' => h x' y' (.child hx hx') (.child hy hy')
        simp only [agreesBy, hk, agrees, hpair]
      | _ => simp [agreesBy, hk, agrees]
  | ambiguity m xs s ih =>
    cases hk : known (ambiguity m xs s) b with
    | some answer =>
      rw [agreesBy_of_known hk]
      exact h _ _ .refl .refl answer hk
    | none =>
      cases b with
      | ambiguity n ys r =>
        have hincl : includedBy known xs ys = includedBy (fun _ _ => none) xs ys :=
          includedBy_congr fun x hx y hy =>
            ih x hx fun x' y' hx' hy' => h x' y' (.child hx hx') (.child hy hy')
        simp only [agreesBy, hk, agrees, hincl]
      | _ => simp [agreesBy, hk, agrees]
  | grouping m xs s ih =>
    cases hk : known (grouping m xs s) b with
    | some answer =>
      rw [agreesBy_of_known hk]
      exact h _ _ .refl .refl answer hk
    | none =>
      cases b with
      | grouping n ys r =>
        have hpair : pairwiseBy known xs ys = pairwiseBy (fun _ _ => none) xs ys :=
          pairwiseBy_congr fun x hx y hy =>
            ih x hx fun x' y' hx' hy' => h x' y' (.child hx hx') (.child hy hy')
        simp only [agreesBy, hk, agrees, hpair]
      | _ => simp [agreesBy, hk, agrees]

theorem agrees_trans {a : Forest ι} {b : Forest κ} {c : Forest μ} (hab : a.agrees b)
    (hbc : b.agrees c) : a.agrees c := by
  induction a generalizing b c with
  | constant m v p s =>
    obtain ⟨n, r, rfl⟩ := agrees_constant_left.mp hab
    obtain ⟨n', r', rfl⟩ := agrees_constant_left.mp hbc
    exact agrees_constant_left.mpr ⟨n', r', rfl⟩
  | application m p xs s ih =>
    obtain ⟨n, ys, r, rfl, hxy⟩ := agrees_application_left.mp hab
    obtain ⟨n', zs, r', rfl, hyz⟩ := agrees_application_left.mp hbc
    exact agrees_application (forall₂_trans hxy hyz fun x hx y z => ih x hx)
  | ambiguity m xs s ih =>
    obtain ⟨n, ys, r, rfl, hlen, hxy⟩ := agrees_ambiguity_left.mp hab
    obtain ⟨n', zs, r', rfl, hlen', hyz⟩ := agrees_ambiguity_left.mp hbc
    refine agrees_ambiguity_left.mpr ⟨n', zs, r', rfl, hlen.trans hlen', fun x hx => ?_⟩
    obtain ⟨y, hy, hr⟩ := hxy x hx
    obtain ⟨z, hz, hr'⟩ := hyz y hy
    exact ⟨z, hz, ih x hx hr hr'⟩
  | grouping m xs s ih =>
    obtain ⟨n, ys, r, rfl, hxy⟩ := agrees_grouping_left.mp hab
    obtain ⟨n', zs, r', rfl, hyz⟩ := agrees_grouping_left.mp hbc
    exact agrees_grouping (forall₂_trans hxy hyz fun x hx y z => ih x hx)

/-- What holds of a node that a constructor accepted: an application has one child for each slot,
and no alternative of an ambiguity agrees with one before it. -/
def NodeWellFormed : Forest ι → Prop
  | application _ p items _ => items.length = p.arity
  | ambiguity _ items _ => items.Pairwise fun x y => ¬y.agrees x
  | _ => True

instance : DecidablePred (NodeWellFormed : Forest ι → Prop)
  | constant .. => .isTrue trivial
  | application _ p items _ => inferInstanceAs (Decidable (items.length = p.arity))
  | ambiguity _ items _ => inferInstanceAs (Decidable (items.Pairwise fun x y => ¬y.agrees x))
  | grouping .. => .isTrue trivial

/-- Every node that occurs in the forest was accepted by its constructor. -/
abbrev WellFormed (t : Forest ι) : Prop := Everywhere NodeWellFormed t

theorem WellFormed.items {t u : Forest ι} (h : t.WellFormed) (hu : u ∈ t.items) : u.WellFormed :=
  h.of_mem_items hu

/-- If no member agrees with one before it, then no two agree with the same forest. -/
theorem pairwise_not_agrees {xs : List (Forest ι)} (h : xs.Pairwise fun x x' => ¬x'.agrees x)
    (hsymm : ∀ x ∈ xs, ∀ y : Forest κ, x.agrees y → y.agrees x) :
    xs.Pairwise fun x x' => ∀ y : Forest κ, x.agrees y → ¬x'.agrees y := by
  refine List.Pairwise.imp_of_mem ?_ h
  intro x x' hx _ hne y hxy hxy'
  exact hne (agrees_trans hxy' (hsymm x hx y hxy))

/-- The alternatives of ambiguities that agree can be paired off. -/
theorem exists_perm_of_agrees {m : ι} {n : κ} {xs : List (Forest ι)} {ys : List (Forest κ)}
    {s r : Span} (hsymm : ∀ x ∈ xs, ∀ y : Forest κ, x.agrees y → y.agrees x)
    (hx : NodeWellFormed (ambiguity m xs s)) (h : (ambiguity m xs s).agrees (ambiguity n ys r)) :
    ∃ zs : List (Forest κ), zs.Perm ys ∧ List.Forall₂ (fun x y => x.agrees y) xs zs := by
  obtain ⟨hlen, hex⟩ := agrees_ambiguity_iff.mp h
  exact exists_perm_forall₂ hlen hex (pairwise_not_agrees hx hsymm)

theorem agrees_symm {a : Forest ι} {b : Forest κ} (ha : a.WellFormed) (h : a.agrees b) :
    b.agrees a := by
  induction a generalizing b with
  | constant m v p s =>
    obtain ⟨n, r, rfl⟩ := agrees_constant_left.mp h
    exact agrees_constant_left.mpr ⟨m, s, rfl⟩
  | application m p xs s ih =>
    obtain ⟨n, ys, r, rfl, hxy⟩ := agrees_application_left.mp h
    refine agrees_application (List.Forall₂.flip ?_)
    exact forall₂_imp_of_mem hxy fun x hx y _ hr => ih x hx (ha.items hx) hr
  | ambiguity m xs s ih =>
    obtain ⟨n, ys, r, rfl, hlen, hex⟩ := agrees_ambiguity_left.mp h
    have hsymm : ∀ x ∈ xs, ∀ y : Forest κ, x.agrees y → y.agrees x :=
      fun x hx y hr => ih x hx (ha.items hx) hr
    obtain ⟨zs, hperm, hf⟩ := exists_perm_of_agrees hsymm ha.self h
    refine agrees_ambiguity_left.mpr ⟨m, xs, s, rfl, hlen.symm, fun y hy => ?_⟩
    obtain ⟨x, hx, hr⟩ := forall₂_exists_left hf (hperm.mem_iff.mpr hy)
    exact ⟨x, hx, hsymm x hx y hr⟩
  | grouping m xs s ih =>
    obtain ⟨n, ys, r, rfl, hxy⟩ := agrees_grouping_left.mp h
    refine agrees_grouping (List.Forall₂.flip ?_)
    exact forall₂_imp_of_mem hxy fun x hx y _ hr => ih x hx (ha.items hx) hr

/-- Agreement does not look at marks. -/
theorem agrees_tree (a : Forest ι) (b : Forest κ) : a.tree.agrees b.tree = a.agrees b := by
  rw [Bool.eq_iff_iff]
  constructor
  · intro h
    have ha : a.agrees a.tree := agrees_of_tree_eq (tree_tree a).symm
    exact agrees_trans (agrees_trans ha h) (agrees_of_tree_eq (tree_tree b))
  · intro h
    have hb : b.agrees b.tree := agrees_of_tree_eq (tree_tree b).symm
    exact agrees_trans (agrees_trans (agrees_of_tree_eq (tree_tree a)) h) hb

/-- Forests that agree have the same summary, if the order of alternatives does not matter to it. -/
theorem summary_eq_of_agrees {ω : Type} {f : Summary ω}
    (hf : ∀ {ms ns : List ω}, ms.Perm ns → f.ambiguity ms = f.ambiguity ns)
    {a : Forest ι} {b : Forest κ} (ha : a.WellFormed) (h : a.agrees b) : f.of a = f.of b := by
  have maps {xs : List (Forest ι)} {ys : List (Forest κ)}
      (ih : ∀ x ∈ xs, ∀ y : Forest κ, x.agrees y → f.of x = f.of y)
      (hxy : List.Forall₂ (fun x y => x.agrees y) xs ys) : xs.map f.of = ys.map f.of := by
    rw [← List.forall₂_eq_eq_eq, List.forall₂_map_left_iff, List.forall₂_map_right_iff]
    exact forall₂_imp_of_mem hxy fun x hx y _ hr => ih x hx y hr
  induction a generalizing b with
  | constant m v p s =>
    obtain ⟨n, r, rfl⟩ := agrees_constant_left.mp h
    rw [Summary.of, Summary.of]
  | application m p xs s ih =>
    obtain ⟨n, ys, r, rfl, hxy⟩ := agrees_application_left.mp h
    rw [Summary.of, Summary.of, Summary.ofAll_eq, Summary.ofAll_eq,
      maps (fun x hx y hr => ih x hx (ha.items hx) hr) hxy]
  | ambiguity m xs s ih =>
    obtain ⟨n, ys, r, rfl, hlen, -⟩ := agrees_ambiguity_left.mp h
    have hsymm : ∀ x ∈ xs, ∀ y : Forest κ, x.agrees y → y.agrees x :=
      fun x hx y hr => agrees_symm (ha.items hx) hr
    obtain ⟨zs, hperm, hxz⟩ := exists_perm_of_agrees hsymm ha.self h
    have hmap := maps (fun x hx y hr => ih x hx (ha.items hx) hr) hxz
    rw [Summary.of, Summary.of, Summary.ofAll_eq, Summary.ofAll_eq, hmap]
    exact hf (hperm.map f.of)
  | grouping m xs s ih =>
    obtain ⟨n, ys, r, rfl, hxy⟩ := agrees_grouping_left.mp h
    rw [Summary.of, Summary.of, Summary.ofAll_eq, Summary.ofAll_eq,
      maps (fun x hx y hr => ih x hx (ha.items hx) hr) hxy]

theorem fingerprint_eq_of_agrees {a : Forest ι} {b : Forest κ} (ha : a.WellFormed)
    (h : a.agrees b) : Fingerprint.nodes.of a = Fingerprint.nodes.of b :=
  summary_eq_of_agrees Fingerprint.ambiguity_eq_of_perm ha h

end Forest
end ParseForest
