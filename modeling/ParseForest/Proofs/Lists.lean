import Mathlib.Data.Fintype.EquivFin
import Mathlib.Data.List.FinRange
import Mathlib.Data.List.Forall2

/-!
# Lists related member by member

Facts about lists whose members are related one to one, and about the first
members of the classes of an equality test, which is only assumed to be
reflexive.
-/
namespace ParseForest
variable {α β γ δ : Type}

section Related
variable {R : α → β → Prop} {S : β → γ → Prop} {T : α → γ → Prop}

theorem forall₂_exists {xs : List α} (h : ∀ x ∈ xs, ∃ y, R x y) : ∃ ys, List.Forall₂ R xs ys := by
  induction xs with
  | nil => exact ⟨[], .nil⟩
  | cons x xs ih =>
    obtain ⟨y, hy⟩ := h x List.mem_cons_self
    obtain ⟨ys, hys⟩ := ih fun x' hx' => h x' (List.mem_cons_of_mem _ hx')
    exact ⟨y :: ys, .cons hy hys⟩

theorem forall₂_exists_right {xs : List α} {ys : List β} (h : List.Forall₂ R xs ys) {x : α}
    (hx : x ∈ xs) : ∃ y ∈ ys, R x y := by
  induction h with
  | nil => cases hx
  | cons hr _ ih =>
    rcases List.mem_cons.mp hx with rfl | hx
    · exact ⟨_, List.mem_cons_self, hr⟩
    · obtain ⟨y, hy, hxy⟩ := ih hx
      exact ⟨y, List.mem_cons_of_mem _ hy, hxy⟩

theorem forall₂_exists_left {xs : List α} {ys : List β} (h : List.Forall₂ R xs ys) {y : β}
    (hy : y ∈ ys) : ∃ x ∈ xs, R x y := forall₂_exists_right h.flip hy

/-- Some member of a list has a property just if the member that is related to it has another. -/
theorem exists_mem_iff_of_forall₂ {P : α → Prop} {Q : β → Prop} {xs : List α} {ys : List β}
    (h : List.Forall₂ (fun x y => P x ↔ Q y) xs ys) : (∃ x ∈ xs, P x) ↔ ∃ y ∈ ys, Q y := by
  induction h with
  | nil => simp
  | cons hxy _ ih => rw [List.exists_mem_cons_iff, List.exists_mem_cons_iff, hxy, ih]

theorem forall_mem_iff_of_forall₂ {P : α → Prop} {Q : β → Prop} {xs : List α} {ys : List β}
    (h : List.Forall₂ (fun x y => P x ↔ Q y) xs ys) : (∀ x ∈ xs, P x) ↔ ∀ y ∈ ys, Q y := by
  induction h with
  | nil => simp
  | cons hxy _ ih => rw [List.forall_mem_cons, List.forall_mem_cons, hxy, ih]

theorem forall₂_iff_forall_mem {P : α → Prop} {xs : List α} {ys : List β}
    (h : List.Forall₂ (fun x y => P x ↔ R x y) xs ys) :
    List.Forall₂ R xs ys ↔ ∀ x ∈ xs, P x := by
  induction h with
  | nil => simp
  | cons hxy _ ih => rw [List.forall₂_cons, List.forall_mem_cons, hxy, ih]

theorem forall₂_imp_of_mem {R' : α → β → Prop} {xs : List α} {ys : List β}
    (h : List.Forall₂ R xs ys) (hi : ∀ x ∈ xs, ∀ y ∈ ys, R x y → R' x y) :
    List.Forall₂ R' xs ys := by
  induction h with
  | nil => exact .nil
  | cons hr _ ih =>
    refine .cons (hi _ List.mem_cons_self _ List.mem_cons_self hr) (ih ?_)
    intro x hx y hy
    exact hi x (List.mem_cons_of_mem _ hx) y (List.mem_cons_of_mem _ hy)

theorem forall₂_trans {xs : List α} {ys : List β} {zs : List γ} (hxy : List.Forall₂ R xs ys)
    (hyz : List.Forall₂ S ys zs) (h : ∀ x ∈ xs, ∀ y z, R x y → S y z → T x z) :
    List.Forall₂ T xs zs := by
  induction hxy generalizing zs with
  | nil =>
    cases hyz
    exact .nil
  | cons hr _ ih =>
    cases hyz with
    | cons hs hyz' =>
      refine .cons (h _ List.mem_cons_self _ _ hr hs) (ih hyz' ?_)
      intro x hx y z
      exact h x (List.mem_cons_of_mem _ hx) y z

/-- If the members of two lists are related by way of something, there is a list of that between. -/
theorem forall₂_between {xs : List α} {zs : List γ}
    (h : List.Forall₂ (fun x z => ∃ y, R x y ∧ S y z) xs zs) :
    ∃ ys, List.Forall₂ R xs ys ∧ List.Forall₂ S ys zs := by
  induction h with
  | nil => exact ⟨[], .nil, .nil⟩
  | cons hxz _ ih =>
    obtain ⟨y, hr, hs⟩ := hxz
    obtain ⟨ys, hrs, hss⟩ := ih
    exact ⟨y :: ys, .cons hr hrs, .cons hs hss⟩

theorem mapM_eq_some_iff_forall₂ {f : α → Option β} {xs : List α} {ys : List β} :
    xs.mapM f = some ys ↔ List.Forall₂ (fun x y => f x = some y) xs ys := by
  induction xs generalizing ys with
  | nil => simp [eq_comm]
  | cons x xs ih =>
    rw [List.mapM_cons, List.forall₂_cons_left_iff]
    simp only [Option.pure_def, Option.bind_eq_bind, Option.bind_eq_some_iff, Option.some.injEq,
      ih, eq_comm (b := ys), exists_and_left]

/-- Three sides of a square of lists are completed by a fourth. -/
theorem forall₂_square {U : α → γ → Prop} {V : γ → δ → Prop} {W : β → δ → Prop}
    {xs : List α} {ys : List β} {zs : List γ} (hxy : List.Forall₂ R xs ys)
    (hxz : List.Forall₂ U xs zs)
    (h : ∀ x ∈ xs, ∀ y z, R x y → U x z → ∃ w, W y w ∧ V z w) :
    ∃ ws, List.Forall₂ W ys ws ∧ List.Forall₂ V zs ws := by
  induction hxy generalizing zs with
  | nil =>
    cases hxz
    exact ⟨[], .nil, .nil⟩
  | cons hr _ ih =>
    cases hxz with
    | cons hu hxz' =>
      obtain ⟨w, hw, hv⟩ := h _ List.mem_cons_self _ _ hr hu
      obtain ⟨ws, hws, hvs⟩ := ih hxz' fun x hx => h x (List.mem_cons_of_mem _ hx)
      exact ⟨w :: ws, .cons hw hws, .cons hv hvs⟩

/-- A fourth side of a square of lists follows from the other three, if it does for each member. -/
theorem forall₂_opposite {U : α → γ → Prop} {V : β → δ → Prop} {W : γ → δ → Prop}
    {xs : List α} {ys : List β} {zs : List γ} {ws : List δ} (hxy : List.Forall₂ R xs ys)
    (hxz : List.Forall₂ U xs zs) (hyw : List.Forall₂ V ys ws)
    (h : ∀ x ∈ xs, ∀ y ∈ ys, ∀ z w, R x y → U x z → V y w → W z w) : List.Forall₂ W zs ws := by
  induction hxy generalizing zs ws with
  | nil =>
    cases hxz
    cases hyw
    exact .nil
  | cons hr _ ih =>
    cases hxz with
    | cons hu hxz' =>
      cases hyw with
      | cons hv hyw' =>
        refine .cons (h _ List.mem_cons_self _ List.mem_cons_self _ _ hr hu hv) (ih hxz' hyw' ?_)
        intro x hx y hy
        exact h x (List.mem_cons_of_mem _ hx) y (List.mem_cons_of_mem _ hy)

/-- If each member of `xs` is related to one of `ys`, and no two members to the same one, then
different positions in `xs` lead to different positions of related members in `ys`. -/
theorem exists_injective {xs : List α} {ys : List β} (hex : ∀ x ∈ xs, ∃ y ∈ ys, R x y)
    (hne : xs.Pairwise fun x x' => ∀ y, R x y → ¬R x' y) :
    ∃ f : Fin xs.length → Fin ys.length, f.Injective ∧ ∀ i, R xs[i] ys[f i] := by
  have position (i : Fin xs.length) : ∃ j : Fin ys.length, R xs[i] ys[j] := by
    obtain ⟨y, hy, hr⟩ := hex xs[i] (List.getElem_mem i.isLt)
    obtain ⟨j, hj, rfl⟩ := List.getElem_of_mem hy
    exact ⟨⟨j, hj⟩, hr⟩
  choose f hf using position
  rw [List.pairwise_iff_getElem] at hne
  refine ⟨f, fun i j hij => ?_, hf⟩
  rcases Nat.lt_trichotomy i j with hlt | heq | hlt
  · exact absurd (hij ▸ hf j) (hne i j i.isLt j.isLt hlt _ (hf i))
  · exact Fin.ext heq
  · exact absurd (hij ▸ hf i) (hne j i j.isLt i.isLt hlt _ (hf j))

theorem length_le_of_pairwise {xs : List α} {ys : List β} (hex : ∀ x ∈ xs, ∃ y ∈ ys, R x y)
    (hne : xs.Pairwise fun x x' => ∀ y, R x y → ¬R x' y) : xs.length ≤ ys.length := by
  obtain ⟨f, hf, -⟩ := exists_injective hex hne
  simpa using Fintype.card_le_of_injective f hf

/-- The positions of equally long lists correspond. -/
theorem exists_bijective {xs : List α} {ys : List β} (hlen : xs.length = ys.length)
    (hex : ∀ x ∈ xs, ∃ y ∈ ys, R x y) (hne : xs.Pairwise fun x x' => ∀ y, R x y → ¬R x' y) :
    ∃ f : Fin xs.length → Fin ys.length, f.Bijective ∧ ∀ i, R xs[i] ys[f i] := by
  obtain ⟨f, hf, hr⟩ := exists_injective hex hne
  exact ⟨f, (Fintype.bijective_iff_injective_and_card f).mpr ⟨hf, by simp [hlen]⟩, hr⟩

/-- Of equally long lists the second can be reordered so that they are related member by member. -/
theorem exists_perm_forall₂ {xs : List α} {ys : List β} (hlen : xs.length = ys.length)
    (hex : ∀ x ∈ xs, ∃ y ∈ ys, R x y) (hne : xs.Pairwise fun x x' => ∀ y, R x y → ¬R x' y) :
    ∃ zs : List β, zs.Perm ys ∧ List.Forall₂ R xs zs := by
  obtain ⟨f, hf, hr⟩ := exists_bijective hlen hex hne
  have hpositions : ((List.finRange xs.length).map f).Perm (List.finRange ys.length) := by
    refine (List.perm_ext_iff_of_nodup ?_ (List.nodup_finRange _)).mpr fun j => ?_
    · exact (List.nodup_finRange _).map hf.injective
    · obtain ⟨i, hi⟩ := hf.surjective j
      exact iff_of_true (List.mem_map.mpr ⟨i, List.mem_finRange i, hi⟩) (List.mem_finRange j)
  refine ⟨((List.finRange xs.length).map f).map ys.get, ?_, ?_⟩
  · simpa only [List.map_get_finRange] using hpositions.map ys.get
  · have hrelated : List.Forall₂ R ((List.finRange xs.length).map xs.get)
        (((List.finRange xs.length).map f).map ys.get) := by
      rw [List.map_map, List.forall₂_map_left_iff, List.forall₂_map_right_iff, List.forall₂_same]
      exact fun i _ => hr i
    rwa [List.map_get_finRange] at hrelated

end Related

section Zipped
variable {σ : Type} {R : α → β → Prop} {ss : List σ} {xs : List α} {ys : List β}

theorem exists_mem_zip_of_forall₂ (h : List.Forall₂ R xs ys) {s : σ} {y : β}
    (hy : (s, y) ∈ ss.zip ys) : ∃ x ∈ xs, (s, x) ∈ ss.zip xs ∧ R x y := by
  induction h generalizing ss with
  | nil => simp at hy
  | @cons x y' xs ys hr _ ih =>
    cases ss with
    | nil => simp at hy
    | cons s' ss =>
      rcases List.mem_cons.mp hy with he | hy
      · injection he with hs he
        subst hs he
        exact ⟨x, List.mem_cons_self, List.mem_cons_self, hr⟩
      · obtain ⟨z, hz, hm, hzy⟩ := ih hy
        exact ⟨z, List.mem_cons_of_mem _ hz, List.mem_cons_of_mem _ hm, hzy⟩

/-- A related list can be had with a given member at the place of `x`. -/
theorem exists_forall₂_mem_zip (h : ∀ x ∈ xs, ∃ y, R x y) {s : σ} {x : α} {y : β}
    (hx : (s, x) ∈ ss.zip xs) (hxy : R x y) :
    ∃ ys, List.Forall₂ R xs ys ∧ (s, y) ∈ ss.zip ys := by
  induction xs generalizing ss with
  | nil => simp at hx
  | cons x' xs ih =>
    obtain ⟨⟨y', hy'⟩, hrest⟩ := List.forall_mem_cons.mp h
    cases ss with
    | nil => simp at hx
    | cons s' ss =>
      rcases List.mem_cons.mp hx with he | hx
      · injection he with hs he
        subst hs he
        obtain ⟨ys, hys⟩ := forall₂_exists hrest
        exact ⟨y :: ys, .cons hxy hys, List.mem_cons_self⟩
      · obtain ⟨ys, hys, hm⟩ := ih hrest hx
        exact ⟨y' :: ys, .cons hy' hys, List.mem_cons_of_mem _ hm⟩

theorem exists_forall₂_mem (h : ∀ x ∈ xs, ∃ y, R x y) {x : α} {y : β} (hx : x ∈ xs)
    (hxy : R x y) : ∃ ys, List.Forall₂ R xs ys ∧ y ∈ ys := by
  have hzip : (x, x) ∈ xs.zip xs := by
    have hself : (xs.map id).zip (xs.map id) = xs.map fun a => (a, a) := List.zip_map'
    rw [List.map_id] at hself
    rw [hself]
    exact List.mem_map_of_mem hx
  obtain ⟨ys, hys, hm⟩ := exists_forall₂_mem_zip h hzip hxy
  exact ⟨ys, hys, (List.of_mem_zip hm).2⟩

/-- What is related to values of `f` comes from arguments, if this is so for each member. -/
theorem exists_forall₂_of_zip_map {f : σ → α → β} {R : α → α → Prop} {Q : β → β → Prop}
    {qs : List β} (hlen : xs.length = ss.length)
    (h : List.Forall₂ Q ((ss.zip xs).map fun c => f c.1 c.2) qs)
    (hstep : ∀ s, ∀ x ∈ xs, ∀ q, Q (f s x) q → ∃ y, R x y ∧ f s y = q) :
    ∃ ys, List.Forall₂ R xs ys ∧ ((ss.zip ys).map fun c => f c.1 c.2) = qs := by
  induction xs generalizing ss qs with
  | nil =>
    rw [List.zip_nil_right] at h
    cases h
    exact ⟨[], .nil, by simp⟩
  | cons x xs ih =>
    cases ss with
    | nil => simp at hlen
    | cons s ss =>
      rw [List.zip_cons_cons, List.map_cons] at h
      cases h with
      | @cons _ q _ qs hq hqs =>
        obtain ⟨y, hxy, hfy⟩ := hstep s x List.mem_cons_self q hq
        obtain ⟨ys, hys, hmap⟩ := ih (Nat.succ.inj hlen) hqs fun s x hx =>
          hstep s x (List.mem_cons_of_mem _ hx)
        exact ⟨y :: ys, .cons hxy hys, by rw [List.zip_cons_cons, List.map_cons, hmap, hfy]⟩

/-- The square of lists over values of `f`, if there is one for each member. -/
theorem forall₂_zip_map_square {f : σ → α → β} {R : α → α → Prop} {Q A : β → β → Prop}
    {ys : List α} (hlen : xs.length = ss.length) (h : List.Forall₂ R xs ys)
    (hstep : ∀ s, ∀ x ∈ xs, ∀ y, R x y → ∃ q, Q (f s x) q ∧ A (f s y) q) :
    ∃ qs, List.Forall₂ Q ((ss.zip xs).map fun c => f c.1 c.2) qs ∧
      List.Forall₂ A ((ss.zip ys).map fun c => f c.1 c.2) qs := by
  induction h generalizing ss with
  | nil => exact ⟨[], by simp, by simp⟩
  | @cons x y xs ys hr _ ih =>
    cases ss with
    | nil => simp at hlen
    | cons s ss =>
      obtain ⟨q, hq, ha⟩ := hstep s x List.mem_cons_self y hr
      obtain ⟨qs, hqs, has⟩ := ih (Nat.succ.inj hlen) fun s x hx =>
        hstep s x (List.mem_cons_of_mem _ hx)
      exact ⟨q :: qs, .cons hq hqs, .cons ha has⟩

/-- Values of `f` at the same places are related, if this is so for each member. -/
theorem forall₂_zip_map {f : σ → α → γ} {h : σ → β → δ} {Q : γ → δ → Prop}
    (hxy : List.Forall₂ R xs ys) (hstep : ∀ s, ∀ x ∈ xs, ∀ y ∈ ys, R x y → Q (f s x) (h s y)) :
    List.Forall₂ Q ((ss.zip xs).map fun c => f c.1 c.2) ((ss.zip ys).map fun c => h c.1 c.2) := by
  induction hxy generalizing ss with
  | nil => simp
  | cons hr _ ih =>
    cases ss with
    | nil => exact .nil
    | cons s ss =>
      refine .cons (hstep s _ List.mem_cons_self _ List.mem_cons_self hr) (ih fun s x hx y hy => ?_)
      exact hstep s x (List.mem_cons_of_mem _ hx) y (List.mem_cons_of_mem _ hy)

theorem zip_map_zip (f : σ × α → β) (ss : List σ) (xs : List α) :
    ss.zip ((ss.zip xs).map f) = (ss.zip xs).map fun c => (c.1, f c) := by
  induction xs generalizing ss with
  | nil => simp
  | cons x xs ih => cases ss <;> simp [ih]

theorem exists_of_mem_zip_map_zip {f : σ × α → β} {s : σ} {y : β}
    (h : (s, y) ∈ ss.zip ((ss.zip xs).map f)) : ∃ x, (s, x) ∈ ss.zip xs ∧ f (s, x) = y := by
  rw [zip_map_zip] at h
  obtain ⟨⟨s', x⟩, hx, he⟩ := List.mem_map.mp h
  obtain ⟨rfl, rfl⟩ := Prod.mk.inj he
  exact ⟨x, hx, rfl⟩

end Zipped

section FirstOfEachClass
variable [BEq α]

/-- Induction over a list in which the tail loses whatever equals the head. -/
theorem eraseDups_induction {motive : List α → Prop} (nil : motive [])
    (cons : ∀ x xs, motive (xs.filter fun y => !y == x) → motive (x :: xs)) :
    ∀ xs, motive xs := by
  intro xs
  induction hn : xs.length using Nat.strongRecOn generalizing xs with
  | _ n ih =>
    cases xs with
    | nil => exact nil
    | cons x xs =>
      have hlen := List.length_filter_le (fun y => !y == x) xs
      rw [List.length_cons] at hn
      exact cons x xs (ih _ (by omega) _ rfl)

theorem eraseDups_sublist (xs : List α) : xs.eraseDups.Sublist xs := by
  induction xs using eraseDups_induction with
  | nil => exact .slnil
  | cons x xs ih =>
    rw [List.eraseDups_cons]
    exact .cons_cons x (ih.trans List.filter_sublist)

theorem mem_of_mem_eraseDups {xs : List α} {y : α} (h : y ∈ xs.eraseDups) : y ∈ xs :=
  (eraseDups_sublist xs).subset h

theorem eraseDups_eq_nil_iff {xs : List α} : xs.eraseDups = [] ↔ xs = [] := by
  cases xs <;> simp [List.eraseDups_cons]

/-- A member that is dropped equals one that is kept. -/
theorem exists_mem_eraseDups [ReflBEq α] {xs : List α} {x : α} (h : x ∈ xs) :
    ∃ y ∈ xs.eraseDups, x == y := by
  induction xs using eraseDups_induction with
  | nil => cases h
  | cons z xs ih =>
    rw [List.eraseDups_cons]
    by_cases hxz : x == z
    · exact ⟨z, List.mem_cons_self, hxz⟩
    · have hx : x ∈ xs := by
        rcases List.mem_cons.mp h with rfl | hx
        · exact absurd (BEq.refl x) hxz
        · exact hx
      obtain ⟨y, hy, hxy⟩ := ih (List.mem_filter.mpr ⟨hx, by simpa using hxz⟩)
      exact ⟨y, List.mem_cons_of_mem _ hy, hxy⟩

/-- Of what is kept, nothing equals anything before it. -/
theorem pairwise_eraseDups (xs : List α) : xs.eraseDups.Pairwise fun x y => ¬y == x := by
  induction xs using eraseDups_induction with
  | nil => exact .nil
  | cons x xs ih =>
    rw [List.eraseDups_cons]
    refine List.pairwise_cons.mpr ⟨fun y hy => ?_, ih⟩
    have hf := (List.mem_filter.mp (mem_of_mem_eraseDups hy)).2
    simpa using hf

theorem eraseDups_eq_self {xs : List α} (h : xs.Pairwise fun x y => ¬y == x) :
    xs.eraseDups = xs := by
  induction xs with
  | nil => rfl
  | cons x xs ih =>
    obtain ⟨hx, hxs⟩ := List.pairwise_cons.mp h
    have hf : (xs.filter fun y => !y == x) = xs := by
      refine List.filter_eq_self.mpr fun y hy => ?_
      simpa using hx y hy
    rw [List.eraseDups_cons, hf, ih hxs]

/-- A map that keeps and reflects equality commutes with dropping what equals something earlier. -/
theorem eraseDups_map [BEq β] {f : α → β} {xs : List α}
    (h : ∀ x ∈ xs, ∀ y ∈ xs, (f x == f y) = (x == y)) :
    (xs.map f).eraseDups = xs.eraseDups.map f := by
  induction xs using eraseDups_induction with
  | nil => rfl
  | cons x xs ih =>
    have hf : ((xs.map f).filter fun y => !y == f x) = (xs.filter fun y => !y == x).map f := by
      rw [List.filter_map]
      congr 1
      refine List.filter_congr fun y hy => ?_
      simp only [Function.comp_apply]
      rw [h y (List.mem_cons_of_mem _ hy) x List.mem_cons_self]
    rw [List.map_cons, List.eraseDups_cons, List.eraseDups_cons, List.map_cons, hf, ih]
    intro y hy z hz
    exact h y (List.mem_cons_of_mem _ (List.mem_of_mem_filter hy)) z
      (List.mem_cons_of_mem _ (List.mem_of_mem_filter hz))

end FirstOfEachClass
end ParseForest
