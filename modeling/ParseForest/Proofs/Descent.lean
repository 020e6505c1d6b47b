import ParseForest.Proofs.CleaningLaws
import ParseForest.Proofs.History

/-!
# Cleaning descends

When one item of a group or an ambiguity is left, it is cleaned, although it comes
from cleaning and was not a part of the term. But cleaning makes no term larger, so
what is left of a node is smaller than the node. Hence everything that cleaning asks
about is smaller than what it is asked about, and a recursion that asks about nothing
else needs no bound on its depth.
-/
namespace ParseForest
namespace Forest

theorem sizes_le_of_sublist {ι : Type} {ts us : List (Forest ι)} (h : ts.Sublist us) :
    sizes ts ≤ sizes us := by
  induction h with
  | slnil => exact Nat.le_refl _
  | cons u _ ih => exact Nat.le_trans ih (Nat.le_add_left _ _)
  | cons_cons u _ ih => exact Nat.add_le_add_left ih _

section Trees
variable {t u : Tree} {ts us : List Tree}

theorem sizes_le_of_forall₂ (h : List.Forall₂ (fun t u => u.size ≤ t.size) ts us) :
    sizes us ≤ sizes ts := by
  induction h with
  | nil => exact Nat.le_refl _
  | cons hle _ ih => exact Nat.add_le_add hle ih

theorem size_withItems_le (h : sizes us ≤ sizes t.items) : (t.withItems us).size ≤ t.size := by
  cases t with
  | constant => exact Nat.le_refl _
  | application | grouping => exact Nat.add_le_add_left h 1
  | ambiguity =>
    exact Nat.add_le_add_left (Nat.le_trans (sizes_le_of_sublist (eraseDups_sublist us)) h) 1

theorem size_collapsed_le (t : Tree) : t.collapsed.size ≤ t.size := by
  refine collapsed_cases (motive := fun u => u.size ≤ t.size) ?_ ?_ fun _ => ?_
  · rw [size_eq t]
    exact Nat.le_add_right 1 _
  · exact fun u hu => Nat.le_of_lt (size_lt_of_mem_items hu)
  · exact size_withItems_le (sizes_le_of_sublist List.filter_sublist)

/-- Cleaning makes no tree larger. -/
theorem CleansTo.size_le (h : t.CleansTo u) : u.size ≤ t.size := by
  have all {ts us : List Tree} (ih : ∀ x ∈ ts, ∀ {y : Tree}, x.CleansTo y → y.size ≤ x.size)
      (hf : List.Forall₂ CleansTo ts us) : sizes us ≤ sizes ts :=
    sizes_le_of_forall₂ (forall₂_imp_of_mem hf fun x hx _ _ hxy => ih x hx hxy)
  induction t using Forest.induction generalizing u with
  | constant m v p s => exact Nat.le_of_eq (congrArg size (cleansTo_constant_iff.mp h))
  | application m p ts s ih =>
    cases hl : p.label with
    | some l =>
      obtain ⟨us, hf, rfl⟩ := (cleansTo_labeled_iff hl).mp h
      exact Nat.add_le_add_left (all ih hf) 1
    | none =>
      obtain ⟨x, rfl, hx⟩ := (cleansTo_unlabeled_iff hl).mp h
      have hlt : x.size < (application m p [x] s).size := size_lt_of_mem_items List.mem_cons_self
      exact Nat.le_trans (ih x List.mem_cons_self hx) (Nat.le_of_lt hlt)
  | ambiguity m ts s ih =>
    obtain ⟨-, rfl⟩ := cleansTo_ambiguity_iff.mp h
    have hkept : List.Forall₂ CleansTo (ts.filter fun x => x.cleaned.isOk) (cleanings ts) :=
      Outcome.forall₂_filter_terms
        (List.forall₂_map_right_iff.mpr (List.forall₂_same.mpr fun x _ => ⟨rfl, fun _ hy => hy⟩))
    have hle : sizes (cleanings ts) ≤ sizes ts :=
      Nat.le_trans (all (fun x hx => ih x (List.mem_of_mem_filter hx)) hkept)
        (sizes_le_of_sublist List.filter_sublist)
    refine Nat.le_trans (size_collapsed_le _) (Nat.add_le_add_left ?_ 1)
    exact Nat.le_trans (sizes_le_of_sublist (eraseDups_sublist _)) hle
  | grouping m ts s ih =>
    obtain ⟨us, hf, rfl⟩ := cleansTo_grouping_iff.mp h
    exact Nat.le_trans (size_collapsed_le _) (Nat.add_le_add_left (all ih hf) 1)

end Trees
end Forest

/-- Transform a term without a bound on the depth. What is asked about terms that are not smaller
than the node that is transformed is left to `otherwise`. -/
def Transformer.recurse {σ : Type} (f : Transformer σ) (otherwise : Term → Pass σ Outcome)
    (t : Term) : Pass σ Outcome := do
  match ← Pass.remembered t with
  | some o => return o
  | none =>
      let o ← f.step
        (fun u => if u.size < t.size then f.recurse otherwise u else otherwise u) t
      Pass.remember t o
      return o
termination_by t.size

namespace Ledger

section Coincide
variable {S α β : Type} {fits : Ledger → S → Prop} {l : Ledger}

/-- In every state that fits the ledger the two actions do the same. -/
def Coincide (fits : Ledger → S → Prop) (l : Ledger)
    (action other : StateT S (Except InternalError) α) : Prop :=
  ∀ s, fits l s → action.run s = other.run s

theorem Coincide.refl (action : StateT S (Except InternalError) α) :
    Coincide fits l action action := fun _ _ => rfl

theorem Coincide.bind {action other : StateT S (Except InternalError) α}
    {next next' : α → StateT S (Except InternalError) β} {post : Ledger → α → Prop}
    (h : Coincide fits l action other) (he : Ensures fits l action post)
    (hn : ∀ k a, l ≤ k → post k a → Coincide fits k (next a) (next' a)) :
    Coincide fits l (action >>= next) (other >>= next') := by
  intro s hs
  obtain ⟨a, s', k, hrun, hlk, hs', ha⟩ := he s hs
  rw [StateT.run_bind, StateT.run_bind, ← h s hs, hrun]
  exact hn k a hlk ha s' hs'

theorem Coincide.bind_right {action other : StateT S (Except InternalError) α}
    (h : Coincide fits l action other) (next : α → StateT S (Except InternalError) β) :
    Coincide fits l (action >>= next) (other >>= next) := by
  intro s hs
  rw [StateT.run_bind, StateT.run_bind, h s hs]

theorem Coincide.mapM {action other : α → StateT S (Except InternalError) β} {xs : List α}
    (h : ∀ x ∈ xs, ∀ k, l ≤ k → Coincide fits k (action x) (other x))
    (he : ∀ x ∈ xs, ∀ k, l ≤ k → Ensures fits k (action x) fun _ _ => True) :
    Coincide fits l (xs.mapM action) (xs.mapM other) := by
  induction xs generalizing l with
  | nil => exact .refl _
  | cons x xs ih =>
    rw [List.mapM_cons, List.mapM_cons]
    obtain ⟨hx, hxs⟩ := List.forall_mem_cons.mp h
    obtain ⟨hex, hexs⟩ := List.forall_mem_cons.mp he
    refine (hx l (le_refl l)).bind (hex l (le_refl l)) fun k b hlk _ => ?_
    have hrest : Coincide fits k (xs.mapM action) (xs.mapM other) :=
      ih (fun y hy m hkm => hxs y hy m (le_trans hlk hkm))
        fun y hy m hkm => hexs y hy m (le_trans hlk hkm)
    exact hrest.bind_right _

variable {σ : Type} {fits : Ledger → PassState σ → Prop} {t : Term}
  {self other : Term → Pass σ Outcome}

theorem coincide_walk (h : ∀ u ∈ t.items, ∀ k, l ≤ k → Coincide fits k (self u) (other u))
    (he : ∀ u ∈ t.items, ∀ k, l ≤ k → Ensures fits k (self u) fun _ _ => True) :
    Coincide fits l (Transformer.walk self t) (Transformer.walk other t) :=
  (Coincide.mapM h he).bind_right _

theorem coincide_collapse (h : ∀ u ∈ t.items, Coincide fits l (self u) (other u)) :
    Coincide fits l (Cleaning.collapse self t) (Cleaning.collapse other t) := by
  unfold Cleaning.collapse
  split
  · exact .refl _
  · rename_i u hu
    exact h u (List.mem_of_mem_filter (hu ▸ List.mem_cons_self))
  · exact .refl _

theorem coincide_andThen {o : Outcome} {next next' : Term → StateT S (Except InternalError) Outcome}
    {fits : Ledger → S → Prop} (h : ∀ u, o.result = .ok u → Coincide fits l (next u) (next' u)) :
    Coincide fits l (o.andThen next) (o.andThen next') := by
  unfold Outcome.andThen
  cases hr : o.result with
  | ok u => exact (h u hr).bind_right _
  | error => exact .refl _

end Coincide

section Recursion
variable {σ : Type} {base l : Ledger} {R : Relation} {f : Transformer σ} {t : Term}

/-- What the step of the transformer does about a node depends only on what is done about nodes that
are lower and smaller. -/
def StepDescends (base : Ledger) (R : Relation) (f : Transformer σ) : Prop :=
  ∀ (self other : Term → Pass σ Outcome) (l : Ledger) (t : Term), base ≤ l → t ∈ l →
    (∀ k u, l ≤ k → u ∈ k → u.height < t.height →
      Ensures (Fits base R) k (self u) fun m o => R m u o) →
    (∀ k u, l ≤ k → u ∈ k → u.height < t.height → u.size < t.size →
      Coincide (Fits base R) k (self u) (other u)) →
    Coincide (Fits base R) l (f.step self t) (f.step other t)

/-- Without a bound on the depth the transformer does what it does to a sufficient depth. -/
theorem coincide_recurse (hR : Stable base R) (hf : StepEstablishes base R f)
    (hd : StepDescends base R f) (otherwise : Term → Pass σ Outcome) (depth : Nat) (ht : t ∈ l)
    (hdepth : t.height < depth) :
    Coincide (Fits base R) l (f.transformWithin depth t) (f.recurse otherwise t) := by
  induction depth generalizing l t with
  | zero => omega
  | succ depth ih =>
    have hremembered : Ensures (Fits base R) l (Pass.remembered t : Pass σ _) fun _ _ => True :=
      fun s hs => ⟨_, s, l, Pass.remembered_run t s, le_refl l, hs, trivial⟩
    rw [Transformer.transformWithin, Transformer.recurse]
    refine (Coincide.refl _).bind hremembered fun k o hlk _ => ?_
    cases o with
    | some o => exact .refl _
    | none =>
      intro s hs
      have hb := hs.base_le
      have ht' : t ∈ k := mem_of_le hlk ht
      have hself (m : Ledger) (u : Term) (hu : u ∈ m) (hlt : u.height < t.height) :
          Ensures (Fits base R) m (f.transformWithin depth u) fun n o => R n u o :=
        ensures_transformWithin hR hf depth hu (by omega)
      refine (hd _ _ k t hb ht' (fun m u _ => hself m u) ?_).bind_right _ s hs
      intro m u hkm hu hlt hsize
      rw [if_pos hsize]
      exact ih hu (by omega)

end Recursion

section Cleaner
variable {σ : Type} {base l : Ledger} {t u : Term} {known : List Term} {s : PassState σ}
  {log : List Exchange}

theorem ensures_walk_cleaned {self : Term → Pass σ Outcome} (hb : base ≤ l) (ht : t ∈ l)
    (hself : ∀ k u, l ≤ k → u ∈ k → u.height < t.height →
      Ensures (Fits base Cleaned) k (self u) fun m o => Cleaned m u o) :
    Ensures (Fits base Cleaned) l (Transformer.walk self t)
      fun k o => k.Answers (t.tree.joined (t.tree.items.map Forest.cleaned)) o := by
  rw [Cleaned, ← followsWith_true] at hself ⊢
  exact (ensures_walk settledBy_cleaned hb ht hself).imp fun _ _ _ ho => ho.toAnswers

/-- The item that is left of a group or an ambiguity is lower and smaller than the node, though it
comes from cleaning. -/
theorem coincide_step_of_production?_eq_none {self other : Term → Pass σ Outcome}
    (hb : base ≤ l) (ht : t ∈ l) (hp : t.production? = none)
    (hself : ∀ k u, l ≤ k → u ∈ k → u.height < t.height →
      Ensures (Fits base Cleaned) k (self u) fun m o => Cleaned m u o)
    (h : ∀ k u, l ≤ k → u ∈ k → u.height < t.height → u.size < t.size →
      Coincide (Fits base Cleaned) k (self u) (other u))
    (hwalk : Coincide (Fits base Cleaned) l (Transformer.walk self t) (Transformer.walk other t)) :
    Coincide (Fits base Cleaned) l
      (do (← Transformer.walk self t).andThen (Cleaning.collapse self))
      (do (← Transformer.walk other t).andThen (Cleaning.collapse other)) := by
  refine hwalk.bind (ensures_walk_cleaned hb ht hself) fun k o hlk ho => ?_
  refine coincide_andThen fun v hv => coincide_collapse fun u hu => ?_
  have hjoined : (t.tree.joined (t.tree.items.map Forest.cleaned)).result = .ok v.tree := by
    rw [← ho.tree_eq, Outcome.result_map, hv]
    rfl
  obtain ⟨x, hx, hxu⟩ := (exists_cleansTo_of_walked hp hjoined).2 u hu
  have hlower : u.height < t.height := by
    have hle := hxu.height_le
    have hlt := Forest.height_lt_of_mem_items hx
    rw [Forest.height_tree] at hle hlt
    exact Nat.lt_of_le_of_lt hle hlt
  have hsmaller : u.size < t.size := by
    have hle := hxu.size_le
    have hlt := Forest.size_lt_of_mem_items hx
    rw [Forest.size_tree] at hle hlt
    exact Nat.lt_of_le_of_lt hle hlt
  exact h k u hlk (mem_of_mem_items (ho.mem v hv) hu) hlower hsmaller

theorem stepDescends_cleaner : StepDescends base Cleaned (Transformer.cleaner : Transformer σ) := by
  intro self other l t hb ht hself h
  have hchildren : ∀ u ∈ t.items, ∀ k, l ≤ k →
      Coincide (Fits base Cleaned) k (self u) (other u) := fun u hu k hlk =>
    h k u hlk (mem_of_le hlk (mem_of_mem_items ht hu)) (Forest.height_lt_of_mem_items hu)
      (Forest.size_lt_of_mem_items hu)
  have hensures : ∀ u ∈ t.items, ∀ k, l ≤ k →
      Ensures (Fits base Cleaned) k (self u) fun _ _ => True := fun u hu k hlk =>
    (hself k u hlk (mem_of_le hlk (mem_of_mem_items ht hu))
      (Forest.height_lt_of_mem_items hu)).imp fun _ _ _ _ => trivial
  have hwalk := coincide_walk hchildren hensures
  change Coincide _ l (Cleaning.step self t) (Cleaning.step other t)
  cases t with
  | constant => exact .refl _
  | application m p ts s =>
    cases hl : p.label with
    | some label => rwa [Cleaning.step_labeled hl, Cleaning.step_labeled hl]
    | none =>
      by_cases hlen : ts.length = 1
      · obtain ⟨sole, rfl⟩ := List.length_eq_one_iff.mp hlen
        rw [Cleaning.step_unlabeled_singleton hl, Cleaning.step_unlabeled_singleton hl]
        exact hchildren sole List.mem_cons_self l (le_refl l)
      · rw [Cleaning.step_unlabeled_of_length_ne hl hlen,
          Cleaning.step_unlabeled_of_length_ne hl hlen]
        exact .refl _
  | ambiguity | grouping =>
    exact coincide_step_of_production?_eq_none hb ht rfl hself h hwalk

/-- From a state that goes with the ledger, cleaning gives no larger term, and nothing is asked
about a term that is not smaller. -/
theorem exists_descent (hs : Fits base Cleaned l s) (ht : t ∈ l) :
    ∃ o s', (Transformer.cleaner.transform t).run s = .ok (o, s') ∧
      (∀ v, o.result = .ok v → v.size ≤ t.size) ∧
      ∀ otherwise, (Transformer.cleaner.recurse otherwise t).run s = .ok (o, s') := by
  have hstable : Stable base Cleaned := by
    rw [Cleaned, ← followsWith_true]
    exact stable_followsWith settledBy_cleaned
  obtain ⟨o, s', k, hrun, -, -, ho⟩ := ensures_transform hstable stepEstablishes_cleaned ht s hs
  refine ⟨o, s', hrun, fun v hv => ?_, fun otherwise => ?_⟩
  · have hcleaned : o.map Forest.tree = t.tree.cleaned := ho.tree_eq
    have hcleans : t.tree.CleansTo v.tree := by
      rw [Forest.CleansTo, ← hcleaned, Outcome.result_map, hv]
      rfl
    have hle := hcleans.size_le
    rwa [Forest.size_tree, Forest.size_tree] at hle
  · have hdepth := Nat.lt_succ_of_le (height_le_number ht)
    rw [← hrun]
    exact (coincide_recurse hstable stepEstablishes_cleaned stepDescends_cleaner otherwise _ ht
      hdepth s hs).symm

/-- However the cleaner was used before, and whether it has a memo or not, cleaning comes to an end
and gives no larger term. Whatever it asks about while it transforms a node, also about what it
has just made, is smaller than the node: what would become of other terms makes no difference, and
no bound on the depth is needed. -/
theorem cleaning_descends (h : History base .cleaner known s log) (hu : u ∈ known)
    (ht : t.Occurs u) :
    (∃ o s', (Transformer.cleaner.transform t).run s = .ok (o, s') ∧
      (∀ v, o.result = .ok v → v.size ≤ t.size) ∧
      ∀ otherwise, (Transformer.cleaner.recurse otherwise t).run s = .ok (o, s')) ∧
    ∃ o s', (Transformer.cleaner.transformAfresh t).run s = .ok (o, s') ∧
      (∀ v, o.result = .ok v → v.size ≤ t.size) ∧
      ∀ otherwise, (do
        Pass.forget
        Transformer.cleaner.recurse otherwise t).run s = .ok (o, s') := by
  have hlasting : Lasting base fun _ t => some (Forest.cleaned t.tree) :=
    lasting_of_settledBy settledBy_cleaned
  have hstep : StepEstablishes base Cleaned (Transformer.cleaner : Transformer σ) :=
    stepEstablishes_cleaned
  rw [Cleaned, follows_eq] at hstep
  obtain ⟨k, hk⟩ := h.exists_keeps hlasting hstep
  have hfits := hk.fits
  rw [← follows_eq] at hfits
  have htk : t ∈ k := mem_of_occurs (hk.known_mem u hu) ht
  refine ⟨exists_descent hfits htk, ?_⟩
  obtain ⟨_, s', m, hforget, hkm, hs', -⟩ := ensures_forget s hfits
  obtain ⟨o, s'', hrun, hsize, hrecurse⟩ := exists_descent hs' (mem_of_le hkm htk)
  refine ⟨o, s'', ?_, hsize, fun otherwise => ?_⟩
  · rw [Transformer.transformAfresh, StateT.run_bind, hforget]
    exact hrun
  · rw [StateT.run_bind, hforget]
    exact hrecurse otherwise

theorem cleaning_descends_leftovers : ∃ (l : Ledger) (t : Term), t ∈ l ∧ t.tree = leftovers ∧
    ∃ (o : Outcome) (s : PassState Unit),
      (Transformer.cleaner.transform t).run ⟨l.session, some ∅, ()⟩ = .ok (o, s) ∧
      (∀ v, o.result = .ok v → v.size ≤ t.size) ∧
      (Transformer.cleaner.recurse (fun _ => throw .missingCause) t).run
        ⟨l.session, some ∅, ()⟩ = .ok (o, s) := by
  obtain ⟨l, t, -, ht, htree⟩ :=
    exists_stores (l := initial) (r := leftovers) (by decide) (by decide)
  have hstart : History l .cleaner l.nodes ⟨l.session, some ∅, ()⟩ [] := .start true ()
  obtain ⟨⟨o, s, hrun, hsize, hrecurse⟩, -⟩ := cleaning_descends hstart ht .refl
  exact ⟨l, t, ht, htree, o, s, hrun, hsize, hrecurse _⟩

end Cleaner
end Ledger
end ParseForest
