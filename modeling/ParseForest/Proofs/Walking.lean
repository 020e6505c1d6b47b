import ParseForest.Proofs.Joining

/-!
# What a walk can do by itself

To walk a node is to ask about its children and to rebuild it from the answers.
Whatever it is that answers, the walk adds no internal error of its own: there is
a reason to fail whenever a child fails, and otherwise there is one answer for
each child, so an application that has one child for each slot is rebuilt with as
many.
-/
namespace ParseForest

namespace Forest
variable {ι : Type}

/-- An application has one child for each slot. -/
def NodeSaturated : Forest ι → Prop
  | application _ production items _ => items.length = production.arity
  | _ => True

/-- Every application that occurs has one child for each slot. -/
def Saturated (t : Forest ι) : Prop := t.Everywhere NodeSaturated

theorem WellFormed.saturated {t : Forest ι} (h : t.WellFormed) : t.Saturated := by
  refine h.imp fun u hu => ?_
  cases u with
  | application => exact hu
  | _ => trivial

/-- The node can be renewed with so many children. -/
def Takes (t : Forest ι) (count : Nat) : Prop :=
  ∀ m p ts s, t = application m p ts s → count = p.arity

theorem NodeSaturated.takes {t : Forest ι} (h : t.NodeSaturated) : t.Takes t.items.length := by
  rintro m p ts s rfl
  exact h

theorem saturated_renewed {t : Term} {items : List Term} (hlen : t.Takes items.length)
    (hi : ∀ u ∈ items, u.Saturated) (mark : Tag) : (t.renewed mark items).Saturated := by
  refine everywhere_iff.mpr ?_
  cases t with
  | constant => exact ⟨trivial, fun _ hu => absurd hu List.not_mem_nil⟩
  | application m p ts s => exact ⟨hlen m p ts s rfl, hi⟩
  | ambiguity => exact ⟨trivial, fun u hu => hi u (mem_of_mem_eraseDups hu)⟩
  | grouping => exact ⟨trivial, hi⟩

end Forest

namespace Build
open Forest (Takes Saturated saturated_renewed)
variable {t : Term} {items : List Term}

theorem exists_withItems_run (hlen : t.Takes items.length) (s : Session) :
    ∃ mark s', (withItems t items).run s = .ok (t.renewed mark items, s') := by
  cases t with
  | constant m => exact ⟨m, s, rfl⟩
  | application m p ts r => exact ⟨_, _, application_run (hlen m p ts r rfl) r s⟩
  | ambiguity m ts r => exact ⟨_, _, ambiguity_run items r s⟩
  | grouping m ts r => exact ⟨_, _, grouping_run items r s⟩

theorem exists_rebuild_run (hlen : t.Takes items.length) (s : Session) :
    ∃ u s', (rebuild t items).run s = .ok (u, s') ∧
      (t.Saturated → (∀ x ∈ items, x.Saturated) → u.Saturated) := by
  by_cases hsame : Term.sameNodes t.items items
  · rw [rebuild_of_sameNodes hsame]
    exact ⟨t, s, rfl, fun ht _ => ht⟩
  · obtain ⟨mark, s', hrun⟩ := exists_withItems_run hlen s
    refine ⟨_, s', ?_, fun _ hi => saturated_renewed hlen hi mark⟩
    rw [rebuild, if_neg hsame, hrun]

end Build

namespace Forest
variable {t : Term} {os : List Outcome}

/-- The action ends with an outcome. If all terms that go in are saturated, so is what comes out. -/
def Joins (t : Term) (os : List Outcome) (action : Build Outcome) : Prop :=
  ∀ s, ∃ o s', action.run s = .ok (o, s') ∧ (t.Saturated →
    (∀ p ∈ os, ∀ x, p.result = .ok x → x.Saturated) → ∀ u, o.result = .ok u → u.Saturated)

theorem joins_rebuild (hlen : t.Takes (Outcome.terms os).length) (ws : Issues) :
    Joins t os (do return ⟨.ok (← Build.rebuild t (Outcome.terms os)), ws⟩) := by
  intro s
  obtain ⟨u, s', hrun, hu⟩ := Build.exists_rebuild_run hlen s
  refine ⟨_, s', by rw [StateT.run_bind, hrun]; rfl, fun ht hos v hv => ?_⟩
  obtain rfl := Except.ok.inj hv
  refine hu ht fun x hx => ?_
  obtain ⟨p, hp, hpx⟩ := Outcome.mem_terms.mp hx
  exact hos p hp x hpx

/-- To fail for the reasons that there are is no internal error. -/
theorem exists_failAll {es : Issues} (h : es ≠ ∅) :
    ∃ f, (Outcome.failAll es : Except InternalError Outcome) = .ok ⟨.error f, ∅⟩ :=
  ⟨⟨es, h⟩, Outcome.failAll_eq_ok_iff.mpr ⟨_, rfl, rfl⟩⟩

theorem joins_joinAll (ht : t.NodeSaturated) (hos : os.length = t.items.length) :
    Joins t os (t.joinAll os) := by
  unfold joinAll
  by_cases hf : Outcome.allFailures os = ∅
  · have hterms := Outcome.forall₂_terms (Outcome.allFailures_eq_empty_iff.mp hf)
    simp only [if_pos hf]
    -- Nothing failed, so there is one term for each child.
    exact joins_rebuild (by rw [← hterms.length_eq, hos]; exact ht.takes) _
  · obtain ⟨f, hfail⟩ := exists_failAll hf
    simp only [if_neg hf, hfail]
    exact fun s => ⟨_, s, rfl, fun _ _ u hu => by cases hu⟩

theorem joins_joinSome (ha : t.isAmbiguity) : Joins t os (t.joinSome os) := by
  unfold joinSome
  by_cases hf : os.filter Outcome.isOk = [] ∧ Outcome.allFailures os ≠ ∅
  · obtain ⟨f, hfail⟩ := exists_failAll hf.2
    simp only [if_pos hf, hfail]
    exact fun s => ⟨_, s, rfl, fun _ _ u hu => by cases hu⟩
  · simp only [if_neg hf, Outcome.terms_filter_isOk]
    refine joins_rebuild ?_ _
    rintro m p ts s rfl
    cases ha

theorem joins_join (ht : t.NodeSaturated) (hos : os.length = t.items.length) :
    Joins t os (t.join os) := by
  cases t with
  | constant => exact fun s => ⟨_, s, rfl, fun ht _ u hu => Except.ok.inj hu ▸ ht⟩
  | application | grouping => exact joins_joinAll ht hos
  | ambiguity => exact joins_joinSome rfl

end Forest

section Sequences
variable {S ε α β : Type} {s : S}

theorem map_eq_ok_iff {x : Except ε α} {f : α → β} {b : β} :
    x.map f = .ok b ↔ ∃ a, x = .ok a ∧ f a = b := by
  cases x <;> simp [Except.map]

theorem run_bind_eq_ok_iff {x : StateT S (Except ε) α} {f : α → StateT S (Except ε) β}
    {r : β × S} : (x >>= f).run s = .ok r ↔
      ∃ a s', x.run s = .ok (a, s') ∧ (f a).run s' = .ok r := by
  rw [StateT.run_bind]
  cases hx : x.run s with
  | error => simp [bind, Except.bind]
  | ok p =>
    cases p
    simp [bind, Except.bind, and_assoc]

theorem run_bind_eq_error_iff {x : StateT S (Except ε) α} {f : α → StateT S (Except ε) β}
    {e : ε} : (x >>= f).run s = .error e ↔
      x.run s = .error e ∨ ∃ a s', x.run s = .ok (a, s') ∧ (f a).run s' = .error e := by
  rw [StateT.run_bind]
  cases hx : x.run s with
  | error => simp [bind, Except.bind]
  | ok p =>
    cases p
    simp [bind, Except.bind, and_assoc]

variable {f : α → StateT S (Except ε) β} {xs : List α}

/-- An error of the whole is an error of a part. -/
theorem exists_of_mapM_error {e : ε} (h : (xs.mapM f).run s = .error e) :
    ∃ x ∈ xs, ∃ s', (f x).run s' = .error e := by
  induction xs generalizing s with
  | nil => cases h
  | cons x xs ih =>
    rw [List.mapM_cons] at h
    rcases run_bind_eq_error_iff.mp h with hx | ⟨y, s', -, h⟩
    · exact ⟨x, List.mem_cons_self, s, hx⟩
    · rcases run_bind_eq_error_iff.mp h with hxs | ⟨ys, s'', -, h⟩
      · obtain ⟨x', hx', hrun⟩ := ih hxs
        exact ⟨x', List.mem_cons_of_mem x hx', hrun⟩
      · cases h

/-- Success for a list is success for its head, followed by success for its tail. -/
theorem exists_of_mapM_cons {x : α} {ys : List β} {s' : S}
    (h : ((x :: xs).mapM f).run s = .ok (ys, s')) : ∃ y r rest,
      (f x).run s = .ok (y, r) ∧ (xs.mapM f).run r = .ok (rest, s') ∧ ys = y :: rest := by
  rw [List.mapM_cons] at h
  obtain ⟨y, r, hx, h⟩ := run_bind_eq_ok_iff.mp h
  obtain ⟨rest, r', hxs, h⟩ := run_bind_eq_ok_iff.mp h
  cases h
  exact ⟨y, r, rest, hx, hxs, rfl⟩

theorem forall₂_of_mapM {ys : List β} {s' : S} (h : (xs.mapM f).run s = .ok (ys, s')) :
    List.Forall₂ (fun x y => ∃ r r', (f x).run r = .ok (y, r')) xs ys := by
  induction xs generalizing s ys with
  | nil =>
    cases h
    exact .nil
  | cons x xs ih =>
    obtain ⟨y, r, rest, hx, hxs, rfl⟩ := exists_of_mapM_cons h
    exact .cons ⟨s, r, hx⟩ (ih hxs)

end Sequences

theorem Pass.of_build_run {σ α : Type} {action : Build α} {s s' : PassState σ} {a : α}
    (h : (Pass.build action).run s = .ok (a, s')) :
    ∃ r, action.run s.session = .ok (a, r) ∧ s' = { s with session := r } := by
  obtain ⟨r, hrun, hr⟩ := map_eq_ok_iff.mp h
  obtain ⟨rfl, rfl⟩ := Prod.mk.inj hr
  exact ⟨r.2, hrun, rfl⟩

namespace Transformer
variable {σ : Type} {self : Term → Pass σ Outcome} {t : Term} {s s' : PassState σ}

/-- An internal error of a walk is one of what was asked about a child. -/
theorem exists_of_walk_error (ht : t.NodeSaturated) {e : InternalError}
    (h : (walk self t).run s = .error e) : ∃ u ∈ t.items, ∃ r, (self u).run r = .error e := by
  rcases run_bind_eq_error_iff.mp h with hchildren | ⟨os, r, hchildren, hjoin⟩
  · exact exists_of_mapM_error hchildren
  · have hlen := (forall₂_of_mapM hchildren).length_eq.symm
    obtain ⟨o, session, hrun, -⟩ := Forest.joins_join ht hlen r.session
    rw [Pass.build_run, hrun] at hjoin
    cases hjoin

/-- A walk makes saturated terms of saturated terms. -/
theorem saturated_of_walk (ht : t.Saturated) {o : Outcome} (h : (walk self t).run s = .ok (o, s'))
    (hself : ∀ u ∈ t.items, ∀ r r' p x, (self u).run r = .ok (p, r') → p.result = .ok x →
      x.Saturated) {u : Term} (hu : o.result = .ok u) : u.Saturated := by
  obtain ⟨os, r, hchildren, hbuild⟩ := run_bind_eq_ok_iff.mp h
  have hos := forall₂_of_mapM hchildren
  obtain ⟨session, hbuilt, -⟩ := Pass.of_build_run hbuild
  obtain ⟨o', session', hrun, hjoin⟩ := Forest.joins_join ht.self hos.length_eq.symm r.session
  obtain ⟨rfl, -⟩ := Prod.mk.inj (Except.ok.inj (hrun.symm.trans hbuilt))
  refine hjoin ht (fun p hp x hpx => ?_) u hu
  obtain ⟨v, hv, r, r', hask⟩ := forall₂_exists_left hos hp
  exact hself v hv r r' p x hask hpx

end Transformer
end ParseForest
