import ParseForest.Proofs.Walking

/-!
# Recording what a hook does

To see how often a hook for constants is called, note each constant that it is given
and the outcome. The record is kept next to what the transformer keeps for itself, and
nothing looks at it: without the record there remains what happens when none is kept.
-/
namespace ParseForest

/-- A constant that a hook was given, and what the hook made of it. -/
abbrev Visit := Term × Outcome

variable {σ α β : Type}

/-- The state without the record. -/
def PassState.unrecorded (s : PassState (List Visit × σ)) : PassState σ :=
  ⟨s.session, s.memo, s.own.2⟩

/-- The hook, which adds each visit to the end of a record. -/
def Transformer.recorded (hook : Term → Pass σ Outcome) (t : Term) :
    Pass (List Visit × σ) Outcome := fun s =>
  ((hook t).run s.unrecorded).map fun (o, s') =>
    (o, ⟨s'.session, s'.memo, s.own.1 ++ [(t, o)], s'.own⟩)

namespace Pass

/-- Without the record, the first action does what the second does. -/
def Records (action : Pass (List Visit × σ) α) (plain : Pass σ α) : Prop :=
  ∀ s, (action.run s).map (fun r => (r.1, r.2.unrecorded)) = plain.run s.unrecorded

theorem Records.pure (a : α) : Records (pure a : Pass (List Visit × σ) α) (pure a) := fun _ => rfl

theorem Records.bind {action : Pass (List Visit × σ) α} {plain : Pass σ α}
    {next : α → Pass (List Visit × σ) β} {next' : α → Pass σ β} (h : Records action plain)
    (hn : ∀ a, Records (next a) (next' a)) : Records (action >>= next) (plain >>= next') := by
  intro s
  rw [StateT.run_bind, StateT.run_bind, ← h s]
  cases action.run s with
  | error => rfl
  | ok r => exact hn r.1 r.2

theorem Records.mapM {action : α → Pass (List Visit × σ) β} {plain : α → Pass σ β}
    (h : ∀ a, Records (action a) (plain a)) (xs : List α) :
    Records (xs.mapM action) (xs.mapM plain) := by
  induction xs with
  | nil => exact .pure []
  | cons x xs ih =>
    rw [List.mapM_cons, List.mapM_cons]
    exact (h x).bind fun b => ih.bind fun bs => .pure (b :: bs)

theorem records_build (action : Build α) :
    Records (build action : Pass (List Visit × σ) α) (build action) := by
  intro s
  rw [build_run, build_run]
  change _ = (action.run s.session).map _
  cases action.run s.session <;> rfl

end Pass

namespace Transformer
open Pass (Records)
variable {hook : Term → Pass σ Outcome}

theorem records_recorded (hook : Term → Pass σ Outcome) (t : Term) :
    Records (recorded hook t) (hook t) := by
  intro s
  change (((hook t).run s.unrecorded).map _).map _ = _
  cases (hook t).run s.unrecorded <;> rfl

/-- A recorded call is a call of the hook with one more visit. -/
theorem of_recorded_run {t : Term} {s s' : PassState (List Visit × σ)} {o : Outcome}
    (h : (recorded hook t).run s = .ok (o, s')) :
    s'.own.1 = s.own.1 ++ [(t, o)] ∧ (hook t).run s.unrecorded = .ok (o, s'.unrecorded) := by
  obtain ⟨r, hrun, hr⟩ := map_eq_ok_iff.mp h
  obtain ⟨rfl, rfl⟩ := Prod.mk.inj hr
  exact ⟨rfl, hrun⟩

theorem records_walk {self : Term → Pass (List Visit × σ) Outcome} {plain : Term → Pass σ Outcome}
    (h : ∀ t, Records (self t) (plain t)) (t : Term) : Records (walk self t) (walk plain t) :=
  (Records.mapM h t.items).bind fun _ => Pass.records_build _

theorem records_transformWithin (depth : Nat) (t : Term) :
    Records ((onConstants (recorded hook)).transformWithin depth t)
      ((onConstants hook).transformWithin depth t) := by
  induction depth generalizing t with
  | zero => exact fun _ => rfl
  | succ depth ih =>
    have hstep : Records
        ((onConstants (recorded hook)).step ((onConstants (recorded hook)).transformWithin depth) t)
        ((onConstants hook).step ((onConstants hook).transformWithin depth) t) := by
      cases t with
      | constant m v p s => exact records_recorded hook _
      | application | ambiguity | grouping => exact records_walk ih _
    have hremembered : Records (Pass.remembered t : Pass (List Visit × σ) _)
      (Pass.remembered t) := fun _ => rfl
    refine hremembered.bind fun answer => ?_
    cases answer with
    | some o => exact .pure o
    | none =>
      have hremember (o : Outcome) : Records (Pass.remember t o : Pass (List Visit × σ) _)
        (Pass.remember t o) := fun _ => rfl
      exact hstep.bind fun o => (hremember o).bind fun _ => .pure o

end Transformer
end ParseForest
