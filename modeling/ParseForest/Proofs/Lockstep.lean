import ParseForest.Proofs.Writing

/-!
# Two runs in step

Two actions that read spellings are run in the sessions of two ledgers, which need
not have anything to do with each other. They go in step if they end alike: with
results that are related as said in the ledgers that they leave, or with errors
that say the same. Actions that go in step are put together as actions are.
-/
namespace ParseForest

section Running
variable {α β : Type} {s s' : Session}

theorem Spelling.run_bind_of_ok {action : Spelling α} {next : α → Spelling β} {a : α}
    (h : action.run.run s = (.ok a, s')) : (action >>= next).run.run s = (next a).run.run s' := by
  rw [ExceptT.run_bind, StateT.run_bind, h]
  rfl

theorem Spelling.run_bind_of_error {action : Spelling α} {next : α → Spelling β}
    {e : SpellingError} (h : action.run.run s = (.error e, s')) :
    (action >>= next).run.run s = (.error e, s') := by
  rw [ExceptT.run_bind, StateT.run_bind, h]
  rfl

theorem Spelling.run_build_of_ok {action : Build α} {a : α} (h : action.run s = .ok (a, s')) :
    (build action).run.run s = (.ok a, s') := by
  unfold build
  simp only [ExceptT.run_mk]
  rw [StateT.run, h]

theorem Spelling.run_build_of_error {action : Build α} {e : InternalError}
    (h : action.run s = .error e) : (build action).run.run s = (.error (.internal e), s) := by
  unfold build
  simp only [ExceptT.run_mk]
  rw [StateT.run, h]

end Running

namespace Ledger

section InStep
variable {α β γ δ χ : Type}

/-- What is related stays so while both ledgers grow. -/
def Lasts (R : Ledger → Ledger → α → β → Prop) : Prop :=
  ∀ ⦃l l' k k' : Ledger⦄ ⦃a : α⦄ ⦃b : β⦄, l ≤ k → l' ≤ k' → R l l' a b → R k k' a b

theorem Lasts.forall₂ {R : Ledger → Ledger → α → β → Prop} (h : Lasts R) :
    Lasts fun l l' => List.Forall₂ (R l l') :=
  fun _ _ _ _ _ _ hlk hlk' hall => hall.imp fun _ _ hab => h hlk hlk' hab

/-- Two results of readings: both are what they should be, or both are errors and say the same. -/
inductive EndAlike (k k' : Ledger) (post : Ledger → Ledger → α → β → Prop) :
    Except SpellingError α → Except SpellingError β → Prop
  | ok {a : α} {b : β} (h : post k k' a b) : EndAlike k k' post (.ok a) (.ok b)
  | error {e e' : SpellingError} (h : e.text k.symbols = e'.text k'.symbols) :
      EndAlike k k' post (.error e) (.error e')

/-- Run in the sessions of the two ledgers, the actions end alike. -/
def InStep (l l' : Ledger) (action : Spelling α) (action' : Spelling β)
    (post : Ledger → Ledger → α → β → Prop) : Prop :=
  ∃ r r' k k', action.run.run l.session = (r, k.session) ∧
    action'.run.run l'.session = (r', k'.session) ∧ l ≤ k ∧ l' ≤ k' ∧ EndAlike k k' post r r'

variable {l l' : Ledger} {post post' : Ledger → Ledger → α → β → Prop}
  {goal : Ledger → Ledger → γ → δ → Prop}

theorem InStep.pure {a : α} {b : β} (h : post l l' a b) :
    InStep l l' (pure a) (pure b) post :=
  ⟨.ok a, .ok b, l, l', rfl, rfl, le_refl l, le_refl l', .ok h⟩

theorem InStep.throw {e e' : SpellingError} (h : e.text l.symbols = e'.text l'.symbols) :
    InStep l l' (throw e) (throw e') post :=
  ⟨.error e, .error e', l, l', rfl, rfl, le_refl l, le_refl l', .error h⟩

theorem InStep.bind {action : Spelling α} {action' : Spelling β} {next : α → Spelling γ}
    {next' : β → Spelling δ} (h : InStep l l' action action' post)
    (hn : ∀ k k' a b, l ≤ k → l' ≤ k' → post k k' a b → InStep k k' (next a) (next' b) goal) :
    InStep l l' (action >>= next) (action' >>= next') goal := by
  obtain ⟨r, r', k, k', hrun, hrun', hlk, hlk', hend⟩ := h
  cases hend with
  | ok hab =>
    obtain ⟨q, q', m, m', hrun₂, hrun₂', hkm, hkm', hend⟩ := hn k k' _ _ hlk hlk' hab
    exact ⟨q, q', m, m', (Spelling.run_bind_of_ok hrun).trans hrun₂,
      (Spelling.run_bind_of_ok hrun').trans hrun₂', le_trans hlk hkm, le_trans hlk' hkm', hend⟩
  | error he =>
    exact ⟨_, _, k, k', Spelling.run_bind_of_error hrun, Spelling.run_bind_of_error hrun', hlk,
      hlk', .error he⟩

theorem InStep.imp {action : Spelling α} {action' : Spelling β}
    (h : InStep l l' action action' post)
    (hp : ∀ k k' a b, l ≤ k → l' ≤ k' → post k k' a b → post' k k' a b) :
    InStep l l' action action' post' := by
  obtain ⟨r, r', k, k', hrun, hrun', hlk, hlk', hend⟩ := h
  refine ⟨r, r', k, k', hrun, hrun', hlk, hlk', ?_⟩
  cases hend with
  | ok hab => exact .ok (hp k k' _ _ hlk hlk' hab)
  | error he => exact .error he

/-- An action for each member of a list. How results are related must last. -/
theorem InStep.mapM {action : χ → Spelling α} {action' : χ → Spelling β} {xs : List χ}
    (hpost : Lasts post)
    (h : ∀ x ∈ xs, ∀ k k', l ≤ k → l' ≤ k' → InStep k k' (action x) (action' x) post) :
    InStep l l' (xs.mapM action) (xs.mapM action') fun k k' => List.Forall₂ (post k k') := by
  induction xs generalizing l l' with
  | nil => exact InStep.pure .nil
  | cons x xs ih =>
    rw [List.mapM_cons, List.mapM_cons]
    refine (h x List.mem_cons_self l l' (le_refl l) (le_refl l')).bind
      fun k k' a b hlk hlk' hab => ?_
    have htail := ih fun y hy m m' hkm hkm' =>
      h y (List.mem_cons_of_mem x hy) m m' (le_trans hlk hkm) (le_trans hlk' hkm')
    refine htail.bind fun m m' as bs hkm hkm' hall => InStep.pure ?_
    exact .cons (hpost hkm hkm' hab) hall

/-- One action after the other, each on what the one before it left. -/
theorem InStep.foldlM {action : α → χ → Spelling α} {action' : β → χ → Spelling β} {xs : List χ}
    {a : α} {b : β} (hab : post l l' a b)
    (h : ∀ x ∈ xs, ∀ k k' a b, l ≤ k → l' ≤ k' → post k k' a b →
      InStep k k' (action a x) (action' b x) post) :
    InStep l l' (xs.foldlM action a) (xs.foldlM action' b) post := by
  induction xs generalizing l l' a b with
  | nil => exact InStep.pure hab
  | cons x xs ih =>
    rw [List.foldlM_cons, List.foldlM_cons]
    refine (h x List.mem_cons_self l l' a b (le_refl l) (le_refl l') hab).bind
      fun k k' c d hlk hlk' hcd => ih hcd fun y hy m m' c d hkm hkm' => ?_
    exact h y (List.mem_cons_of_mem x hy) m m' c d (le_trans hlk hkm) (le_trans hlk' hkm')

/-- Actions that make nodes or symbols and do not fail. -/
theorem inStep_build {action : Build α} {action' : Build β} {said : Ledger → α → Prop}
    {said' : Ledger → β → Prop} (h : l.Yields action said) (h' : l'.Yields action' said') :
    InStep l l' (Spelling.build action) (Spelling.build action')
      fun k k' a b => said k a ∧ said' k' b := by
  obtain ⟨a, k, hrun, hlk, ha⟩ := h.run
  obtain ⟨b, k', hrun', hlk', hb⟩ := h'.run
  exact ⟨.ok a, .ok b, k, k', Spelling.run_build_of_ok hrun, Spelling.run_build_of_ok hrun', hlk,
    hlk', .ok ⟨ha, hb⟩⟩

/-- Actions that both break a promise. -/
theorem inStep_build_of_error {action : Build α} {action' : Build β} {e e' : InternalError}
    (h : action.run l.session = .error e) (h' : action'.run l'.session = .error e')
    (he : e.message l.symbols = e'.message l'.symbols) :
    InStep l l' (Spelling.build action) (Spelling.build action') post :=
  ⟨.error (.internal e), .error (.internal e'), l, l', Spelling.run_build_of_error h,
    Spelling.run_build_of_error h', le_refl l, le_refl l', .error he⟩

end InStep

end Ledger
end ParseForest
