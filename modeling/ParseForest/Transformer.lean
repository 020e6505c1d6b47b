import ParseForest.Memo

/-!
# Transformers

A transformer says what becomes of a node, given what it makes of others. One
that leaves a node itself alone walks it: it transforms the children and rebuilds
the node if one of them changed. A failed child fails its parent, but an ambiguity
fails only if it has alternatives and all of them fail.

A pass is what a transformer runs in. Its state holds the session, the memo if
there is one, and whatever the transformer keeps for itself. With a memo a node
that is shared by several parents is transformed only once.
-/
namespace ParseForest

structure PassState (σ : Type) where
  session : Session
  memo : Option Memo
  own : σ

abbrev Pass (σ : Type) := StateT (PassState σ) (Except InternalError)

namespace Pass
variable {σ α : Type}

/-- Run an action that makes nodes or symbols. -/
def build (action : Build α) : Pass σ α := fun s =>
  (action s.session).map fun (a, session) => (a, { s with session })

/-- The outcome that the memo has for a node. -/
def remembered (t : Term) : Pass σ (Option Outcome) := fun s =>
  .ok (s.memo.bind fun m => m.get? t, s)

/-- Enter the outcome of a node into the memo, if there is one. -/
def remember (t : Term) (o : Outcome) : Pass σ Unit := fun s =>
  .ok ((), { s with memo := s.memo.map fun m => m.insert t o })

/-- Clear the memo, if there is one. -/
def forget : Pass σ Unit := fun s => .ok ((), { s with memo := s.memo.map fun _ => ∅ })

/-- Change what the transformer keeps for itself. -/
def update (f : σ → σ) : Pass σ Unit := fun s => .ok ((), { s with own := f s.own })

/-- Run a pass that starts with an empty memo or without one. -/
def start (memoize : Bool) (own : σ) (pass : Pass σ α) : Build α := fun session =>
  (pass ⟨session, if memoize then some ∅ else none, own⟩).map fun (a, s) => (a, s.session)

@[simp] theorem build_run (action : Build α) (s : PassState σ) : (build action).run s =
    (action.run s.session).map fun r => (r.1, { s with session := r.2 }) := rfl

@[simp] theorem remembered_run (t : Term) (s : PassState σ) :
    (remembered t).run s = .ok (s.memo.bind fun m => m.get? t, s) := rfl

@[simp] theorem remember_run (t : Term) (o : Outcome) (s : PassState σ) : (remember t o).run s =
    .ok ((), { s with memo := s.memo.map fun m => m.insert t o }) := rfl

@[simp] theorem forget_run (s : PassState σ) :
    (forget : Pass σ Unit).run s = .ok ((), { s with memo := s.memo.map fun _ => ∅ }) := rfl

@[simp] theorem update_run (f : σ → σ) (s : PassState σ) :
    (update f).run s = .ok ((), { s with own := f s.own }) := rfl

end Pass

namespace Outcome
variable {τ : Type}

/-- Terms of the successes among some outcomes. -/
def terms (os : List (Outcome τ)) : List τ := os.filterMap term?

/-- All warnings of some outcomes. -/
def allWarnings (os : List (Outcome τ)) : Issues := .unions (os.map warnings)

/-- All reasons for which some outcomes are failures. -/
def allFailures (os : List (Outcome τ)) : Issues := .unions (os.map failures)

@[simp] theorem mem_allWarnings {os : List (Outcome τ)} {e : Issue} :
    e ∈ allWarnings os ↔ ∃ o ∈ os, e ∈ o.warnings := OrderedSet.mem_unions_map

@[simp] theorem mem_allFailures {os : List (Outcome τ)} {e : Issue} :
    e ∈ allFailures os ↔ ∃ o ∈ os, e ∈ o.failures := OrderedSet.mem_unions_map

/-- There are reasons to fail as soon as one outcome is a failure. -/
theorem allFailures_eq_empty_iff {os : List (Outcome τ)} :
    allFailures os = ∅ ↔ ∀ o ∈ os, o.isOk := by
  constructor
  · intro h o ho
    refine failures_eq_empty_iff.mp (OrderedSet.ext fun e => ?_)
    simp only [OrderedSet.not_mem_empty, iff_false]
    intro he
    exact OrderedSet.not_mem_empty e (h ▸ mem_allFailures.mpr ⟨o, ho, he⟩)
  · intro h
    refine OrderedSet.ext fun e => ?_
    simp only [mem_allFailures, OrderedSet.not_mem_empty, iff_false, not_exists, not_and]
    intro o ho
    rw [failures_eq_empty_iff.mpr (h o ho)]
    exact OrderedSet.not_mem_empty e

end Outcome

namespace Forest

/-- The outcome of a node, given those of its children, if it needs all of them. -/
def joinAll (t : Term) (os : List Outcome) : Build Outcome := do
  let failures := Outcome.allFailures os
  if failures = ∅ then
    return ⟨.ok (← Build.rebuild t (Outcome.terms os)), Outcome.allWarnings os⟩
  else return (← Outcome.failAll failures).mergeWarnings (Outcome.allWarnings os)

/-- The outcome of a node, given those of its children, if it can do with some of them. The
warnings of those it loses are lost as well. -/
def joinSome (t : Term) (os : List Outcome) : Build Outcome := do
  let kept := os.filter Outcome.isOk
  let failures := Outcome.allFailures os
  if kept = [] ∧ failures ≠ ∅ then Outcome.failAll failures
  else return ⟨.ok (← Build.rebuild t (Outcome.terms kept)), Outcome.allWarnings kept⟩

/-- The outcome of a node, given those of its children. -/
def join (t : Term) (os : List Outcome) : Build Outcome :=
  match t with
  | constant .. => return .ok t
  | application .. | grouping .. => joinAll t os
  | ambiguity .. => joinSome t os

end Forest

structure Transformer (σ : Type) where
  /-- What becomes of a node, given what becomes of others. -/
  step : (Term → Pass σ Outcome) → Term → Pass σ Outcome

namespace Transformer
variable {σ : Type}

/-- Transform the children of a node and rebuild it; a constant stays. -/
def walk (self : Term → Pass σ Outcome) (t : Term) : Pass σ Outcome := do
  let os ← t.items.mapM self
  Pass.build (t.join os)

/-- The transformer that changes nothing. -/
def unchanging : Transformer σ := ⟨walk⟩

/-- The transformer that treats constants in its own way and leaves all other nodes alone. -/
def onConstants (hook : Term → Pass σ Outcome) : Transformer σ where
  step self t :=
    match t with
    | .constant .. => hook t
    | _ => walk self t

/-- Transform a term to a given depth, unless the memo has its outcome. -/
def transformWithin (f : Transformer σ) : Nat → Term → Pass σ Outcome
  | 0, _ => throw .excessiveDepth
  | depth + 1, t => do
      match ← Pass.remembered t with
      | some o => return o
      | none =>
          let o ← f.step (f.transformWithin depth) t
          Pass.remember t o
          return o

/-- A term that the memo knows is not transformed again. -/
theorem transformWithin_of_some {f : Transformer σ} {depth : Nat} {t : Term} {s : PassState σ}
    {o : Outcome} (h : (s.memo.bind fun m => m.get? t) = some o) :
    (f.transformWithin (depth + 1) t).run s = .ok (o, s) := by
  rw [transformWithin, StateT.run_bind, Pass.remembered_run, h]
  rfl

/-- A term that the memo does not know is transformed, and then the memo knows it. -/
theorem transformWithin_of_none {f : Transformer σ} {depth : Nat} {t : Term} {s : PassState σ}
    (h : (s.memo.bind fun m => m.get? t) = none) :
    (f.transformWithin (depth + 1) t).run s =
      ((f.step (f.transformWithin depth) t).run s).map fun (o, s') =>
        (o, { s' with memo := s'.memo.map fun m => m.insert t o }) := by
  rw [transformWithin, StateT.run_bind, Pass.remembered_run, h]
  change ((f.step (f.transformWithin depth) t).run s >>= _) = _
  cases (f.step (f.transformWithin depth) t).run s <;> rfl

/-- Transform a term. Numbers increase from children to parents, so the number of a node bounds
how deep the transformer can descend from it. -/
def transform (f : Transformer σ) (t : Term) : Pass σ Outcome := f.transformWithin (t.number + 1) t

/-- Transform a term and forget what was remembered about others. -/
def transformAfresh (f : Transformer σ) (t : Term) : Pass σ Outcome := do
  Pass.forget
  f.transform t

/-- Walk a node with the transformer: its children are transformed, but the node itself is only
rebuilt. A constant, which has no children, is treated as the transformer treats it. -/
def walkNode (f : Transformer σ) (t : Term) : Pass σ Outcome :=
  match t with
  | .constant .. => f.step f.transform t
  | _ => walk f.transform t

end Transformer
end ParseForest
