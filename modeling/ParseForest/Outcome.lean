import ParseForest.Issue
import ParseForest.Term

/-!
# Outcomes

Transforming a term gives another term or the reasons why there is none, and in
either case warnings, which are collected independently of success.
-/
namespace ParseForest

/-- The reasons of a failure, of which there is at least one. -/
structure Failures where
  issues : Issues
  nonempty : issues ≠ ∅
deriving DecidableEq

namespace Failures

instance : Membership Issue Failures := ⟨fun f e => e ∈ f.issues⟩

theorem mem_issues {e : Issue} {f : Failures} : e ∈ f.issues ↔ e ∈ f := Iff.rfl

@[ext] theorem ext {f g : Failures} (h : ∀ e, e ∈ f ↔ e ∈ g) : f = g := by
  cases f
  cases g
  congr 1
  exact OrderedSet.ext h

def singleton (e : Issue) : Failures where
  issues := .singleton e
  nonempty h := OrderedSet.not_mem_empty e (h ▸ OrderedSet.mem_singleton.mpr rfl)

@[simp] theorem mem_singleton {e x : Issue} : x ∈ singleton e ↔ x = e := OrderedSet.mem_singleton

/-- The issues as reasons of a failure, unless there are none. -/
def ofIssues? (es : Issues) : Option Failures :=
  if h : es = ∅ then none else some ⟨es, h⟩

@[simp] theorem ofIssues?_empty : ofIssues? ∅ = none := dif_pos rfl

theorem ofIssues?_eq_none_iff {es : Issues} : ofIssues? es = none ↔ es = ∅ := by
  unfold ofIssues?
  split <;> simp_all

theorem ofIssues?_eq_some_iff {es : Issues} {f : Failures} :
    ofIssues? es = some f ↔ f.issues = es := by
  unfold ofIssues?
  split
  · rename_i h
    simp only [reduceCtorEq, false_iff]
    exact fun hf => f.nonempty (hf.trans h)
  · simp only [Option.some.injEq]
    constructor
    · rintro rfl
      rfl
    · rintro rfl
      rfl

theorem exists_ofIssues? {es : Issues} (h : es ≠ ∅) : ∃ f, ofIssues? es = some f :=
  ⟨⟨es, h⟩, dif_neg h⟩

end Failures

structure Outcome (τ : Type := Term) where
  result : Except Failures τ
  warnings : Issues

namespace Outcome
variable {τ υ : Type}

/-- Success without warnings. -/
def ok (t : τ) : Outcome τ := ⟨.ok t, ∅⟩

instance [Inhabited τ] : Inhabited (Outcome τ) := ⟨ok default⟩

/-- Failure for one reason. -/
def fail (e : Issue) : Outcome τ := ⟨.error (.singleton e), ∅⟩

/-- Failure for the given reasons; to give none is an internal error. -/
def failAll (es : Issues) : Except InternalError (Outcome τ) :=
  match Failures.ofIssues? es with
  | some f => .ok ⟨.error f, ∅⟩
  | none => .error .missingCause

def warn (o : Outcome τ) (e : Issue) : Outcome τ := { o with warnings := o.warnings.insert e }

def mergeWarnings (o : Outcome τ) (es : Issues) : Outcome τ := { o with warnings := o.warnings ∪ es }

/-- Continue with the term of a success and keep the warnings; a failure is final. -/
def andThen {m : Type → Type} [Monad m] (o : Outcome τ) (next : τ → m (Outcome τ)) :
    m (Outcome τ) :=
  match o.result with
  | .ok t => return (← next t).mergeWarnings o.warnings
  | .error _ => return o

/-- Replace the term of a success. -/
def map (o : Outcome τ) (f : τ → υ) : Outcome υ := ⟨o.result.map f, o.warnings⟩

def isOk (o : Outcome τ) : Bool := o.result.isOk

def term? (o : Outcome τ) : Option τ := o.result.toOption

/-- The reasons of a failure; none for a success. -/
def failures (o : Outcome τ) : Issues :=
  match o.result with
  | .ok _ => ∅
  | .error f => f.issues

/-- The two cases, each with the warnings. -/
def intoResult (o : Outcome τ) : Except (Failures × Issues) (τ × Issues) :=
  match o.result with
  | .ok t => .ok (t, o.warnings)
  | .error f => .error (f, o.warnings)

/-- Outcomes are equal if they have equal terms or the same failures, and the same warnings. -/
instance : BEq Outcome where
  beq o p := o.warnings == p.warnings &&
    match o.result, p.result with
    | .ok t, .ok u => t == u
    | .error f, .error g => f == g
    | _, _ => false

theorem isOk_iff {o : Outcome τ} : o.isOk ↔ ∃ t, o.result = .ok t := by
  unfold isOk
  cases o.result <;> simp [Except.isOk, Except.toBool]

theorem failures_eq_empty_iff {o : Outcome τ} : o.failures = ∅ ↔ o.isOk := by
  obtain ⟨r, w⟩ := o
  cases r with
  | ok t => simp [failures, isOk, Except.isOk, Except.toBool]
  | error f => simpa [failures, isOk, Except.isOk, Except.toBool] using f.nonempty

theorem failAll_eq_ok_iff {es : Issues} {o : Outcome τ} :
    failAll es = .ok o ↔ ∃ f : Failures, f.issues = es ∧ o = ⟨.error f, ∅⟩ := by
  unfold failAll
  split
  · rename_i f h
    simp only [Except.ok.injEq]
    rw [Failures.ofIssues?_eq_some_iff] at h
    constructor
    · rintro rfl
      exact ⟨f, h, rfl⟩
    · rintro ⟨g, hg, rfl⟩
      rw [Failures.ext (f := f) (g := g) fun e => by
        rw [← Failures.mem_issues, ← Failures.mem_issues, h, hg]]
  · rename_i h
    simp only [reduceCtorEq, false_iff]
    rintro ⟨f, hf, -⟩
    exact f.nonempty (hf.trans (Failures.ofIssues?_eq_none_iff.mp h))

theorem failAll_empty : (failAll ∅ : Except InternalError (Outcome τ)) = .error .missingCause := by
  simp [failAll]

end Outcome
end ParseForest
