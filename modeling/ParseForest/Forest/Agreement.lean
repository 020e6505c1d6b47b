import ParseForest.Forest

/-!
# Agreement of forests

Two forests agree when they differ at most in marks, in spans and in the order
of the alternatives of their ambiguities. Alternatives are kept distinct, so
ambiguities agree as soon as they have equally many and each alternative of the
first agrees with one of the second.
-/
namespace ParseForest
namespace Forest
variable {ι κ : Type}

mutual

/-- Whether two forests agree. Pairs for which `known` has an answer are not looked into. -/
def agreesBy (known : Forest ι → Forest κ → Option Bool) (a : Forest ι) (b : Forest κ) : Bool :=
  match known a b with
  | some answer => answer
  | none =>
      match a, b with
      | constant _ v p _, constant _ w q _ => v == w && p == q
      | application _ p xs _, application _ q ys _ => p == q && pairwiseBy known xs ys
      | ambiguity _ xs _, ambiguity _ ys _ => xs.length == ys.length && includedBy known xs ys
      | grouping _ xs _, grouping _ ys _ => pairwiseBy known xs ys
      | _, _ => false

/-- Whether two lists agree member by member. -/
def pairwiseBy (known : Forest ι → Forest κ → Option Bool) :
    List (Forest ι) → List (Forest κ) → Bool
  | [], [] => true
  | x :: xs, y :: ys => agreesBy known x y && pairwiseBy known xs ys
  | _, _ => false

/-- Whether each member of the first list agrees with some member of the second. -/
def includedBy (known : Forest ι → Forest κ → Option Bool) :
    List (Forest ι) → List (Forest κ) → Bool
  | [], _ => true
  | x :: xs, ys => ys.any (fun y => agreesBy known x y) && includedBy known xs ys

end

/-- Whether two forests agree, found by looking into all of both. -/
def agrees (a : Forest ι) (b : Forest κ) : Bool := agreesBy (fun _ _ => none) a b

theorem pairwiseBy_iff {known : Forest ι → Forest κ → Option Bool} {xs : List (Forest ι)}
    {ys : List (Forest κ)} :
    pairwiseBy known xs ys ↔
      xs.length = ys.length ∧ ∀ p ∈ xs.zip ys, agreesBy known p.1 p.2 := by
  induction xs generalizing ys with
  | nil => cases ys <;> simp [pairwiseBy]
  | cons x xs ih =>
    cases ys with
    | nil => simp [pairwiseBy]
    | cons y ys =>
      simp only [pairwiseBy, Bool.and_eq_true, ih, List.length_cons, List.zip_cons_cons,
        List.forall_mem_cons]
      grind

theorem includedBy_iff {known : Forest ι → Forest κ → Option Bool} {xs : List (Forest ι)}
    {ys : List (Forest κ)} :
    includedBy known xs ys ↔ ∀ x ∈ xs, ∃ y ∈ ys, agreesBy known x y := by
  induction xs with
  | nil => simp [includedBy]
  | cons x xs ih => simp [includedBy, ih]

theorem agrees_constant_iff {m : ι} {n : κ} {v w : Symbol} {p q : Production} {s r : Span} :
    agrees (constant m v p s) (constant n w q r) ↔ v = w ∧ p = q := by
  simp [agrees, agreesBy]

theorem agrees_application_iff {m : ι} {n : κ} {p q : Production} {xs : List (Forest ι)}
    {ys : List (Forest κ)} {s r : Span} :
    agrees (application m p xs s) (application n q ys r) ↔
      p = q ∧ xs.length = ys.length ∧ ∀ a ∈ xs.zip ys, agrees a.1 a.2 := by
  rw [agrees, agreesBy]
  simp only [Bool.and_eq_true, beq_iff_eq, pairwiseBy_iff, agrees]

theorem agrees_ambiguity_iff {m : ι} {n : κ} {xs : List (Forest ι)} {ys : List (Forest κ)}
    {s r : Span} : agrees (ambiguity m xs s) (ambiguity n ys r) ↔
      xs.length = ys.length ∧ ∀ x ∈ xs, ∃ y ∈ ys, agrees x y := by
  rw [agrees, agreesBy]
  simp only [Bool.and_eq_true, beq_iff_eq, includedBy_iff, agrees]

theorem agrees_grouping_iff {m : ι} {n : κ} {xs : List (Forest ι)} {ys : List (Forest κ)}
    {s r : Span} : agrees (grouping m xs s) (grouping n ys r) ↔
      xs.length = ys.length ∧ ∀ a ∈ xs.zip ys, agrees a.1 a.2 := by
  rw [agrees, agreesBy]
  simp only [pairwiseBy_iff, agrees]

end Forest
end ParseForest
