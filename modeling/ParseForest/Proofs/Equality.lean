import ParseForest.Forest.Digest
import ParseForest.Proofs.Congruence
import ParseForest.Proofs.Workshop

/-!
# Equality of terms

Terms however they were made are equal just if they differ at most in spans, in
sharing and in the order of alternatives. That each alternative equals one of the
other ambiguity is enough for the alternatives to pair off, because equally many
have no two that are equal. So equality is an equivalence, which it makes no
difference to look at the identity of nodes first, and whatever is fed to a hash
function for a term is fed for all terms that equal it.
-/
namespace ParseForest

namespace Forest
variable {ι κ : Type} {a : Forest ι} {b : Forest κ} {R S : Forest ι → Forest κ → Prop}

/-- The nodes are of one kind and have the same value or production, and their children are related:
those of applications and groupings in order, and alternatives one to one. -/
inductive Paired (R : Forest ι → Forest κ → Prop) : Forest ι → Forest κ → Prop
  | constant {m n v p s r} : Paired R (constant m v p s) (constant n v p r)
  | application {m n p xs ys s r} : List.Forall₂ R xs ys →
      Paired R (application m p xs s) (application n p ys r)
  | ambiguity {m n xs ys s r} (f : Fin xs.length → Fin ys.length) : f.Bijective →
      (∀ i, R xs[i] ys[f i]) → Paired R (ambiguity m xs s) (ambiguity n ys r)
  | grouping {m n xs ys s r} : List.Forall₂ R xs ys →
      Paired R (grouping m xs s) (grouping n ys r)

theorem Paired.imp_of_mem (h : Paired R a b) (hi : ∀ x ∈ a.items, ∀ y ∈ b.items, R x y → S x y) :
    Paired S a b := by
  cases h with
  | constant => exact .constant
  | application h => exact .application (forall₂_imp_of_mem h hi)
  | ambiguity f hf h =>
    exact .ambiguity f hf fun i =>
      hi _ (List.getElem_mem i.isLt) _ (List.getElem_mem (f i).isLt) (h i)
  | grouping h => exact .grouping (forall₂_imp_of_mem h hi)

/-- Forests agree just if their children do, alternatives in any order. -/
theorem agrees_iff_paired (ha : a.WellFormed) :
    a.agrees b ↔ Paired (fun x y => x.agrees y) a b := by
  constructor
  · intro h
    cases a with
    | constant m v p s =>
      obtain ⟨n, r, rfl⟩ := agrees_constant_left.mp h
      exact .constant
    | application m p xs s =>
      obtain ⟨n, ys, r, rfl, hxy⟩ := agrees_application_left.mp h
      exact .application hxy
    | ambiguity m xs s =>
      obtain ⟨n, ys, r, rfl, hlen, hex⟩ := agrees_ambiguity_left.mp h
      have hdistinct : xs.Pairwise fun x x' => ∀ y : Forest κ, x.agrees y → ¬x'.agrees y :=
        pairwise_not_agrees ha.self fun x hx _ hxy => agrees_symm (ha.items hx) hxy
      obtain ⟨f, hf, hxy⟩ := exists_bijective hlen hex hdistinct
      exact .ambiguity f hf hxy
    | grouping m xs s =>
      obtain ⟨n, ys, r, rfl, hxy⟩ := agrees_grouping_left.mp h
      exact .grouping hxy
  · intro h
    cases h with
    | constant => exact agrees_constant_iff.mpr ⟨rfl, rfl⟩
    | application h => exact agrees_application h
    | ambiguity f hf h =>
      refine agrees_ambiguity_iff.mpr ⟨by simpa using Fintype.card_of_bijective hf, ?_⟩
      intro x hx
      obtain ⟨i, hi, rfl⟩ := List.getElem_of_mem hx
      exact ⟨_, List.getElem_mem (f ⟨i, hi⟩).isLt, h ⟨i, hi⟩⟩
    | grouping h => exact agrees_grouping h

end Forest

/-- The order of alternatives does not matter to a digest. -/
theorem Digest.ambiguity_eq_of_perm (d : Digest) {ms ns : List (List UInt64)} (h : ms.Perm ns) :
    d.nodes.ambiguity ms = d.nodes.ambiguity ns := by
  have hsum : (ms.map d.condense).foldl (· + ·) 0 = (ns.map d.condense).foldl (· + ·) 0 :=
    (h.map d.condense).foldl_op_eq
  unfold Digest.nodes
  dsimp only
  rw [h.length_eq, hsum]

/-- What can be told about the equality of two terms from their being one node. -/
def Term.identity? (a b : Term) : Option Bool := if a.sameNode b then some true else none

/-- A term of the workshop. -/
abbrev Workshop.Held (w : Workshop) := {t : Term // w.Has t}

namespace Ledger
variable {l : Ledger} {t u : Term}

theorem agreesBy_identity? (ht : t ∈ l) (hu : u ∈ l) :
    Forest.agreesBy Term.identity? t u = t.agrees u := by
  refine Forest.agreesBy_eq_agrees fun x y hx hy answer h => ?_
  unfold Term.identity? at h
  split at h
  · rename_i hn
    have hxy : x = y :=
      eq_of_number_eq (mem_of_occurs ht hx) (mem_of_occurs hu hy) (Term.sameNode_iff.mp hn)
    rw [hxy, Forest.agrees_refl]
    exact (Option.some.inj h).symm
  · cases h

theorem beq_iff_paired (ht : t ∈ l) (hu : u ∈ l) :
    t == u ↔ Forest.Paired (fun x y : Term => x == y) t u := by
  have same {x y : Term} (hx : x ∈ t.items) (hy : y ∈ u.items) : (x == y) = x.agrees y :=
    beq_eq_agrees (mem_of_mem_items ht hx) (mem_of_mem_items hu hy)
  rw [beq_eq_agrees ht hu, Forest.agrees_iff_paired (wellFormed_of_mem ht)]
  constructor
  · exact fun h => h.imp_of_mem fun x hx y hy hxy => (same hx hy).trans hxy
  · exact fun h => h.imp_of_mem fun x hx y hy hxy => (same hx hy).symm.trans hxy

theorem beq_symm (ht : t ∈ l) (hu : u ∈ l) (h : t == u) : u == t := by
  rw [beq_eq_agrees ht hu] at h
  rw [beq_eq_agrees hu ht]
  exact Forest.agrees_symm (wellFormed_of_mem ht) h

theorem beq_trans {v : Term} (ht : t ∈ l) (hu : u ∈ l) (hv : v ∈ l) (h : t == u) (h' : u == v) :
    t == v := by
  rw [beq_eq_agrees ht hu] at h
  rw [beq_eq_agrees hu hv] at h'
  rw [beq_eq_agrees ht hv]
  exact Forest.agrees_trans h h'

theorem Accounts.equivBEq {w : Workshop} (h : l.Accounts w) : EquivBEq w.Held where
  rfl {a} := (beq_eq_agrees (h.mem a.property) (h.mem a.property)).trans (Forest.agrees_refl a.val)
  symm {a b} := beq_symm (h.mem a.property) (h.mem b.property)
  trans {a b c} := beq_trans (h.mem a.property) (h.mem b.property) (h.mem c.property)

/-- Equal terms feed the same words to a hash function. -/
theorem feed_eq_of_beq (ht : t ∈ l) (hu : u ∈ l) (h : t == u) (d : Digest) :
    d.feed t = d.feed u := by
  rw [beq_eq_agrees ht hu] at h
  exact Forest.summary_eq_of_agrees d.ambiguity_eq_of_perm (wellFormed_of_mem ht) h

end Ledger

namespace Workshop
variable {w : Workshop} {a b : Term}

open Ledger in
/-- There can be two terms that differ in the order of alternatives and in spans, which agree. -/
theorem exists_reachable_turned : ∃ (w : Workshop) (t u : Term), w.Reachable ∧ w.Has t ∧ w.Has u ∧
    t.tree = loneElement ∧ u.tree = turnedElement ∧ t.agrees u := by
  have hstart : Reachable ⟨Ledger.initial.session, [], []⟩ := .refl
  have hnames := reachable_foldl_intern hstart ["Exp", "Exps", ".Exps", "_,_", "f"]
  have hknown : loneElement.KnownTo listNames.symbols := by decide
  have hknown' : turnedElement.KnownTo listNames.symbols := by decide
  obtain ⟨w, t, hw, ht, htree⟩ := canMake hnames (by decide) hknown
  have hsymbols : w.session.symbols = listNames.symbols := hw.symbols_eq
  obtain ⟨w', u, hw', hu, htree'⟩ :=
    canMake (r := turnedElement) (hw.reachable hnames) (by decide) (hsymbols ▸ hknown')
  have hagrees : t.agrees u := by
    rw [← Forest.agrees_tree, htree, htree']
    decide
  exact ⟨w', t, u, hw'.reachable (hw.reachable hnames), hw'.has ht, hu, htree, htree', hagrees⟩

/-- Equality of terms, however they were made, is an equivalence. Terms are equal just if they are
nodes of one kind with the same value or production, and children that are equal, in order or, if
they are alternatives, one to one. To look at nothing but this, or first at whether two nodes are
one, gives the same answer. -/
theorem equality_exact (h : w.Reachable) :
    Equivalence (fun a b : {t : Term // w.Has t} => a.val == b.val) ∧
      ∀ a b, w.Has a → w.Has b →
        ((a == b) ↔ Forest.Paired (fun x y : Term => x == y) a b) ∧
        a.agrees b = (a == b) ∧ Forest.agreesBy Term.identity? a b = (a == b) := by
  obtain ⟨l, hl⟩ := Ledger.exists_accounts h
  have hequivalence : EquivBEq w.Held := hl.equivBEq
  refine ⟨⟨fun _ => hequivalence.rfl, hequivalence.symm, hequivalence.trans⟩, fun a b ha hb => ?_⟩
  have hagrees := Ledger.beq_eq_agrees (hl.mem ha) (hl.mem hb)
  exact ⟨Ledger.beq_iff_paired (hl.mem ha) (hl.mem hb), hagrees.symm,
    (Ledger.agreesBy_identity? (hl.mem ha) (hl.mem hb)).trans hagrees.symm⟩

open Ledger in
theorem equality_exact_turned : ∃ (w : Workshop) (t u : Term), w.Reachable ∧ w.Has t ∧ w.Has u ∧
    t.tree = loneElement ∧ u.tree = turnedElement ∧ t == u ∧ u == t ∧
      Forest.Paired (fun x y : Term => x == y) t u ∧ Forest.agreesBy Term.identity? t u := by
  obtain ⟨w, t, u, hw, ht, hu, htree, htree', hagrees⟩ := exists_reachable_turned
  obtain ⟨hequivalence, hexact⟩ := equality_exact hw
  obtain ⟨hpaired, hwithout, hidentity⟩ := hexact t u ht hu
  have hequal : t == u := hwithout.symm.trans hagrees
  exact ⟨w, t, u, hw, ht, hu, htree, htree', hequal,
    hequivalence.symm (x := ⟨t, ht⟩) (y := ⟨u, hu⟩) hequal, hpaired.mp hequal,
    hidentity.trans hequal⟩

/-- Equal terms feed the same words to a hash function, whatever words stand for symbols and however
alternatives are condensed. So no hash function can tell them apart. -/
theorem digest_respects_equality (h : w.Reachable) (ha : w.Has a) (hb : w.Has b) (hab : a == b)
    (d : Digest) : d.feed a = d.feed b ∧
      ∀ {σ : Type} (write : σ → UInt64 → σ) (start : σ),
        (d.feed a).foldl write start = (d.feed b).foldl write start := by
  obtain ⟨l, hl⟩ := Ledger.exists_accounts h
  have hfeed : d.feed a = d.feed b := Ledger.feed_eq_of_beq (hl.mem ha) (hl.mem hb) hab d
  exact ⟨hfeed, fun write start => by rw [hfeed]⟩

open Ledger in
theorem digest_respects_equality_turned : ∃ (w : Workshop) (t u : Term), w.Reachable ∧ w.Has t ∧
    w.Has u ∧ t.tree = loneElement ∧ u.tree = turnedElement ∧ t == u ∧
      Digest.standard.feed t = Digest.standard.feed u := by
  obtain ⟨w, t, u, hw, ht, hu, htree, htree', hagrees⟩ := exists_reachable_turned
  obtain ⟨l, hl⟩ := Ledger.exists_accounts hw
  have hequal : t == u := (beq_eq_agrees (hl.mem ht) (hl.mem hu)).trans hagrees
  exact ⟨w, t, u, hw, ht, hu, htree, htree', hequal,
    (digest_respects_equality hw ht hu hequal Digest.standard).1⟩

end Workshop
end ParseForest
