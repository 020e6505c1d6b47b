import ParseForest.Forest.Summary

/-!
# Fingerprints of forests

A fingerprint is a small number that forests have in common if they agree, so
that two forests with different fingerprints need not be compared. It is made
from the fingerprints of the children alone, and those of alternatives are added
up, because their order must not matter.
-/
namespace ParseForest
namespace Fingerprint

/-- Fingerprints are below this number. -/
def bound : Nat := 2147483647

/-- Mix a number into a fingerprint. -/
def mix (h n : Nat) : Nat := (h * 1000003 + n) % bound

/-- Mix several numbers into a fingerprint, one after the other. -/
def mixAll (h : Nat) (ns : List Nat) : Nat := ns.foldl mix h

def item (h : Nat) : ProductionItem → Nat
  | .terminal token => mix (mix h 1) token.index
  | .nonterminal sort => mix (mix h 2) sort.symbol.index

def label (h : Nat) : Option Label → Nat
  | none => mix h 1
  | some l => mix (mix h 2) l.symbol.index

def production (h : Nat) (p : Production) : Nat :=
  let items := p.items.foldl item (mix h p.sort.symbol.index)
  mixAll (label items p.label) (p.attributes.toList.map Symbol.index)

/-- What the nodes of a forest contribute. -/
def nodes : Summary Nat where
  constant value p := mix (production 1 p) value.index
  application p items := mixAll (production 2 p) items
  ambiguity items := mix (mix 3 items.length) (items.foldl (· + ·) 0)
  grouping items := mixAll (mix 4 items.length) items

end Fingerprint
end ParseForest
