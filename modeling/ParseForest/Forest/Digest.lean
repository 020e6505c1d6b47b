import ParseForest.Forest.Summary

/-!
# Digests of forests

A digest feeds a forest to a hash function as a sequence of words. Forests that
agree are fed alike: marks and spans are left out, and the alternatives of an
ambiguity, whose order must not matter, are condensed one by one and added
modulo `2 ^ 64`.
-/
namespace ParseForest

structure Digest where
  /-- The word that stands for a symbol. -/
  word : Symbol → UInt64
  /-- One word made of the words of an alternative. -/
  condense : List UInt64 → UInt64

namespace Digest

/-- A plain multiplicative digest. -/
def standard : Digest where
  word s := UInt64.ofNat s.number
  condense := List.foldl (fun h w => (h ^^^ w) * 0x100000001b3) 0xcbf29ce484222325

def count (n : Nat) : UInt64 := UInt64.ofNat n

def item (d : Digest) : ProductionItem → List UInt64
  | .terminal token => [0, d.word token]
  | .nonterminal sort => [1, d.word sort.symbol]

def label (d : Digest) : Option Label → List UInt64
  | none => [0]
  | some l => [1, d.word l.symbol]

def production (d : Digest) (p : Production) : List UInt64 :=
  d.word p.sort.symbol :: count p.items.length :: p.items.flatMap d.item
    ++ d.label p.label
    ++ count p.attributes.size :: p.attributes.toList.map d.word

/-- What the nodes of a forest feed. -/
def nodes (d : Digest) : Summary (List UInt64) where
  constant value production := 0 :: d.word value :: d.production production
  application production items :=
    1 :: d.production production ++ count items.length :: items.flatten
  ambiguity items := [2, count items.length, (items.map d.condense).foldl (· + ·) 0]
  grouping items := 3 :: count items.length :: items.flatten

/-- The words fed for a forest. -/
def feed {ι : Type} (d : Digest) (t : Forest ι) : List UInt64 := d.nodes.of t

end Digest
end ParseForest
