import ParseForest.Spelling.Grammar
import ParseForest.Term

/-!
# Spelled forests

A forest can be given by a list of spelled nodes. Each has its strings, the
position of its production, and the positions of its children among the nodes
before it. A position used twice is one node with two parents.
-/
namespace ParseForest

structure SpelledSpan where
  offset : Nat
  len : Nat
  context : String
deriving DecidableEq

def SpelledSpan.read (s : SpelledSpan) : Spelling Span :=
  return ⟨s.offset, s.len, ← Spelling.intern s.context⟩

namespace Spelling

/-- A span that may be missing. -/
def span : Option SpelledSpan → Spelling Span
  | some s => s.read
  | none => return .unknown

/-- The node at a position. -/
def nodeAt (nodes : Array Term) (position : Nat) : Spelling Term :=
  match nodes[position]? with
  | some t => return t
  | none => throw (.noNode position)

end Spelling

inductive SpelledNode where
  | constant (value : String) (production : Nat) (span : Option SpelledSpan)
  | application (production : Nat) (children : List Nat) (span : Option SpelledSpan)
  | ambiguity (children : List Nat) (span : Option SpelledSpan)
  | grouping (children : List Nat) (span : Option SpelledSpan)
deriving DecidableEq

/-- Make a node from its spelling. The context of the span comes before the other strings. -/
def SpelledNode.read (ps : Array Production) (nodes : Array Term) : SpelledNode → Spelling Term
  | constant value production span => do
      let span ← Spelling.span span
      let value ← Spelling.intern value
      let production ← Spelling.productionAt ps production
      Spelling.build (Build.constant value production span)
  | application production children span => do
      let span ← Spelling.span span
      let production ← Spelling.productionAt ps production
      let children ← children.mapM (Spelling.nodeAt nodes)
      Spelling.build (Build.application production children span)
  | ambiguity children span => do
      let span ← Spelling.span span
      let children ← children.mapM (Spelling.nodeAt nodes)
      Spelling.build (Build.ambiguity children span)
  | grouping children span => do
      let span ← Spelling.span span
      let children ← children.mapM (Spelling.nodeAt nodes)
      Spelling.build (Build.grouping children span)

/-- Everything that a run of the library starts from. -/
structure SpelledInput where
  /-- Strings interned before all others. -/
  known : List String := []
  productions : List SpelledProduction := []
  nodes : List SpelledNode := []
  grammar : Option SpelledGrammar := none
deriving DecidableEq

/-- What a spelled input describes. -/
structure Setting where
  productions : Array Production
  nodes : Array Term
  grammar : Grammar

/-- Read the parts of the input in order; without a grammar it is the empty one. -/
def SpelledInput.read (i : SpelledInput) : Spelling Setting := do
  let _ ← i.known.mapM Spelling.intern
  let productions := (← i.productions.mapM SpelledProduction.read).toArray
  let nodes ← i.nodes.foldlM
    (fun nodes n => do return nodes.push (← n.read productions nodes)) #[]
  let grammar ← match i.grammar with
    | some g => g.read productions
    | none => pure ∅
  return ⟨productions, nodes, grammar⟩

end ParseForest
