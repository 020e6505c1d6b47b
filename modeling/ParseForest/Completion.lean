import ParseForest.Grammar
import ParseForest.Grammar.Cast
import ParseForest.Transformer

/-!
# List completion

A parser lets a lone element stand where a list is expected, because elements are
declared to be subsorts of their lists. Completion makes such an element a list
of one: the cons production of the list sort applied to the element and the
terminator. Children are completed before their parents, and each alternative of
an ambiguity on its own. What can neither stay nor become a list stays with a
warning, so completion never fails.
-/
namespace ParseForest

namespace Forest

/-- The label spelled by a label literal. -/
def literal? (t : Term) : Build (Option Label) :=
  match t with
  | constant _ value production _ => do
      if production.sort = SortName.label then
        match unquoted (← Build.consult (·.resolve value)) with
        | some name => return some ⟨← Build.intern name⟩
        | none => return none
      else return none
  | _ => return none

/-- The label that a term applies, if the label is given as a literal. -/
def appliedLabel? (t : Term) : Build (Option Label) :=
  match t with
  | application _ production (operator :: _) _ =>
      if production.label = some Label.apply then literal? operator else return none
  | _ => return none

end Forest

namespace Production

/-- Whether lists are expected in slots of list sorts. They are not in casts and arrows. -/
def expectsLists (names : SymbolTable) (p : Production) : Except InternalError Bool :=
  match p.label with
  | some l => (l.isCast names).map fun cast => !cast && !l.isArrow
  | none => .ok true

end Production

/-- What to do with a term that stands in the slot of a list sort. -/
inductive Placement where
  /-- It may stay. -/
  | keep
  /-- It is an element of a list declared so. -/
  | element (declaration : ListDeclaration)
  /-- It is neither a list nor an element. -/
  | misplaced
deriving DecidableEq

namespace Grammar

/-- The greatest sort of the productions of a label. -/
def sortOf (g : Grammar) (l : Label) : Option SortName :=
  g.subsorts.greatest ((g.productionsFor l).map Production.sort)

/-- The sort by which a term is judged in a slot. It is the sort of its production, except that
a label applied as a literal stands for its own productions. -/
def effectiveSort (g : Grammar) (t : Term) : Build (Option SortName) :=
  match t.sort? with
  | none => return none
  | some sort => do
      let applied ← t.appliedLabel?
      return some ((applied.bind g.sortOf).getD sort)

/-- The place of a term with sort `found` and production `p` in a slot of the list sort `slot`. -/
def placement (g : Grammar) (slot found : SortName) (p : Production) : Placement :=
  if g.subsorts.le found slot && g.isListSort found then .keep
  else if p.isBracket || p.isArrow then .keep
  else if found == SortName.any || !g.subsorts.lt found slot then .misplaced
  else match g.lists.firstFor slot with
    | some d => .element d
    | none => .keep

/-- A term becomes a list if its sort is strictly below the list sort and not the sort of all
terms, unless it is a list of some kind already, a bracket or an arrow. -/
theorem placement_eq_element_iff {g : Grammar} {slot found : SortName} {p : Production}
    {d : ListDeclaration} : g.placement slot found p = .element d ↔
      ¬(g.subsorts.le found slot ∧ g.isListSort found) ∧ ¬p.isBracket ∧ ¬p.isArrow ∧
        found ≠ .any ∧ g.subsorts.lt found slot ∧ g.lists.firstFor slot = some d := by
  unfold placement
  split
  · simp_all
  · split
    · grind
    · split
      · grind
      · split <;> simp_all

/-- A term is misplaced if it is neither a list, a bracket or an arrow, nor of a sort strictly below
the list sort other than the sort of all terms. -/
theorem placement_eq_misplaced_iff {g : Grammar} {slot found : SortName} {p : Production} :
    g.placement slot found p = .misplaced ↔
      ¬(g.subsorts.le found slot ∧ g.isListSort found) ∧ ¬p.isBracket ∧ ¬p.isArrow ∧
        (found = .any ∨ ¬g.subsorts.lt found slot) := by
  unfold placement
  split
  · simp_all
  · split
    · grind
    · split
      · simp_all
      · split <;> simp_all

end Grammar

namespace Completion

/-- The list of one element. Both new nodes lie where the element lies. -/
def singletonList (d : ListDeclaration) (t : Term) : Build Term := do
  let terminator ← Build.application d.terminator [] t.span
  Build.application d.cons [t, terminator] t.span

/-- What becomes of a term that is no ambiguity in the slot of a list sort. -/
def placeTerm (g : Grammar) (slot : SortName) (t : Term) : Build (Term × Issues) := do
  match t.production?, ← g.effectiveSort t with
  | some p, some found =>
      match g.placement slot found p with
      | .keep => return (t, ∅)
      | .element d => return (← singletonList d t, ∅)
      | .misplaced => return (t, .singleton (.listSortExpected found slot t.span))
  | _, _ => return (t, ∅)

mutual

/-- What becomes of a term in the slot of a list sort. -/
def place (g : Grammar) (slot : SortName) (t : Term) : Build (Term × Issues) :=
  match t with
  | .ambiguity _ items _ => do
      let placed ← placeAll g slot items
      return (← Build.rebuild t (placed.map Prod.fst), .unions (placed.map Prod.snd))
  | _ => placeTerm g slot t

def placeAll (g : Grammar) (slot : SortName) : List Term → Build (List (Term × Issues))
  | [] => return []
  | t :: ts => do
      let placed ← place g slot t
      return placed :: (← placeAll g slot ts)

end

theorem placeAll_eq (g : Grammar) (slot : SortName) (ts : List Term) :
    placeAll g slot ts = ts.mapM (place g slot) := by
  induction ts with
  | nil => rfl
  | cons t ts ih => rw [placeAll, List.mapM_cons, ih]

/-- What becomes of a term in a slot of any sort. -/
def fill (g : Grammar) (slot : SortName) (t : Term) : Build (Term × Issues) :=
  if g.isListSort slot then place g slot t else return (t, ∅)

/-- Complete the slots of a node whose children are complete. -/
def completeNode (g : Grammar) (t : Term) : Build Outcome :=
  match t with
  | .application _ production items _ => do
      if ← Build.consult production.expectsLists then
        let filled ← (production.slots.zip items).mapM fun (slot, child) => fill g slot child
        return ⟨.ok (← Build.rebuild t (filled.map Prod.fst)), .unions (filled.map Prod.snd)⟩
      else return .ok t
  | _ => return .ok t

/-- What completion makes of a node. -/
def step {σ : Type} (g : Grammar) (self : Term → Pass σ Outcome) (t : Term) : Pass σ Outcome :=
  match t with
  | .application .. => do
      let walked ← Transformer.walk self t
      walked.andThen fun u => Pass.build (completeNode g u)
  | _ => Transformer.walk self t

end Completion

def Transformer.completer {σ : Type} (g : Grammar) : Transformer σ := ⟨Completion.step g⟩

/-- Complete the list slots of a term. -/
def complete (g : Grammar) (t : Term) : Pass Unit Outcome := (Transformer.completer g).transformAfresh t

end ParseForest
