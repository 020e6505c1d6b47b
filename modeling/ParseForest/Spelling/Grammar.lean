import ParseForest.Grammar
import ParseForest.Session

/-!
# Spelled grammars

A grammar can be given by strings, and its productions by their positions in a
list of spelled productions. To read a spelling is to intern its strings, in the
order in which they are written, and to check what they declare. The numbers of
the symbols depend on this order, the strings that they stand for do not.
-/
namespace ParseForest

/-- Why a spelling describes nothing. -/
inductive SpellingError where
  /-- There is no production at the position. -/
  | noProduction (position : Nat)
  /-- There is no node at the position. -/
  | noNode (position : Nat)
  | lattice (error : LatticeError)
  | declaration (error : DeclarationError)
  /-- What is spelled breaks a promise on which terms are built. -/
  | internal (error : InternalError)

/-- Actions that read a spelling. What was interned stays interned if the spelling is at fault. -/
abbrev Spelling := ExceptT SpellingError (StateM Session)

namespace Spelling

/-- Run an action that makes nodes or symbols. -/
def build {α : Type} (action : Build α) : Spelling α := ExceptT.mk fun s =>
  match action.run s with
  | .ok (a, s) => (.ok a, s)
  | .error e => (.error (.internal e), s)

def intern (name : String) : Spelling Symbol := build (Build.intern name)

def sort (name : String) : Spelling SortName := return ⟨← intern name⟩

/-- The production at a position. -/
def productionAt (ps : Array Production) (position : Nat) : Spelling Production :=
  match ps[position]? with
  | some p => return p
  | none => throw (.noProduction position)

end Spelling

inductive SpelledItem where
  | terminal (token : String)
  | nonterminal (sort : String)
deriving DecidableEq

def SpelledItem.read : SpelledItem → Spelling ProductionItem
  | terminal token => return .terminal (← Spelling.intern token)
  | nonterminal sort => return .nonterminal (← Spelling.sort sort)

structure SpelledProduction where
  sort : String
  items : List SpelledItem
  label : Option String := none
  attributes : List String := []
deriving DecidableEq

def SpelledProduction.read (p : SpelledProduction) : Spelling Production := do
  let sort ← Spelling.sort p.sort
  let items ← p.items.mapM SpelledItem.read
  let label ← p.label.mapM Spelling.intern
  let keys ← p.attributes.mapM Spelling.intern
  return ⟨sort, items, label.map Label.mk, .ofList keys⟩

/-- Sorts declared on their own, and pairs of a subsort and a supersort. -/
structure SpelledSubsorts where
  sorts : List String := []
  pairs : List (String × String) := []
deriving DecidableEq

def SpelledSubsorts.read (d : SpelledSubsorts) : Spelling Lattice := do
  let sorts ← d.sorts.mapM Spelling.sort
  let pairs ← d.pairs.mapM fun (sub, sup) => do
    let sub ← Spelling.sort sub
    let sup ← Spelling.sort sup
    return (sub, sup)
  match (SortDeclarations.ofLists sorts pairs).build with
  | .ok l => return l
  | .error e => throw (.lattice e)

/-- A list declaration, with its productions given by position. -/
structure SpelledList where
  sort : String
  element : String
  terminator : Nat
  cons : Nat
  separator : Option String := none
  nonEmpty : Bool := false
deriving DecidableEq

/-- The separator of an invalid declaration is not read. -/
def SpelledList.read (d : SpelledList) (ps : Array Production) : Spelling ListDeclaration := do
  let sort ← Spelling.sort d.sort
  let element ← Spelling.sort d.element
  let terminator ← Spelling.productionAt ps d.terminator
  let cons ← Spelling.productionAt ps d.cons
  match ListDeclaration.ofProductions sort element terminator cons with
  | .error e => throw (.declaration e)
  | .ok declaration =>
      let declaration := declaration.withNonEmpty d.nonEmpty
      match d.separator with
      | none => return declaration
      | some separator => return declaration.withSeparator (← Spelling.intern separator)

structure SpelledGrammar where
  subsorts : SpelledSubsorts := {}
  lists : List SpelledList := []
  /-- Positions of the productions in the order in which they are added, batch by batch. -/
  batches : List (List Nat) := []
deriving DecidableEq

def SpelledGrammar.read (g : SpelledGrammar) (ps : Array Production) : Spelling Grammar := do
  let subsorts ← g.subsorts.read
  let lists ← g.lists.mapM fun d => d.read ps
  let batches ← g.batches.mapM fun batch => batch.mapM (Spelling.productionAt ps)
  return batches.foldl Grammar.withProductions (.ofSorts subsorts (.ofList lists))

end ParseForest
