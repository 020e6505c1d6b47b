import ParseForest.Grammar.Production

/-!
# List sorts

A list sort is declared with two productions: the cons production takes an
element followed by a list, the terminator takes nothing, and both produce the
list sort. A declaration carries the proof of this, so that terms can be built
from it without further checks.
-/
namespace ParseForest

structure ListDeclaration where
  sort : SortName
  element : SortName
  terminator : Production
  cons : Production
  /-- The token between elements in concrete syntax. -/
  separator : Option Symbol := none
  /-- Whether a list has at least one element. -/
  nonEmpty : Bool := false
  terminator_sort : terminator.sort = sort
  cons_sort : cons.sort = sort
  terminator_arity : terminator.arity = 0
  cons_slots : cons.slots = [element, sort]
deriving DecidableEq

/-- Why productions do not declare a list sort. -/
inductive DeclarationError where
  /-- A production is of another sort. -/
  | sortMismatch (list found : SortName)
  /-- The terminator has slots. -/
  | terminatorNotNullary (list : SortName) (arity : Nat)
  /-- The cons production does not take an element followed by a list. -/
  | malformedCons (list element : SortName)
deriving DecidableEq

namespace DeclarationError

def text (names : SymbolTable) : DeclarationError → String
  | sortMismatch list found =>
      "production of sort '" ++ found.text names ++ "' cannot declare list sort '"
        ++ list.text names ++ "'"
  | terminatorNotNullary list arity =>
      "terminator of list sort '" ++ list.text names ++ "' has " ++ toString arity
        ++ " nonterminal(s)"
  | malformedCons list element =>
      "cons production of list sort '" ++ list.text names ++ "' must take '"
        ++ element.text names ++ "' followed by '" ++ list.text names ++ "'"

end DeclarationError

namespace ListDeclaration

/-- Declare `sort` as the lists of `element`, if the productions have the right shape. -/
def ofProductions (sort element : SortName) (terminator cons : Production) :
    Except DeclarationError ListDeclaration :=
  if ht : terminator.sort = sort then
    if hc : cons.sort = sort then
      if ha : terminator.arity = 0 then
        if hs : cons.slots = [element, sort] then
          .ok { sort, element, terminator, cons, terminator_sort := ht, cons_sort := hc,
                terminator_arity := ha, cons_slots := hs }
        else .error (.malformedCons sort element)
      else .error (.terminatorNotNullary sort terminator.arity)
    else .error (.sortMismatch sort cons.sort)
  else .error (.sortMismatch sort terminator.sort)

def withSeparator (d : ListDeclaration) (separator : Symbol) : ListDeclaration :=
  { d with separator := some separator }

def withNonEmpty (d : ListDeclaration) (nonEmpty : Bool) : ListDeclaration :=
  { d with nonEmpty }

theorem cons_arity (d : ListDeclaration) : d.cons.arity = 2 := by
  rw [Production.arity, d.cons_slots]
  rfl

end ListDeclaration

/-- The list declarations of a grammar, in the order in which they were added. A sort may be
declared more than once. -/
structure ListCatalog where
  declarations : List ListDeclaration

namespace ListCatalog

def empty : ListCatalog := ⟨[]⟩

instance : EmptyCollection ListCatalog := ⟨empty⟩

instance : Inhabited ListCatalog := ⟨empty⟩

def insert (c : ListCatalog) (d : ListDeclaration) : ListCatalog := ⟨c.declarations ++ [d]⟩

def ofList (ds : List ListDeclaration) : ListCatalog := ds.foldl insert ∅

@[simp] theorem declarations_insert (c : ListCatalog) (d : ListDeclaration) :
    (c.insert d).declarations = c.declarations ++ [d] := rfl

theorem declarations_foldl_insert (c : ListCatalog) (ds : List ListDeclaration) :
    (ds.foldl insert c).declarations = c.declarations ++ ds := by
  induction ds generalizing c with
  | nil => simp
  | cons d ds ih => simp [ih]

@[simp] theorem declarations_ofList (ds : List ListDeclaration) :
    (ofList ds).declarations = ds := declarations_foldl_insert ∅ ds

/-- The declarations of a list sort; none if it is no list sort. -/
def listsFor (c : ListCatalog) (s : SortName) : List ListDeclaration :=
  c.declarations.filter fun d => d.sort == s

/-- The declaration by which slots of a list sort are completed. -/
def firstFor (c : ListCatalog) (s : SortName) : Option ListDeclaration :=
  c.declarations.find? fun d => d.sort == s

def isListSort (c : ListCatalog) (s : SortName) : Bool := c.declarations.any fun d => d.sort == s

/-- The declarations of lists with the given element sort. -/
def listsOf (c : ListCatalog) (element : SortName) : List ListDeclaration :=
  c.declarations.filter fun d => d.element == element

/-- The list sorts, in the order of their first declarations. -/
def listSorts (c : ListCatalog) : List SortName := (c.declarations.map (·.sort)).eraseDups

/-- Number of list sorts. -/
def size (c : ListCatalog) : Nat := c.listSorts.length

def isEmpty (c : ListCatalog) : Bool := c.size == 0

theorem isListSort_iff {c : ListCatalog} {s : SortName} :
    c.isListSort s ↔ ∃ d ∈ c.declarations, d.sort = s := by
  simp [isListSort]

theorem firstFor_eq_head? (c : ListCatalog) (s : SortName) :
    c.firstFor s = (c.listsFor s).head? := by
  simp [firstFor, listsFor]

theorem sort_of_firstFor {c : ListCatalog} {s : SortName} {d : ListDeclaration}
    (h : c.firstFor s = some d) : d.sort = s := by
  simpa using List.find?_some h

theorem isSome_firstFor_iff {c : ListCatalog} {s : SortName} :
    (c.firstFor s).isSome ↔ c.isListSort s := by
  simp [firstFor, isListSort]

end ListCatalog
end ParseForest
