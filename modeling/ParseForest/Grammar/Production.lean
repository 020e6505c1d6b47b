import ParseForest.Grammar.Name

/-!
# Productions

A production maps a sequence of items, terminals and slots, to a sort. With a
label it constructs terms; without one it only injects one sort into another.
-/
namespace ParseForest

/-- Attribute keys, in symbol order. -/
abbrev Attributes := OrderedSet Symbol

inductive ProductionItem where
  /-- A literal token, which produces no child. -/
  | terminal (token : Symbol)
  /-- A slot that holds a child of the given sort. -/
  | nonterminal (sort : SortName)
deriving DecidableEq

namespace ProductionItem

def slot? : ProductionItem → Option SortName
  | terminal _ => none
  | nonterminal sort => some sort

def text (names : SymbolTable) : ProductionItem → String
  | terminal token => "\"" ++ names.text token ++ "\""
  | nonterminal sort => sort.text names

end ProductionItem

structure Production where
  sort : SortName
  items : List ProductionItem
  label : Option Label := none
  attributes : Attributes := ∅
deriving DecidableEq

namespace Production

instance : Inhabited Production := ⟨⟨default, [], none, ∅⟩⟩

/-- The production that makes every term of `sub` a term of `sort`. -/
def subsort (sort sub : SortName) : Production := ⟨sort, [.nonterminal sub], none, ∅⟩

/-- Sorts of the slots, in order. An application has one child for each. -/
def slots (p : Production) : List SortName := p.items.filterMap ProductionItem.slot?

def arity (p : Production) : Nat := p.slots.length

@[simp] theorem slots_subsort (sort sub : SortName) : (subsort sort sub).slots = [sub] := rfl

@[simp] theorem arity_subsort (sort sub : SortName) : (subsort sort sub).arity = 1 := rfl

/-- Whether the production only groups its operand. -/
def isBracket (p : Production) : Bool := decide (Symbol.bracket ∈ p.attributes)

@[simp] theorem isBracket_iff {p : Production} : p.isBracket ↔ Symbol.bracket ∈ p.attributes :=
  decide_eq_true_iff

def isArrow (p : Production) : Bool := p.label == some Label.arrow

@[simp] theorem isArrow_iff {p : Production} : p.isArrow ↔ p.label = some Label.arrow :=
  beq_iff_eq

def text (names : SymbolTable) (p : Production) : String :=
  let items := p.items.foldl (fun line item => line ++ " " ++ item.text names)
    ("syntax " ++ p.sort.text names ++ " ::=")
  match p.label with
  | some label => items ++ " [klabel(" ++ label.text names ++ ")]"
  | none => items

end Production
end ParseForest
