import ParseForest.InternalError

/-!
# Sessions

A session owns what numbers things: the symbol table and the supply of node
numbers. Everything that makes symbols or nodes is an action of `Build`, which
passes the session along and may end in an internal error.
-/
namespace ParseForest

structure Session where
  symbols : SymbolTable
  /-- Number of nodes made so far, which is the number of the next node. -/
  nodes : Nat

namespace Session

/-- Only the reserved strings are known, and there are no nodes. -/
def initial : Session := ⟨.initial, 0⟩

instance : Inhabited Session := ⟨initial⟩

end Session

abbrev Build := StateT Session (Except InternalError)

namespace Build

def intern (name : String) : Build Symbol := fun s =>
  .ok ((s.symbols.intern name).1, { s with symbols := (s.symbols.intern name).2 })

/-- The number of a node that is about to be made. -/
def freshNode : Build Nat := fun s => .ok (s.nodes, { s with nodes := s.nodes + 1 })

/-- Ask something of the symbol table, which stays as it is. -/
def consult {α : Type} (question : SymbolTable → Except InternalError α) : Build α := fun s =>
  (question s.symbols).map fun answer => (answer, s)

@[simp] theorem intern_run (name : String) (s : Session) : (intern name).run s =
    .ok ((s.symbols.intern name).1, { s with symbols := (s.symbols.intern name).2 }) := rfl

@[simp] theorem freshNode_run (s : Session) :
    freshNode.run s = .ok (s.nodes, { s with nodes := s.nodes + 1 }) := rfl

@[simp] theorem consult_run {α : Type} (question : SymbolTable → Except InternalError α)
    (s : Session) : (consult question).run s = (question s.symbols).map fun a => (a, s) := rfl

end Build
end ParseForest
