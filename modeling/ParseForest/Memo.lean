import ParseForest.Outcome

/-!
# Memos

A memo remembers the outcome of each node that was transformed. It knows a node by
its number, so equal terms that are different nodes have entries of their own.
-/
namespace ParseForest

structure Memo where
  /-- For a node number, the node and its outcome. -/
  entries : Std.TreeMap Nat (Term × Outcome)

/-- Number of nodes that a memo is expected to hold, which is reported as a setting and sets no
limit. -/
def memoCapacity : Nat := 256

namespace Memo

def empty : Memo := ⟨∅⟩

instance : EmptyCollection Memo := ⟨empty⟩

instance : Inhabited Memo := ⟨empty⟩

/-- The remembered outcome of a node. -/
def get? (memo : Memo) (t : Term) : Option Outcome := memo.entries[t.number]?.map Prod.snd

def insert (memo : Memo) (t : Term) (o : Outcome) : Memo := ⟨memo.entries.insert t.number (t, o)⟩

/-- Number of remembered nodes. -/
def size (memo : Memo) : Nat := memo.entries.size

def isEmpty (memo : Memo) : Bool := memo.size == 0

theorem entries_empty (n : Nat) : (∅ : Memo).entries[n]? = none := by
  rw [show (∅ : Memo) = ⟨∅⟩ from rfl, Std.TreeMap.getElem?_emptyc]

theorem entries_insert (memo : Memo) (t : Term) (o : Outcome) (n : Nat) :
    (memo.insert t o).entries[n]? = if n = t.number then some (t, o) else memo.entries[n]? := by
  simp only [insert, Std.TreeMap.getElem?_insert, Nat.compare_eq_eq, eq_comm (a := t.number)]

@[simp] theorem get?_empty (t : Term) : (∅ : Memo).get? t = none := by
  rw [get?, entries_empty]
  rfl

@[simp] theorem size_empty : (∅ : Memo).size = 0 := rfl

theorem get?_insert (memo : Memo) (t u : Term) (o : Outcome) :
    (memo.insert t o).get? u = if u.number = t.number then some o else memo.get? u := by
  simp only [get?, entries_insert]
  split <;> rfl

theorem size_insert (memo : Memo) (t : Term) (o : Outcome) :
    (memo.insert t o).size = if (memo.get? t).isSome then memo.size else memo.size + 1 := by
  simp [size, insert, get?, Std.TreeMap.size_insert]

end Memo
end ParseForest
