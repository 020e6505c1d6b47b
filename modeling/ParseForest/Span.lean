import ParseForest.Symbol.Reserved

/-!
# Source spans

A span is an interval of a source context, such as a file, and serves
diagnostics only. Spans are ordered by context, then offset, then length.
-/
namespace ParseForest

structure Span where
  offset : Nat
  len : Nat
  context : Symbol
deriving DecidableEq

namespace Span

instance : Keyed Span where
  key s := [s.context.index, s.offset, s.len]
  key_injective a b h := by
    obtain ⟨_, _, ⟨_⟩⟩ := a
    obtain ⟨_, _, ⟨_⟩⟩ := b
    simp only [List.cons.injEq, and_true] at h
    obtain ⟨rfl, rfl, rfl⟩ := h
    rfl

/-- The empty interval at the start of a context. -/
def start (context : Symbol) : Span := ⟨0, 0, context⟩

/-- Stands where a span is expected and not known. -/
def unknown : Span := start Symbol.unknownContext

instance : Inhabited Span := ⟨unknown⟩

/-- End of the interval. -/
def stop (s : Span) : Nat := s.offset + s.len

def text (names : SymbolTable) (s : Span) : String :=
  "[" ++ names.text s.context ++ " offset " ++ toString s.offset ++ "-" ++ toString s.stop ++ "]"

end Span
end ParseForest
