/-!
# Spans

A span is a half-open range of byte offsets.
-/

namespace Remap

/-- The bytes from `start` up to, not including, `stop`. -/
structure Span where
  start : Nat
  stop : Nat
deriving DecidableEq, Repr, Inhabited

namespace Span

/-- The span of no bytes at an offset. -/
def empty (offset : Nat) : Span := ⟨offset, offset⟩

/-- The span between two offsets, if they are in order. -/
def ofBounds? (start stop : Nat) : Option Span :=
  if start ≤ stop then some ⟨start, stop⟩ else none

/-- The span of `size` bytes from an offset on. -/
def ofSize (start size : Nat) : Span := ⟨start, start + size⟩

end Span

end Remap
