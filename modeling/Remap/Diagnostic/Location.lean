import Remap.Span
import Remap.Text

/-!
# Locations

An offset is shown as a line, counted from 1, and a column, counted from 0 in characters. A location gives the two ends
of a span in this form.
-/

namespace Remap

/-- A line, from 1, and a column in characters, from 0. -/
structure Position where
  line : Nat
  column : Nat
deriving DecidableEq, Repr, Inhabited

namespace Position

/-- The position after one more character. -/
def next (p : Position) (c : Char) : Position :=
  if c = '\n' then ⟨p.line + 1, 0⟩ else ⟨p.line, p.column + 1⟩

/-- The position reached from `p` by the characters that start within the first `offset` bytes of a text. -/
def advance (p : Position) : Text → Nat → Position
  | [], _ => p
  | c :: rest, offset => if offset = 0 then p else (p.next c).advance rest (offset - c.utf8Size)

/-- The position of a byte offset; an offset past the end counts as the end. -/
def ofOffset (source : Text) (offset : Nat) : Position := advance ⟨1, 0⟩ source offset

end Position

/-- The two ends of a span as lines and columns. All zero when nothing is known. -/
structure Location where
  startLine : Nat := 0
  startColumn : Nat := 0
  endLine : Nat := 0
  endColumn : Nat := 0
deriving DecidableEq, Repr, Inhabited

namespace Location

/-- The location of a span in a source text. -/
def ofSpan (source : Text) (span : Span) : Location :=
  let a := Position.ofOffset source span.start
  let b := Position.ofOffset source span.stop
  ⟨a.line, a.column, b.line, b.column⟩

/-- The start as line and column. -/
def display (l : Location) : String := toString l.startLine ++ ":" ++ toString l.startColumn

end Location

end Remap
