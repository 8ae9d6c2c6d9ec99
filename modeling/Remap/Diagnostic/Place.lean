import Remap.Span
import Remap.Text.Line
import Remap.Text.Width

/-!
# Places in a source

Where an offset of a source stands: its line, and what stands left of it on the line, counted in characters and in columns.
The two ends of a span are placed in different ways, because the end of a span may fall on the end of a line.
-/

namespace Remap

/-- Where an offset stands. -/
structure Place where
  /-- The number of the line, from 1. -/
  line : Nat
  /-- The characters left of the place. -/
  chars : Nat
  /-- The columns left of the place. -/
  column : Nat
  offset : Nat
deriving DecidableEq, Repr, Inhabited

namespace Place

/-- The place where a span starts. An offset inside the end of a line, or past the source, stands one character after the
text of the line. -/
def ofStart (lines : List NumberedLine) (offset : Nat) : Place :=
  match NumberedLine.at? lines offset with
  | none => default
  | some l =>
    let before := l.before offset
    let past := if l.start + l.text.bytes < offset then 1 else 0
    { line := l.number, chars := before.length + past, column := before.columns, offset }

/-- The place where a span from `start` on stops. An offset inside the end of a later line takes one column more. -/
def ofStop (lines : List NumberedLine) (start : Place) (offset : Nat) : Place :=
  if offset = start.offset then start
  else
    match NumberedLine.at? lines offset with
    | none => default
    | some l =>
      let before := l.before offset
      let past := if l.number ≠ start.line && l.start + l.text.bytes < offset then 1 else 0
      { line := l.number, chars := before.length + past, column := before.columns + past, offset }

/-- The place one character further. -/
def next (p : Place) : Place := { p with chars := p.chars + 1, column := p.column + 1, offset := p.offset + 1 }

/-- The place one character back, at most at the start of the line. -/
def previous (p : Place) : Place := { p with chars := p.chars - 1, column := p.column - 1, offset := p.offset - 1 }

/-- Whether one place does not come after another. -/
def notAfter (a b : Place) : Bool :=
  a.line < b.line || a.line = b.line &&
    (a.chars < b.chars || a.chars = b.chars &&
      (a.column < b.column || a.column = b.column && a.offset ≤ b.offset))

end Place

/-- The span that is drawn for a span of a source of `size` bytes. An empty span grows to one byte, except at the end. -/
def Span.drawn (size : Nat) (s : Span) : Span :=
  if s.start = s.stop then ⟨s.start, min (s.start + 1) size⟩ else s

end Remap
