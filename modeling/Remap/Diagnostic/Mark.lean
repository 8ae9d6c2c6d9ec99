import Remap.Diagnostic.Place
import Remap.Diagnostic.Row

/-!
# Marks under a source line

A mark underlines a part of one line and may carry a label. The label of the rightmost mark stands right of it, and so does
every label further left as long as it fits before the next mark. From the first label on that does not fit, each label
hangs one level lower.

A span of several lines leaves a mark on the line where it opens, on lines it passes and on the line where it closes.
-/

namespace Remap

/-- What a mark points out. -/
inductive Mark.Role where
  /-- The place of the diagnostic. -/
  | primary
  /-- Another place that a remark is about. -/
  | related
deriving DecidableEq, Repr, Inhabited

/-- How much of its span a mark shows. A span of several lines is joined by an upright line, which stands further right the
deeper it is. -/
inductive Mark.Reach where
  /-- The whole span. -/
  | within
  /-- The start of a span of several lines. -/
  | opens (depth : Nat)
  /-- A line between the start and the end of a span. -/
  | passes (depth : Nat)
  /-- The end of a span of several lines. -/
  | closes (depth : Nat)
deriving DecidableEq, Repr, Inhabited

/-- An underlined part of a line. -/
structure Mark where
  role : Mark.Role
  reach : Mark.Reach
  start : Place
  stop : Place
  label : Text
deriving DecidableEq, Repr, Inhabited

namespace Mark

/-- The ink of a mark and its label. -/
def Role.ink : Role → Ink
  | .primary => .red
  | .related => .blue

/-- The character a mark is drawn with. -/
def Role.stroke : Role → Char
  | .primary => '^'
  | .related => '-'

/-- Whether there is something to say beside the mark. -/
def hasLabel (m : Mark) : Bool := !m.label.isEmpty

/-- The depth of the upright line that starts or ends at the mark. -/
def turn? (m : Mark) : Option Nat :=
  match m.reach with
  | .opens depth | .closes depth => some depth
  | .within | .passes _ => none

/-- Whether the mark stands only for a line between the ends of its span. -/
def isPassing (m : Mark) : Bool :=
  match m.reach with
  | .passes _ => true
  | _ => false

/-- The depth of the span that opens at the mark. -/
def opening? (m : Mark) : Option Nat :=
  match m.reach with
  | .opens depth => some depth
  | _ => none

/-- Whether the columns of two marks share one, the first mark widened at its right by `padding`. -/
def overlaps (a b : Mark) (padding : Nat) : Bool :=
  (b.start.column ≤ a.start.column && a.start.column < b.stop.column)
    || (a.start.column ≤ b.start.column && b.start.column < a.stop.column + padding)

/-- How many columns a mark underlines. -/
def width (m : Mark) : Nat := max (m.stop.column - m.start.column) (m.start.column - m.stop.column)

/-- Whether a mark right of or at the start of `next` cannot keep its label on the row of the underlines. Two marks under the
same columns share it if only one has a label. -/
def collides (m next : Mark) : Bool :=
  next.overlaps m 0
    && !(next.start.column = m.start.column && next.stop.column = m.stop.column && !next.hasLabel)

/-- The columns that the label of a mark asks for at its right. -/
def room (m : Mark) : Nat := if m.hasLabel then m.label.bytes + 2 else 0

/-- Whether the mark `next` left of `m`, whose label is at `level`, has to be one level lower. -/
def crowds (m next : Mark) (level : Nat) : Bool :=
  let near := next.overlaps m next.room
  (near && m.hasLabel && next.hasLabel)
    || (m.turn?.isSome && next.hasLabel)
    || (m.hasLabel && next.turn?.isSome)
    || (m.turn?.isSome && next.turn?.isSome)
    || (near && next.stop.column ≤ m.stop.column && next.hasLabel && level = 0)

/-- Marks from right to left with the level of their label, from a level on. -/
def levels (level : Nat) : List Mark → List (Nat × Mark)
  | [] => []
  | m :: left =>
    let own := if level = 0 && m.hasLabel && left.any m.collides then 1 else level
    (own, m) :: levels (if left.any (m.crowds · own) then own + 1 else own) left

/-- Marks from right to left; those that start together keep their order. -/
def rightToLeft (marks : List Mark) : List Mark := marks.mergeSort fun a b => b.start.chars ≤ a.start.chars

/-- The marks with their levels and the number of rows below the underlines. Where several spans open and nothing else stands,
the rightmost one goes lowest, so that their lines do not cross. -/
def arranged (marks : List Mark) : List (Nat × Mark) × Nat :=
  let placed := levels 0 (rightToLeft marks)
  let lowest := (placed.map (·.1)).foldl max 0
  let rows := if lowest = 0 then 0 else lowest + 1
  if placed.all fun (_, m) => m.opening?.isSome then (placed.map fun (level, m) => (lowest - level, m), rows - 1)
  else (placed, rows)

/-- The levels keep the marks and their order. -/
theorem map_snd_levels (level : Nat) (marks : List Mark) : (levels level marks).map (·.2) = marks := by
  induction marks generalizing level with
  | nil => rfl
  | cons m left ih => simp [levels, ih]

end Mark

end Remap
