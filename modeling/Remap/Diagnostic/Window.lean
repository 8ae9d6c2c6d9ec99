import Remap.Diagnostic.Mark
import Remap.Diagnostic.Sheet

/-!
# The window on long lines

A report is at most 140 columns wide. Where the source lines are longer, or stand far to the right, only a window of columns
is shown, and dots stand for what is cut off. The window is chosen to hold the marks and, if there is room, their labels.
-/

namespace Remap

/-- The columns of the source that are shown, and how many fit beside each other. -/
structure Window where
  left : Nat
  right : Nat
  width : Nat
deriving DecidableEq, Repr, Inhabited

namespace Window

/-- How many columns a report may take. -/
def reportWidth : Nat := 140

/-- How many columns are kept free around marks and labels, so that the dots fit. -/
def slack : Nat := 6

/-- The window for lines of at most `longest` bytes. All lines start with `indent` blanks or more, the marks reach from
`first` to `last`, and the labels to `labels`. Deep indentation without a mark is cut down. If the lines still do not fit,
the window holds the first of these that does fit: all between the indentation and the labels, the marks with their labels,
the marks. -/
def fit (width indent first last labels longest : Nat) : Window :=
  let indent := min indent first - slack
  let first := first - slack
  let last := last + slack
  let labels := labels + slack
  let left := if 20 < indent then indent - 16 else 0
  let right := max longest left
  if right - left ≤ width then ⟨left, right, width⟩
  else if labels - indent ≤ width then ⟨indent, indent + width, width⟩
  else if labels - first ≤ width then
    let left := first - (width - (labels - first)) / 2
    ⟨left, left + width, width⟩
  else if last - first ≤ width then
    let left := first - (width - (last - first)) / 5 * 2
    ⟨left, left + width, width⟩
  else ⟨first, last, width⟩

/-- The columns that the blanks at the start of a line take. A line of blanks alone has none. -/
def indentOf (t : Text) : Option Nat :=
  if t.all Text.isBlank then none
  else some ((t.takeWhile Text.isBlank).flatMap fun c => if c = '\t' then Text.shownChar c else [c]).length

/-- The column up to which a mark and its label beside it reach. -/
def labelEnd (m : Mark) : Nat :=
  match m.reach with
  | .within | .closes _ => m.stop.column + m.label.bytes + 1
  | .opens _ | .passes _ => m.stop.column

/-- The smallest of some numbers, 0 if there are none. -/
def least : List Nat → Nat
  | [] => 0
  | n :: rest => rest.foldl min n

/-- The largest of some numbers, 0 if there are none. -/
def greatest (ns : List Nat) : Nat := ns.foldl max 0

/-- The window of `width` columns for lines and the marks on them. -/
def ofLines (width : Nat) (lines : List Text) (marks : List Mark) : Window :=
  let ends := marks.flatMap fun m => [m.start.column, m.stop.column]
  fit width (least (lines.filterMap indentOf)) (least ends) (greatest ends) (greatest (marks.map labelEnd))
    (greatest (lines.map Text.bytes))

end Window

end Remap
