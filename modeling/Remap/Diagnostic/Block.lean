import Remap.Diagnostic.Window

/-!
# A source line and its marks

A source line is drawn with its number, a bar and the part of it that the window shows. Below it stand the underlines of its
marks and the labels, those that hang on connectors. The whole is a list of strokes, drawn in order.
-/

namespace Remap

/-- The measures that all rows of a report share. -/
structure Frame where
  /-- The columns for line numbers. -/
  digits : Nat
  /-- How many upright lines stand beside each other. -/
  depth : Nat
  window : Window
deriving DecidableEq, Repr, Inhabited

/-- A source line and the marks on it. -/
structure MarkedLine where
  line : NumberedLine
  marks : List Mark
deriving DecidableEq, Repr, Inhabited

/-- The rows of a source line, and the upright lines that start or end there. -/
structure Block where
  rows : Sheet
  turns : List (Nat × Ink)
deriving DecidableEq, Repr, Inhabited

/-- The part of a source line that is shown, and how many columns further left than in the source its marks stand. -/
structure View where
  strokes : List Stroke
  shift : Nat
deriving DecidableEq, Repr, Inhabited

namespace Frame

/-- Digits of a number. -/
def decimal (n : Nat) : Text := (toString n).toList

/-- The column in which code starts, beside so many upright lines. -/
def codeStart (digits depth : Nat) : Nat := if depth = 0 then digits + 3 else digits + depth + 4

/-- The column in which code starts. -/
def code (f : Frame) : Nat := codeStart f.digits f.depth

/-- The column of the upright line of a depth. -/
def upright (f : Frame) (depth : Nat) : Nat := f.digits + 2 + depth

/-- The bar between line numbers and code. -/
def bar (f : Frame) (row : Nat) : Stroke := ⟨row, f.digits + 1, .blue, ['|']⟩

/-- The number of a line, at the right of its columns. -/
def number (f : Frame) (n : Nat) : Stroke :=
  ⟨0, 0, .blue, List.replicate (f.digits - (decimal n).length) ' ' ++ decimal n⟩

/-- A source line with its number and bar. Where the window cuts it, three columns or little more give way to dots. -/
def view (f : Frame) (l : NumberedLine) : View :=
  let shown := l.text.shown
  let length := shown.columns
  let left := min f.window.left length
  let right := if length - f.window.left ≤ f.window.width then length else min length f.window.right
  let (skipped, rest) := shown.dropColumns left
  let code := rest.takeColumns (right - left)
  let (hidden, tail) := if 0 < f.window.left then code.dropColumns Row.dots.length else (0, code)
  let last := code.length - (Text.dropColumns Row.dots.length code.reverse).2.length
  { strokes :=
      (if 0 < f.window.left then [⟨0, f.code, .blue, Row.dots⟩] else [])
        ++ [⟨0, f.code + hidden, .none, tail⟩]
        ++ (if right < length then [⟨0, f.code + hidden + tail.length - last, .blue, Row.dots⟩] else [])
        ++ [f.number l.number, f.bar 0],
    shift := max left skipped }

/-- The column in which a mark starts. -/
def start (f : Frame) (shift : Nat) (m : Mark) : Nat := f.code + m.start.column - shift

/-- The level line of a span of several lines from its upright line to the mark. -/
def levelLine (f : Frame) (shift level : Nat) (m : Mark) : List Stroke :=
  match m.turn? with
  | none => []
  | some depth =>
    let first := f.upright depth + 1
    [⟨level + 1, first, m.role.ink, List.replicate (f.start shift m - first) '_'⟩]

/-- The connector from a mark to its level, and what stands of its upright line beside it. -/
def connector (f : Frame) (shift rows level : Nat) (m : Mark) : List Stroke :=
  let upright := fun (depth row : Nat) => (⟨row, f.upright depth, m.role.ink, ['|']⟩ : Stroke)
  (if 0 < level && (m.hasLabel || m.turn?.isSome) then
    (List.range' 1 (level + 1)).map fun row => ⟨row, f.start shift m, m.role.ink, ['|']⟩
  else [])
    ++ match m.reach with
    | .opens depth =>
      ⟨level + 1, f.upright depth, m.role.ink, [' ']⟩ :: (List.range' (level + 2) (rows - level)).map (upright depth)
    | .closes depth => (List.range' 0 (level + 2)).map (upright depth)
    | .within | .passes _ => []

/-- The label of a mark: right of it, or at its level. -/
def label (f : Frame) (shift level : Nat) (m : Mark) : Stroke :=
  if level = 0 then
    let gap := if m.stop.column = 0 then 2 else 1
    ⟨1, f.code + (m.stop.column + gap - shift), m.role.ink, m.label⟩
  else ⟨level + 2, f.code + (m.start.column - shift), m.role.ink, m.label⟩

/-- The underline of a mark. -/
def underline (f : Frame) (shift : Nat) (m : Mark) : List Stroke :=
  let width := m.stop.column - m.start.column
  ⟨1, f.start shift m, m.role.ink, List.replicate width m.role.stroke⟩
    :: if m.turn?.isSome then [⟨1, f.start shift m, m.role.ink, [m.role.stroke]⟩] else []

/-- Marks with their levels in the order in which they are underlined: long ones first, of equal ones the primary last, so
that each stays visible. -/
def byWidth (placed : List (Nat × Mark)) : List (Nat × Mark) :=
  placed.mergeSort fun (_, a) (_, b) =>
    b.width < a.width || b.width = a.width && (a.role = .related || b.role = .primary)

/-- Whether a mark shares a column with another one of the list. -/
def overlapped (marks : List Mark) : List Bool :=
  marks.mapIdx fun i m => (marks.mapIdx fun j n => i ≠ j && (n.overlaps m 0 || m.overlaps n 0)).any id

/-- Dots in the middle of a mark that is wider than two windows, in the code and in the underline. -/
def shorten (f : Frame) (shift : Nat) (rows : Sheet) (m : Mark) : Sheet :=
  let keep := max (f.window.width / 3) 5
  if m.reach = .within && f.window.width * 2 < m.width && 10 < m.width then
    let cut := fun (r : Row) => r.elide (f.code + m.start.chars + keep - shift) (f.code + m.stop.chars - keep - shift)
    (rows.change cut 0).change cut 1
  else rows

/-- Whether all marks open at the first character of the line that is not blank, or pass it. -/
def opensPlainly (m : MarkedLine) : Bool :=
  m.marks.all fun k => k.isPassing || k.opening?.isSome && (m.line.text.shown.take k.start.chars).all Text.isBlank

/-- The upright lines that start or end at marks. -/
def turns (marks : List Mark) : List (Nat × Ink) := marks.filterMap fun m => m.turn?.map (·, m.role.ink)

/-- A source line and its marks. A span that opens at the start of its line is shown by a slash beside the line. -/
def block (f : Frame) (m : MarkedLine) : Block :=
  let v := f.view m.line
  if opensPlainly m then
    let slashes := (turns m.marks).map fun (depth, ink) => ⟨0, f.upright depth, ink, ['/']⟩
    ⟨.ofStrokes (v.strokes ++ slashes), turns m.marks⟩
  else
    let (placed, rows) := Mark.arranged m.marks
    let each := fun (g : Nat → Mark → List Stroke) => placed.flatMap fun (level, k) => g level k
    let drawn := byWidth placed
    let sheet := Sheet.ofStrokes <|
      v.strokes
        ++ (List.range' 1 (rows + 1)).map f.bar
        ++ each (f.levelLine v.shift)
        ++ each (f.connector v.shift rows)
        ++ each (fun level k => [f.label v.shift level k])
        ++ drawn.flatMap fun (_, k) => f.underline v.shift k
    let alone := ((overlapped (placed.map (·.2))).zip drawn).filterMap fun (shared, _, k) => if shared then none else some k
    ⟨alone.foldl (f.shorten v.shift) sheet, turns (drawn.map (·.2))⟩

end Frame

end Remap
