import Remap.Text

/-!
# Rows of coloured text

A row of a report is a list of characters, each in an ink. What is drawn later covers what stood there before. Written
without colours a row is its characters; written with colours each run of characters in one ink stands between the control
sequences of the ink.
-/

namespace Remap

/-- The colour of a character of a report. -/
inductive Ink where
  /-- No colour at all. -/
  | none
  /-- Bold. -/
  | bold
  /-- Bold red: the error itself. -/
  | red
  /-- Bold blue: the frame of the report and remarks about other places. -/
  | blue
deriving DecidableEq, Repr, Inhabited

/-- The control sequences that switch an ink on. -/
def Ink.opening : Ink → Text
  | .none => []
  | .bold => "\x1b[1m".toList
  | .red => "\x1b[1m\x1b[91m".toList
  | .blue => "\x1b[1m\x1b[94m".toList

/-- The control sequence that switches an ink off. -/
def Ink.closing : Ink → Text
  | .none => []
  | _ => "\x1b[0m".toList

/-- A character in an ink. -/
structure Glyph where
  ink : Ink
  char : Char
deriving DecidableEq, Repr, Inhabited

/-- A row of a report. -/
abbrev Row := List Glyph

namespace Row

/-- A text in one ink. -/
def ofText (ink : Ink) (t : Text) : Row := t.map (⟨ink, ·⟩)

/-- So many blanks. -/
def blanks (n : Nat) : Row := List.replicate n ⟨.none, ' '⟩

/-- The row with another one drawn over it from a column on. Blanks fill the way to the column. -/
def cover (r : Row) (column : Nat) (new : Row) : Row :=
  if new.isEmpty then r
  else r.take column ++ blanks (column - r.length) ++ new ++ r.drop (column + new.length)

/-- What stands for a part that is left out. -/
def dots : Text := ['.', '.', '.']

/-- The row with dots in place of the columns from `start` up to `stop`. A part that is shorter than the dots or not wholly
in the row is kept. -/
def elide (r : Row) (start stop : Nat) : Row :=
  if start + dots.length ≤ stop && stop ≤ r.length then r.take start ++ ofText .blue dots ++ r.drop stop else r

/-- The text of a row. -/
def text (r : Row) : Text := r.map (·.char)

/-- The text of a row with the control sequences of its inks around each run of one ink. -/
def colored (r : Row) : Text :=
  (r.splitBy fun a b => a.ink = b.ink).flatMap fun run =>
    match run with
    | [] => []
    | g :: _ => g.ink.opening ++ text run ++ g.ink.closing

/-- A row as it is written. -/
def write (withColors : Bool) (r : Row) : Text := if withColors then r.colored else r.text

@[simp] theorem text_ofText (ink : Ink) (t : Text) : text (ofText ink t) = t := by
  simp only [text, ofText, List.map_map]
  exact List.map_id' t

@[simp] theorem length_ofText (ink : Ink) (t : Text) : (ofText ink t).length = t.length := by
  simp [ofText]

end Row

end Remap
