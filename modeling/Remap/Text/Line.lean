import Remap.Text

/-!
# Lines

A text is cut into lines at each line feed. A carriage return before the line feed belongs to the end of the line. A text
that ends with a line feed has no empty line after it.
-/

namespace Remap

/-- A line of a text: what it shows and how it ends. The last line may end with nothing. -/
structure Line where
  text : Text
  ending : Text
deriving DecidableEq, Repr, Inhabited

namespace Line

/-- The lines of a text, in order. -/
def ofText : Text → List Line
  | [] => []
  | '\r' :: '\n' :: rest => ⟨[], ['\r', '\n']⟩ :: ofText rest
  | '\n' :: rest => ⟨[], ['\n']⟩ :: ofText rest
  | c :: rest =>
    match ofText rest with
    | [] => [⟨[c], []⟩]
    | l :: ls => ⟨c :: l.text, l.ending⟩ :: ls

/-- Size of the line in bytes, its end included. -/
def bytes (l : Line) : Nat := l.text.bytes + l.ending.bytes

/-- Nothing is lost between the lines. -/
theorem flatMap_ofText (t : Text) : (ofText t).flatMap (fun l => l.text ++ l.ending) = t := by
  fun_induction ofText t with
  | case1 => rfl
  | case2 rest ih => simp [ih]
  | case3 rest ih => simp [ih]
  | case4 c rest _ _ h ih => rw [h] at ih; simp_all
  | case5 c rest _ _ l ls h ih => rw [h] at ih; simp_all

end Line

/-- A line with its number, from 1, and the offset at which it starts. -/
structure NumberedLine extends Line where
  number : Nat
  start : Nat
deriving DecidableEq, Repr, Inhabited

namespace NumberedLine

/-- Lines numbered from `number` on, the first of them at offset `start`. -/
def ofLines (number start : Nat) : List Line → List NumberedLine
  | [] => []
  | l :: ls => { l with number, start } :: ofLines (number + 1) (start + l.bytes) ls

/-- The numbered lines of a text. A text without characters has one empty line. -/
def ofText (t : Text) : List NumberedLine :=
  if t.isEmpty then [{ text := [], ending := [], number := 1, start := 0 }] else ofLines 1 0 (Line.ofText t)

/-- Whether an offset lies in the line or its end. -/
def holds (l : NumberedLine) (offset : Nat) : Bool := l.start ≤ offset && offset < l.start + l.bytes

/-- The line that holds an offset; an offset past the end belongs to the last line. -/
def at? (lines : List NumberedLine) (offset : Nat) : Option NumberedLine :=
  (lines.find? (·.holds offset)).or lines.getLast?

/-- The text of the line before an offset. -/
def before (l : NumberedLine) (offset : Nat) : Text := l.text.takeBytes (offset - l.start)

end NumberedLine

end Remap
