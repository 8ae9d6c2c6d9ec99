import Remap.Text
import Remap.Text.Visible
import Remap.Text.Wide

/-!
# Columns of text

How many columns a text takes where every column has the same width. Characters of the East Asian scripts and most pictures
take two columns, and a character that only changes the one before it takes none.

A line is shown with its tabs as four spaces and with pictures in place of controls, and the columns are those of the text
as it is shown.
-/

namespace Remap.Text

/-- The characters with the Unicode property `Default_Ignorable_Code_Point`. -/
def ignorable : Ranges :=
  [(0xAD, 0xAD), (0x34F, 0x34F), (0x61C, 0x61C), (0x115F, 0x1160), (0x17B4, 0x17B5), (0x180B, 0x180F),
    (0x200B, 0x200F), (0x202A, 0x202E), (0x2060, 0x206F), (0x3164, 0x3164), (0xFE00, 0xFE0F), (0xFEFF, 0xFEFF),
    (0xFFA0, 0xFFA0), (0xFFF0, 0xFFF8), (0x1BCA0, 0x1BCA3), (0x1D173, 0x1D17A), (0xE0000, 0xE0FFF)]

/-- Vowels and final consonants that join the Hangul consonant before them. -/
def joiningJamo : Ranges := [(0x1160, 0x11FF), (0xD7B0, 0xD7C6), (0xD7CB, 0xD7FB)]

/-- Marks written over or under the number or word after them, and letters that change the letter after them. -/
def preceding : Ranges :=
  [(0x605, 0x605), (0x70F, 0x70F), (0x890, 0x891), (0x8E2, 0x8E2), (0xD4E, 0xD4E), (0xA8FA, 0xA8FA),
    (0x111C2, 0x111C3), (0x113D1, 0x113D1), (0x1193F, 0x1193F), (0x11941, 0x11941), (0x11A3A, 0x11A3A),
    (0x11A84, 0x11A89), (0x11D46, 0x11D46), (0x11F02, 0x11F02)]

/-- Marks that change the direction of the text around them. -/
def directing : Ranges := [(0x202A, 0x202E), (0x2066, 0x2069)]

/-- How many columns a character takes. The characters named one by one are wider or narrower than their class. -/
def columnsOf (c : Char) : Nat :=
  let n := c.toNat
  if c = '\t' then 4
  else if n < 0xAD || (0xAD < n && n < 0x300) then 1
  else if directing.hold n || n = 0x2D7F || isSoundMark c then 1
  else if n = 0x115F || n = 0x17A4 then 2
  else if n = 0x17D8 then 3
  else if ignorable.hold n || extending.hold n || joiningJamo.hold n || preceding.hold n then 0
  else if wide.hold n then 2
  else 1

/-- How many columns a text takes on one line. -/
def columns : Text → Nat
  | [] => 0
  | c :: rest => columnsOf c + columns rest

/-- A text without the characters that start within its first `n` columns, and the columns that these take. -/
def dropColumns : Nat → Text → Nat × Text
  | _, [] => (0, [])
  | n, c :: rest =>
    if n = 0 then (0, c :: rest)
    else
      let (taken, left) := dropColumns (n - columnsOf c) rest
      (columnsOf c + taken, left)

/-- The characters at the start of a text that fit into `n` columns. -/
def takeColumns : Nat → Text → Text
  | _, [] => []
  | n, c :: rest => if columnsOf c ≤ n then c :: takeColumns (n - columnsOf c) rest else []

/-- A character as it is shown: a tab as spaces, a control character as its picture, a mark of direction as a replacement.
The joiner of pictures is left out. -/
def shownChar (c : Char) : Text :=
  if c = '\t' then [' ', ' ', ' ', ' ']
  else if c = '\n' then ['\n']
  else if c.toNat < 0x20 then [Char.ofNat (0x2400 + c.toNat)]
  else if c.toNat = 0x7F then ['\u2421']
  else if c.toNat = 0x200D then []
  else if directing.hold c.toNat then ['\ufffd']
  else [c]

/-- A text as it is shown. -/
def shown (t : Text) : Text := t.flatMap shownChar

@[simp] theorem columns_nil : columns [] = 0 := rfl

@[simp] theorem columns_cons (c : Char) (t : Text) : columns (c :: t) = columnsOf c + columns t := rfl

@[simp] theorem columns_append (s t : Text) : columns (s ++ t) = columns s + columns t := by
  induction s with
  | nil => simp
  | cons c s ih => simp [ih, Nat.add_assoc]

/-- What is taken and what is left make up the whole. -/
theorem columns_dropColumns (n : Nat) (t : Text) : (dropColumns n t).1 + columns (dropColumns n t).2 = columns t := by
  induction t generalizing n with
  | nil => rfl
  | cons c rest ih =>
    rw [dropColumns]
    split
    · simp
    · simpa [Nat.add_assoc] using ih (n - columnsOf c)

/-- What is taken fits. -/
theorem columns_takeColumns_le (n : Nat) (t : Text) : columns (takeColumns n t) ≤ n := by
  induction t generalizing n with
  | nil => simp [takeColumns]
  | cons c rest ih =>
    rw [takeColumns]
    split
    · have := ih (n - columnsOf c)
      simp only [columns_cons]
      omega
    · simp

end Remap.Text
