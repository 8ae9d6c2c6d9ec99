import Remap.Pattern.Error
import Remap.Pattern.Term

/-!
# Escapes of a pattern

What a backslash introduces, and how blanks and comments are passed over where a flag makes them insignificant
(`extended` below).
-/

namespace Remap.Pattern

/-- The text after blanks and comments. -/
def skipBlanks : Bool → Text → Text
  | _, [] => []
  | true, c :: rest => skipBlanks (c ≠ '\n') rest
  | false, c :: rest =>
    if Text.isBlank c then skipBlanks false rest else if c = '#' then skipBlanks true rest else c :: rest

/-- The text after blanks and comments, where they are insignificant. -/
def settle (extended : Bool) (t : Text) : Text := if extended then skipBlanks false t else t

/-- The text after its first character, and after blanks. -/
def after (extended : Bool) (t : Text) : Text := settle extended (t.drop 1)

/-- The characters that satisfy a test before the first that does not, and the text from there on. Blanks and comments
between them are passed over where they are insignificant; `comment` says that one is being passed. -/
def collect (extended : Bool) (p : Char → Bool) : Bool → Text → Text × Text
  | _, [] => ([], [])
  | true, c :: rest => collect extended p (c ≠ '\n') rest
  | false, c :: rest =>
    if extended && Text.isBlank c then collect extended p false rest
    else if extended && c = '#' then collect extended p true rest
    else if p c then
      let (taken, left) := collect extended p false rest
      (c :: taken, left)
    else ([], c :: rest)

/-- What an escape, or a character of a class, stands for. -/
inductive Primitive where
  | literal (l : Literal)
  | assertion
  | shorthand (s : Shorthand)
deriving DecidableEq, Repr, Inhabited

/-- The characters with a meaning of their own. -/
def isMeta (c : Char) : Bool :=
  ['\\', '.', '+', '*', '?', '(', ')', '|', '[', ']', '\x7b', '\x7d', '^', '$', '#', '&', '-', '~'].contains c

/-- The characters that a backslash makes literal: those with a meaning of their own, and all of ASCII but letters, digits
and angle brackets. -/
def isEscapable (c : Char) : Bool :=
  isMeta c || (c.toNat < 0x80 && !c.isAlphanum && c ≠ '<' && c ≠ '>')

/-- Whether a character is a hexadecimal digit. -/
def isHex (c : Char) : Bool := c.isDigit || ('a' ≤ c && c ≤ 'f') || ('A' ≤ c && c ≤ 'F')

/-- The value of a hexadecimal digit. -/
def hexValue (c : Char) : Nat :=
  if c.isDigit then c.toNat - '0'.toNat
  else if 'a' ≤ c then c.toNat - 'a'.toNat + 10
  else c.toNat - 'A'.toNat + 10

/-- The character with a code point written in hexadecimal digits. -/
def charOfHex (byteForm : Bool) (digits : Text) : Except Error Primitive :=
  let n := digits.foldl (fun n c => 16 * n + hexValue c) 0
  if n.isValidChar then .ok (.literal ⟨Char.ofNat n, byteForm⟩) else .error .escapeHexInvalid

/-- A number of hexadecimal digits. The first stands at the start of the text. -/
def hexDigits (extended : Bool) : Nat → Text → Except Error (Text × Text)
  | 0, t => .ok ([], t)
  | n + 1, t =>
    match t with
    | [] => .error .escapeUnexpectedEof
    | c :: _ =>
      if isHex c then
        match hexDigits extended n (after extended t) with
        | .ok (digits, rest) => .ok (c :: digits, rest)
        | .error e => .error e
      else .error .escapeHexInvalidDigit

/-- A character by its code point; the text begins with the letter of the escape. -/
def hexEscape (extended : Bool) (letter : Char) (t : Text) : Except Error (Primitive × Text) :=
  match after extended t with
  | [] => .error .escapeUnexpectedEof
  | '\x7b' :: rest =>
    let (digits, left) := collect extended (· ≠ '\x7d') false rest
    if !digits.all isHex then .error .escapeHexInvalidDigit
    else if left.isEmpty then .error .escapeUnexpectedEof
    else if digits.isEmpty then .error .escapeHexEmpty
    else return (← charOfHex false digits, after extended left)
  | t => do
    let count := if letter = 'x' then 2 else if letter = 'u' then 4 else 8
    let (digits, left) ← hexDigits extended count t
    return (← charOfHex (letter = 'x') digits, left)

/-- A text cut at the first place where another stands in it. -/
def cutAt (mark : Text) : Text → Option (Text × Text)
  | [] => none
  | c :: rest =>
    if mark.isPrefixOf (c :: rest) then some ([], (c :: rest).drop mark.length)
    else (cutAt mark rest).map fun (a, b) => (c :: a, b)

/-- The property a name between braces asks for. A sign divides the name from the value. -/
def propertyOf (name : Text) : Property :=
  match cutAt ['!', '='] name, cutAt [':'] name, cutAt ['='] name with
  | some (n, v), _, _ => ⟨n, some v⟩
  | none, some (n, v), _ => ⟨n, some v⟩
  | none, none, some (n, v) => ⟨n, some v⟩
  | none, none, none => ⟨name, none⟩

/-- A class by property; the text begins with the letter of the escape. -/
def propertyEscape (extended : Bool) (t : Text) : Except Error (Primitive × Text) :=
  match after extended t with
  | [] => .error .escapeUnexpectedEof
  | '\x7b' :: rest =>
    let (name, left) := collect extended (· ≠ '\x7d') false rest
    if left.isEmpty then .error .escapeUnexpectedEof
    else .ok (.shorthand (.property (propertyOf name)), left.drop 1)
  | c :: rest =>
    if c = '\\' then .error .unicodeClassInvalid
    else .ok (.shorthand (.property ⟨[c], none⟩), settle extended rest)

/-- What may stand in the name of a word boundary. -/
def isBoundaryPart (c : Char) : Bool := c.isAlpha || c = '-'

/-- The names of the word boundaries that have one. -/
def boundaryNames : List String := ["start", "end", "start-half", "end-half"]

/-- A word boundary, which a name between braces may follow. Braces around anything else are left for a repetition. -/
def boundary (extended : Bool) (t : Text) : Except Error (Primitive × Text) :=
  match t with
  | '\x7b' :: _ =>
    match after extended t with
    | [] => .error .specialWordOrRepetitionUnexpectedEof
    | c :: rest =>
      if isBoundaryPart c then
        match collect extended isBoundaryPart false (c :: rest) with
        | (name, '\x7d' :: left) =>
          if boundaryNames.contains (String.ofList name) then .ok (.assertion, left)
          else .error .specialWordBoundaryUnrecognized
        | _ => .error .specialWordBoundaryUnclosed
      else .ok (.assertion, t)
  | _ => .ok (.assertion, t)

/-- What a backslash stands for together with the text after it. -/
def escape (extended : Bool) : Text → Except Error (Primitive × Text)
  | [] => .error .escapeUnexpectedEof
  | c :: rest =>
    let literal (c : Char) : Except Error (Primitive × Text) := .ok (.literal ⟨c, false⟩, rest)
    if c.isDigit then .error .unsupportedBackreference
    else if c = 'x' || c = 'u' || c = 'U' then hexEscape extended c (c :: rest)
    else if c = 'p' || c = 'P' then propertyEscape extended (c :: rest)
    else if c = 'd' || c = 's' || c = 'w' then .ok (.shorthand (.letter false), rest)
    else if c = 'D' || c = 'S' || c = 'W' then .ok (.shorthand (.letter true), rest)
    else if isEscapable c then literal c
    else
      match c with
      | 'a' => literal '\x07'
      | 'f' => literal '\x0c'
      | 't' => literal '\t'
      | 'n' => literal '\n'
      | 'r' => literal '\r'
      | 'v' => literal '\x0b'
      | 'A' | 'z' | 'B' | '<' | '>' => .ok (.assertion, rest)
      | 'b' => boundary extended rest
      | _ => .error .escapeUnrecognized

end Remap.Pattern
