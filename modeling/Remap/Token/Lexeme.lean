import Remap.Kind
import Remap.Text

/-!
# Lexemes

The first pass over a source text cuts it into lexemes: at each place the longest text that some token can have, or a
single stray character where none can. Stray characters that follow each other are then taken together.
-/

namespace Remap

/-- A piece of text with the shape it was recognised by. -/
structure Lexeme where
  kind : Kind
  text : Text
deriving DecidableEq, Repr, Inhabited

namespace Lexeme

/-- The letters that may begin a name, and the underscore. -/
def isNameStart (c : Char) : Bool := c.isAlpha || c = '_'

/-- What may continue a name. -/
def isNamePart (c : Char) : Bool := c.isAlphanum || c = '_'

/-- What may continue a name that holds `@`. -/
def isFieldPart (c : Char) : Bool := isNamePart c || c = '@'

/-- What may continue a number. -/
def isNumberPart (c : Char) : Bool := c.isDigit || c = '_'

/-- Blanks within a line. -/
def isSpace (c : Char) : Bool := c = ' ' || c = '\t' || c = '\r' || c = '\x0c'

/-- How many characters of a text satisfy a test before the first that does not. -/
def run (p : Char → Bool) (t : Text) : Nat := (t.takeWhile p).length

/-- How a quoted literal may continue over the end of a line. -/
structure Quoting where
  mark : Char
  /-- A bare newline may stand inside. -/
  spansLines : Bool
  /-- A newline may stand inside after a backslash. -/
  escapesNewline : Bool

/-- Strings end with their line unless a backslash precedes the newline. -/
def Quoting.string : Quoting := ⟨'"', false, true⟩

/-- Raw strings and regexes may span lines. -/
def Quoting.raw : Quoting := ⟨'\'', true, true⟩

/-- Timestamps end with their line. -/
def Quoting.timestamp : Quoting := ⟨'\'', false, false⟩

/-- How many characters it takes to close a literal, its closing mark included. -/
def closing (q : Quoting) : Text → Option Nat
  | [] => none
  | '\\' :: c :: rest => if c = '\n' && !q.escapesNewline then none else (closing q rest).map (· + 2)
  | c :: rest =>
    if c = q.mark then some 1
    else if c = '\n' && !q.spansLines then none
    else (closing q rest).map (· + 1)

/-- How many characters a literal takes that is never closed: the rest of the line. -/
def unclosed (mark : Char) : Text → Nat
  | [] => 0
  | '\\' :: c :: rest => if c = '\n' then 1 else unclosed mark rest + 2
  | c :: rest => if c = '\n' || c = mark then 0 else unclosed mark rest + 1

/-- The kind and further length of a literal after its opening mark. -/
def literal (q : Quoting) (terminated unterminated : Kind) (t : Text) : Kind × Nat :=
  match closing q t with
  | some n => (terminated, n)
  | none => (unterminated, unclosed q.mark t)

/-- The kind of a word: a reserved one, `_` alone, or a name. -/
def wordKind : Text → Kind
  | ['_'] => .underscore
  | ['i', 'f'] => .kwIf
  | ['e', 'l', 's', 'e'] => .kwElse
  | ['n', 'u', 'l', 'l'] => .kwNull
  | ['t', 'r', 'u', 'e'] => .kwTrue
  | ['f', 'a', 'l', 's', 'e'] => .kwFalse
  | ['a', 'b', 'o', 'r', 't'] => .kwAbort
  | ['r', 'e', 't', 'u', 'r', 'n'] => .kwReturn
  | _ => .id

/-- The kind and further length of what begins like a name with `c`. A letter that introduces a literal does so only
right before a quote mark. -/
def word (c : Char) (rest : Text) : Kind × Nat :=
  let n := run isNamePart rest
  if (rest.drop n).head? = some '@' then (.pathField, run isFieldPart rest)
  else if n = 0 && rest.head? = some '\'' && c = 's' then
    let (k, m) := literal .raw .rawString .unterminatedRawString (rest.drop 1)
    (k, m + 1)
  else if n = 0 && rest.head? = some '\'' && c = 'r' then
    let (k, m) := literal .raw .regex .unterminatedRegex (rest.drop 1)
    (k, m + 1)
  else if n = 0 && rest.head? = some '\'' && c = 't' then
    let (k, m) := literal .timestamp .timestamp .unterminatedTimestamp (rest.drop 1)
    (k, m + 1)
  else (wordKind (c :: rest.take n), n)

/-- The kind and further length of a number that begins with `c`. -/
def number (c : Char) (rest : Text) : Kind × Nat :=
  let n := run isNumberPart rest
  let point := (rest.drop n).head? = some '.'
  let length := if point then n + 1 + run isNumberPart (rest.drop (n + 1)) else n
  if c = '0' && n ≠ 0 then (.malformedNumber, length)
  else if point then (.float, length)
  else (.integer, length)

/-- The kind and further length of a delimiter or operator that begins with `c`; a stray character otherwise. -/
def mark (c : Char) (rest : Text) : Kind × Nat :=
  match c, rest.head? with
  | '|', some '=' => (.pipeEquals, 1)
  | '|', some '|' => (.pipePipe, 1)
  | '&', some '&' => (.ampAmp, 1)
  | '!', some '=' => (.bangEquals, 1)
  | '=', some '=' => (.equalsEquals, 1)
  | '>', some '=' => (.greaterEquals, 1)
  | '<', some '=' => (.lessEquals, 1)
  | '?', some '?' => (.questionQuestion, 1)
  | '-', some '>' => (.arrow, 1)
  | '(', _ => (.parenOpen, 0)
  | ')', _ => (.parenClose, 0)
  | '[', _ => (.bracketOpen, 0)
  | ']', _ => (.bracketClose, 0)
  | '\x7b', _ => (.braceOpen, 0)
  | '\x7d', _ => (.braceClose, 0)
  | ',', _ => (.comma, 0)
  | ';', _ => (.semicolon, 0)
  | ':', _ => (.colon, 0)
  | '.', _ => (.dot, 0)
  | '%', _ => (.percent, 0)
  | '=', _ => (.equals, 0)
  | '|', _ => (.pipe, 0)
  | '!', _ => (.bang, 0)
  | '>', _ => (.greater, 0)
  | '<', _ => (.less, 0)
  | '+', _ => (.plus, 0)
  | '-', _ => (.minus, 0)
  | '*', _ => (.star, 0)
  | '/', _ => (.slash, 0)
  | _, _ => (.garbage, 0)

/-- The kind of the lexeme that begins with `c`, and how many characters it takes after `c`. -/
def classify (c : Char) (rest : Text) : Kind × Nat :=
  if c = '\n' then (.newline, 0)
  else if c = '\r' && rest.head? = some '\n' then (.newline, 1)
  else if isSpace c then (.whitespace, run isSpace rest)
  else if c = '#' then (.comment, run (· ≠ '\n') rest)
  else if c = '"' then literal .string .stringLiteral .unterminatedString rest
  else if isNameStart c then word c rest
  else if c = '@' then (.pathField, run isFieldPart rest)
  else if c.isDigit then number c rest
  else mark c rest

/-- The lexemes of a text, every stray character by itself. -/
def split : Text → List Lexeme
  | [] => []
  | c :: rest =>
    let (kind, n) := classify c rest
    ⟨kind, c :: rest.take n⟩ :: split (rest.drop n)
termination_by t => t.length
decreasing_by
  simp only [List.length_drop, List.length_cons]
  omega

/-- The lexemes with stray characters that follow each other taken together. -/
def coalesce : List Lexeme → List Lexeme
  | [] => []
  | l :: rest =>
    match coalesce rest with
    | m :: more =>
      if l.kind = .garbage && m.kind = .garbage then ⟨.garbage, l.text ++ m.text⟩ :: more else l :: m :: more
    | [] => [l]

/-- The lexemes of a text. -/
def ofText (t : Text) : List Lexeme := coalesce (split t)

end Lexeme

end Remap
