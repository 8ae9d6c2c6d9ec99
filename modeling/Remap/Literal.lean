import Remap.Literal.Binary64
import Remap.Text

/-!
# Values of literals

How the text of a literal is read: the body between quotes, the escapes inside it, and the value of a number.
-/

namespace Remap.Literal

/-- The part of a text before the first quote mark that no backslash precedes; the whole text if there is none. -/
def untilQuote : Text → Text
  | [] => []
  | '\\' :: c :: rest => '\\' :: c :: untilQuote rest
  | c :: rest => if c = '\'' then [] else c :: untilQuote rest

/-- The body of a literal written as a letter and a text between quote marks. An unterminated literal has everything
after its opening mark as its body. -/
def body (t : Text) : Text := untilQuote (t.drop 2)

/-- The text with a backslash dropped before each quote mark; every other backslash stays. -/
def unescapeQuotes : Text → Text
  | [] => []
  | '\\' :: '\'' :: rest => '\'' :: unescapeQuotes rest
  | c :: rest => c :: unescapeQuotes rest

/-- The text with each pair of backslashes made one. -/
def unescapeBackslashes : Text → Text
  | [] => []
  | '\\' :: '\\' :: rest => '\\' :: unescapeBackslashes rest
  | c :: rest => c :: unescapeBackslashes rest

/-- The value of a raw string, and the pattern of a regex. -/
def rawValue (t : Text) : Text := unescapeQuotes (body t)

/-- The value of a timestamp. -/
def timestampValue (t : Text) : Text := unescapeBackslashes (unescapeQuotes (body t))

/-- The characters that may follow a backslash in a string. -/
def isEscape (c : Char) : Bool :=
  ['"', '\\', 'n', '\n', '0', 'r', 't', '\x7b', '\x7d', '\''].contains c

/-- The text an escape stands for. An escape that is not known stands for itself. -/
def decodeEscape : Text → Text
  | [b, c] =>
    if c = 'n' || c = '\n' then ['\n']
    else if c = 'r' then ['\r']
    else if c = 't' then ['\t']
    else if c = '0' then ['\x00']
    else if isEscape c then [c]
    else [b, c]
  | t => t

/-- The digits of a number, without the separators between them. -/
def digits (t : Text) : Text := t.filter (· ≠ '_')

/-- The number written by a list of decimal digits. -/
def ofDigits (ds : Text) : Nat := ds.foldl (fun n c => 10 * n + (c.toNat - '0'.toNat)) 0

/-- The largest magnitude of a signed 64-bit integer, that of the least one. -/
def maxMagnitude : Nat := 0x8000000000000000

/-- The magnitude an integer literal writes, if some signed 64-bit integer has it. -/
def magnitude? (t : Text) : Option Nat :=
  let ds := digits t
  if ds.isEmpty || !ds.all Char.isDigit then none
  else if ofDigits ds ≤ maxMagnitude then some (ofDigits ds)
  else none

/-- The signed 64-bit integer a literal writes. The sign stands before the magnitude. -/
def integer? (negative : Bool) (t : Text) : Option Int :=
  match magnitude? t with
  | none => none
  | some m =>
    if negative then some (-(m : Int))
    else if m < maxMagnitude then some m
    else none

/-- The bits of the binary64 number nearest to the one a float literal writes, sign included. -/
def floatBits? (t : Text) : Option Nat :=
  let ds := digits t
  let negative := ds.head? = some '-'
  let unsigned := if negative then ds.drop 1 else ds
  let whole := unsigned.takeWhile Char.isDigit
  let rest := unsigned.dropWhile Char.isDigit
  let fraction := rest.drop 1
  if (rest.isEmpty || rest.head? = some '.') && fraction.all Char.isDigit && !(whole ++ fraction).isEmpty then
    let bits := Binary64.ofFraction (ofDigits (whole ++ fraction)) (Nat.pow 10 fraction.length)
    some (if negative then Binary64.signBit + bits else bits)
  else none

end Remap.Literal
