import Remap.Text.Visible
import Remap.Text

/-!
# Quoted text

A text between double quotes on one line. Quotes and backslashes get a backslash, the usual control characters get their
letter, and every other character that does not show is given by its code point.
-/

namespace Remap.Text

/-- A character as it stands between quotes. -/
def quoteChar (c : Char) : Text :=
  if c = '"' then ['\\', '"']
  else if c = '\\' then ['\\', '\\']
  else if c = '\n' then ['\\', 'n']
  else if c = '\r' then ['\\', 'r']
  else if c = '\t' then ['\\', 't']
  else if c = '\x00' then ['\\', '0']
  else if isVisible c then [c]
  else ['\\', 'u', '\x7b'] ++ Nat.toDigits 16 c.toNat ++ ['\x7d']

/-- A text between quotes. -/
def quoted (t : Text) : Text := ['"'] ++ t.flatMap quoteChar ++ ['"']

end Remap.Text
