import Remap.Diagnostic
import Remap.Pattern.Check
import Remap.Token
import Remap.Token.Fragment

/-!
# Scanning

The second pass turns lexemes into tokens. A string literal becomes a quote, the pieces of its body and a closing quote;
malformed and unterminated literals get the regular kind of their shape, and a diagnostic says what is wrong with them.
-/

namespace Remap

namespace Lexeme

/-- The body of a string literal, without the quotes. -/
def stringBody (l : Lexeme) : Text :=
  if l.kind = .stringLiteral then (l.text.drop 1).dropLast else l.text.drop 1

/-- The pieces of text of a lexeme that become tokens. -/
def pieces (l : Lexeme) : List (Kind × Text) :=
  match l.kind with
  | .stringLiteral =>
    [(.doubleQuote, ['"'])] ++ Fragment.piecesOf (Fragment.split l.stringBody) ++ [(.doubleQuote, ['"'])]
  | .unterminatedString => [(.doubleQuote, ['"'])] ++ Fragment.piecesOf (Fragment.split l.stringBody)
  | .unterminatedRawString => [(.rawString, l.text)]
  | .unterminatedRegex => [(.regex, l.text)]
  | .unterminatedTimestamp => [(.timestamp, l.text)]
  | .malformedNumber => [(if l.text.contains '.' then .float else .integer, l.text)]
  | kind => [(kind, l.text)]

/-- The problems of the fragments of a string body that starts at an offset. -/
def fragmentProblems : Nat → List Fragment → Diagnostics
  | _, [] => []
  | offset, f :: rest =>
    let here : Diagnostics :=
      match f with
      | .escape (some c) =>
        if Literal.isEscape c then []
        else [{ problem := .invalidEscape, span := .ofSize offset f.text.bytes, detail := some (.quote f.text) }]
      | .openBraces =>
        [{ problem := .invalidTemplate, span := .ofSize offset f.text.bytes, detail := some .templateShape }]
      | _ => []
    here ++ fragmentProblems (offset + f.text.bytes) rest

/-- The unknown escapes in a timestamp, from an offset on. Only a quote mark and a backslash may be escaped. -/
def timestampProblems : Nat → Text → Diagnostics
  | _, [] => []
  | offset, '\\' :: c :: rest =>
    let size := Text.bytes ['\\', c]
    let here : Diagnostics :=
      if c = '\'' || c = '\\' then []
      else [{ problem := .invalidEscape, span := .ofSize offset size, detail := some (.quote ['\\', c]) }]
    here ++ timestampProblems (offset + size) rest
  | offset, c :: rest => timestampProblems (offset + c.utf8Size) rest

/-- Whether an integer fits in 64 bits. The magnitude of the least integer fits only after a minus sign. -/
def integerFits (previous : Option Kind) (t : Text) : Bool :=
  match Literal.magnitude? t with
  | some m => previous = some .minus || m < Literal.maxMagnitude
  | none => false

/-- The problems of a lexeme at an offset, after a lexeme of kind `previous`. Patterns are looked into on request. -/
def problems (checkPatterns : Bool) (offset : Nat) (previous : Option Kind) (l : Lexeme) : Diagnostics :=
  let span := Span.ofSize offset l.text.bytes
  match l.kind with
  | .garbage => [{ problem := .unexpectedCharacter, span, detail := some (.quote l.text) }]
  | .stringLiteral => fragmentProblems (offset + 1) (Fragment.split l.stringBody)
  | .unterminatedString =>
    { problem := .unterminatedString, span } :: fragmentProblems (offset + 1) (Fragment.split l.stringBody)
  | .unterminatedRawString => [{ problem := .unterminatedRawString, span }]
  | .unterminatedRegex => [{ problem := .unterminatedRegex, span }]
  | .unterminatedTimestamp => [{ problem := .unterminatedTimestamp, span }]
  | .timestamp => timestampProblems (offset + 2) (l.text.drop 2)
  | .malformedNumber => [{ problem := .invalidNumber, span, detail := some .leadingZeros }]
  | .integer =>
    if integerFits previous l.text then []
    else [{ problem := .invalidNumber, span, detail := some .integerTooLarge }]
  | .regex =>
    if checkPatterns then
      match Pattern.check (Literal.rawValue l.text) with
      | .ok () => []
      | .error e => [{ problem := .invalidRegex, span, detail := some (.pattern e) }]
    else []
  | _ => []

/-- The problems of consecutive lexemes from an offset on, after a lexeme of kind `previous`. -/
def problemsOf (checkPatterns : Bool) : Nat → Option Kind → List Lexeme → Diagnostics
  | _, _, [] => []
  | offset, previous, l :: rest =>
    l.problems checkPatterns offset previous ++ problemsOf checkPatterns (offset + l.text.bytes) (some l.kind) rest

end Lexeme

/-- The tokens of a source text and what is wrong with them. -/
structure Scanned where
  tokens : List Token
  diagnostics : Diagnostics

/-- Scans a source text. -/
def scan (source : Text) (checkPatterns : Bool) : Scanned :=
  let lexemes := Lexeme.ofText source
  { tokens := Token.place 0 none (lexemes.flatMap Lexeme.pieces)
    diagnostics := Lexeme.problemsOf checkPatterns 0 none lexemes }

end Remap
