/-!
# Problems

A problem is what a diagnostic is about. Each belongs to a coarse category, has a wording for use without detail, and a
wording around a detail.
-/

namespace Remap

/-- The problems a source text can have, those of its tokens first. -/
inductive Problem where
  -- found by the scanner
  | unterminatedString | unterminatedRawString | unterminatedRegex | unterminatedTimestamp | invalidEscape | invalidNumber
  | invalidTemplate | invalidRegex | unexpectedCharacter
  -- found by the parser
  | unexpectedEndOfInput | expectedExpression | missingSeparator | unexpectedToken | invalidPathContinuation
  | invalidAssignmentTarget | duplicateClosureParam | recursionLimitExceeded
deriving DecidableEq, Repr, Inhabited

/-- Coarse categories of problems. -/
inductive Category where
  | lexError | unexpectedToken | unexpectedEndOfInput | invalidPathContinuation | duplicateClosureParam | limitExceeded
deriving DecidableEq, Repr, Inhabited

/-- How grave a diagnostic is. -/
inductive Severity where
  | error | warning
deriving DecidableEq, Repr, Inhabited

/-- The word for a severity. -/
def Severity.name : Severity → String
  | .error => "error"
  | .warning => "warning"

/-- The name of a category. -/
def Category.name : Category → String
  | .lexError => "lex_error"
  | .unexpectedToken => "unexpected_token"
  | .unexpectedEndOfInput => "unexpected_end_of_input"
  | .invalidPathContinuation => "invalid_path_continuation"
  | .duplicateClosureParam => "duplicate_closure_param"
  | .limitExceeded => "limit_exceeded"

/-- A message with a gap for a detail. -/
structure Wording where
  before : String
  after : String
deriving DecidableEq, Repr, Inhabited

namespace Wording

/-- The message with the gap filled. -/
def fill (w : Wording) (detail : String) : String := w.before ++ detail ++ w.after

/-- The message with the gap shown as a pair of braces. -/
def template (w : Wording) : String := w.fill "\x7b\x7d"

end Wording

namespace Problem

/-- Every problem, in order of declaration. -/
def all : List Problem :=
  [.unterminatedString, .unterminatedRawString, .unterminatedRegex, .unterminatedTimestamp, .invalidEscape,
    .invalidNumber, .invalidTemplate, .invalidRegex, .unexpectedCharacter, .unexpectedEndOfInput, .expectedExpression,
    .missingSeparator, .unexpectedToken, .invalidPathContinuation, .invalidAssignmentTarget, .duplicateClosureParam,
    .recursionLimitExceeded]

/-- How many problems come before this one in the order of declaration. -/
def rank (p : Problem) : Nat := p.ctorIdx

/-- The name of a problem. -/
def name : Problem → String
  | .unterminatedString => "unterminated_string"
  | .unterminatedRawString => "unterminated_raw_string"
  | .unterminatedRegex => "unterminated_regex"
  | .unterminatedTimestamp => "unterminated_timestamp"
  | .invalidEscape => "invalid_escape"
  | .invalidNumber => "invalid_number"
  | .invalidTemplate => "invalid_template"
  | .invalidRegex => "invalid_regex"
  | .unexpectedCharacter => "unexpected_character"
  | .unexpectedEndOfInput => "unexpected_end_of_input"
  | .expectedExpression => "expected_expression"
  | .missingSeparator => "missing_separator"
  | .unexpectedToken => "unexpected_token"
  | .invalidPathContinuation => "invalid_path_continuation"
  | .invalidAssignmentTarget => "invalid_assignment_target"
  | .duplicateClosureParam => "duplicate_closure_param"
  | .recursionLimitExceeded => "recursion_limit_exceeded"

/-- The problem with a given name. -/
def ofName? (s : String) : Option Problem := all.find? (·.name = s)

/-- The category a problem belongs to. -/
def category : Problem → Category
  | .unterminatedString | .unterminatedRawString | .unterminatedRegex | .unterminatedTimestamp | .invalidEscape
  | .invalidNumber | .invalidTemplate | .invalidRegex | .unexpectedCharacter => .lexError
  | .unexpectedEndOfInput => .unexpectedEndOfInput
  | .expectedExpression | .missingSeparator | .unexpectedToken | .invalidAssignmentTarget => .unexpectedToken
  | .invalidPathContinuation => .invalidPathContinuation
  | .duplicateClosureParam => .duplicateClosureParam
  | .recursionLimitExceeded => .limitExceeded

/-- Whether the scanner finds the problem. -/
def isLexical (p : Problem) : Bool := p.category = .lexError

/-- Every problem is an error. -/
def severity (_ : Problem) : Severity := .error

/-- The wording without detail. -/
def summary : Problem → String
  | .unterminatedString => "unterminated string literal"
  | .unterminatedRawString => "unterminated raw string literal"
  | .unterminatedRegex => "unterminated regex literal"
  | .unterminatedTimestamp => "unterminated timestamp literal"
  | .invalidEscape => "invalid escape sequence"
  | .invalidNumber => "invalid numeric literal"
  | .invalidTemplate => "invalid string template"
  | .invalidRegex => "invalid regex literal"
  | .unexpectedCharacter => "unexpected character"
  | .unexpectedEndOfInput => "unexpected end of input"
  | .expectedExpression => "expected an expression"
  | .missingSeparator => "expected newline or `;` after expression"
  | .unexpectedToken => "unexpected token"
  | .invalidPathContinuation => "invalid path continuation"
  | .invalidAssignmentTarget => "invalid assignment target"
  | .duplicateClosureParam => "duplicate closure parameter"
  | .recursionLimitExceeded => "nesting limit exceeded"

/-- The wording around a detail. Most problems put the detail after the summary. -/
def wording : Problem → Wording
  | .invalidEscape => ⟨"invalid escape sequence `", "`"⟩
  | .unexpectedCharacter => ⟨"unexpected character `", "`"⟩
  | .duplicateClosureParam => ⟨"closure parameter `", "` is already defined"⟩
  | .unexpectedToken => ⟨"", ""⟩
  | p => ⟨p.summary ++ ": ", ""⟩

/-- The message for a problem, with a detail or without. -/
def message (p : Problem) : Option String → String
  | none => p.summary
  | some detail => p.wording.fill detail

end Problem

end Remap
