import Remap.Kind
import Remap.Pattern.Error
import Remap.Text

/-!
# Details

What a diagnostic says beyond its problem. A detail is kept as its cause and put into words by `Detail.text`.
-/

namespace Remap

/-- What the grammar asks for at a place where something else stands. -/
inductive Expectation where
  | colonAfterKey | openBrace | assignOperator | stringKey | parameterList | parameterName | indexInteger
  | fieldAfterDot | segmentAfterRoot | conditionOfIf | valueOfReturn
  /-- The closing delimiter of what was opened last. -/
  | delimiter (closer : Kind)
deriving DecidableEq, Repr, Inhabited

/-- How a delimiter is written in a message. -/
def Kind.delimiterText (k : Kind) : String := k.spelling?.getD "?"

/-- The wording of an expectation. -/
def Expectation.text : Expectation → String
  | .colonAfterKey => "expected `:` after object key"
  | .openBrace => "expected `\x7b`"
  | .assignOperator => "expected `=` or `|=` after assignment targets"
  | .stringKey => "object keys must be string literals"
  | .parameterList => "expected closure parameters `|...|`"
  | .parameterName => "expected a parameter name"
  | .indexInteger => "path index must be an integer"
  | .fieldAfterDot => "expected a field name right after `.`"
  | .segmentAfterRoot => "expected a field name or index right after the path root"
  | .conditionOfIf => "`if` needs a condition"
  | .valueOfReturn => "`return` needs a value"
  | .delimiter closer => "expected `" ++ closer.delimiterText ++ "`"

/-- The cause a diagnostic gives beyond its problem. -/
inductive Detail where
  /-- A text quoted as it stands. -/
  | quote (t : Text)
  /-- A number with a leading zero. -/
  | leadingZeros
  /-- An integer beyond 64 bits. -/
  | integerTooLarge
  /-- Two opening braces in a string that begin no template. -/
  | templateShape
  /-- A refused pattern. -/
  | pattern (e : Pattern.Error)
  /-- The kind of the token that stands where an expression should. -/
  | found (k : Kind)
  /-- What should stand here. -/
  | expected (e : Expectation)
  /-- What should stand here, and what does. -/
  | expectedFound (e : Expectation) (k : Kind)
  /-- A minus sign apart from its number. -/
  | looseMinus
  /-- `_` used as a value. -/
  | underscoreValue
  /-- A name with `@` used as a value. -/
  | pathFieldValue
  /-- `;` without an expression before it. -/
  | emptyStatement
  /-- A closing bracket that was never opened. -/
  | unmatched (k : Kind)
  /-- A text that cannot be assigned to. -/
  | notAssignable (t : Text)
  /-- `_` without an assignment. -/
  | underscoreAlone
  /-- More nested levels than the limit. -/
  | levels (limit : Nat)
deriving DecidableEq, Repr, Inhabited

/-- The wording of a detail. -/
def Detail.text : Detail → String
  | .quote t => String.ofList t
  | .leadingZeros => "leading zeros are not allowed"
  | .integerTooLarge => "integer does not fit in 64 bits"
  | .templateShape => "expected `\x7b\x7b identifier \x7d\x7d`"
  | .pattern e => e.message
  | .found k => "found " ++ k.describe
  | .expected e => e.text
  | .expectedFound e k => e.text ++ ", found " ++ k.describe
  | .looseMinus => "`-` must be directly followed by a number"
  | .underscoreValue => "`_` can only be an assignment target"
  | .pathFieldValue => "`@` is only valid in a path field"
  | .emptyStatement => "`;` must follow an expression"
  | .unmatched k => "unmatched " ++ k.describe
  | .notAssignable t => "cannot assign to `" ++ String.ofList t ++ "`"
  | .underscoreAlone => "`_` can only be assigned to"
  | .levels limit => "more than " ++ toString limit ++ " levels"

/-- What is said about a second place a diagnostic points to. -/
inductive Remark where
  /-- A text quoted as it stands. -/
  | quote (t : Text)
  /-- The delimiter that is still open. -/
  | opened (opener : Kind)
  /-- The first parameter of a name. -/
  | firstDefined
deriving DecidableEq, Repr, Inhabited

/-- The wording of a remark. -/
def Remark.text : Remark → String
  | .quote t => String.ofList t
  | .opened opener => "`" ++ opener.delimiterText ++ "` opened here"
  | .firstDefined => "first defined here"

end Remap
