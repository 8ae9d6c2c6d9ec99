/-!
# Kinds

A kind classifies both the tokens of a source text and the nodes of its tree. Token kinds come first, then node kinds.
A few token kinds name shapes that only the scanner sees, before it gives a literal its regular kind.
-/

namespace Remap

/-- The kind of a token or of a tree node. -/
inductive Kind where
  -- delimiters, operators and markers
  | parenOpen | parenClose | bracketOpen | bracketClose | braceOpen | braceClose | comma | semicolon | colon | dot
  | percent | equals | pipeEquals | pipe | pipePipe | ampAmp | bang | bangEquals | equalsEquals | greater
  | greaterEquals | less | lessEquals | plus | minus | star | slash | questionQuestion | arrow | underscore
  -- reserved words
  | kwIf | kwElse | kwNull | kwTrue | kwFalse | kwAbort | kwReturn
  -- names and numbers; `malformedNumber` is seen by the scanner only
  | id | pathField | integer | float | malformedNumber
  -- literals with quotes; `stringLiteral` and the unterminated shapes are seen by the scanner only
  | stringLiteral | unterminatedString | doubleQuote | strText | escape | templateOpen | templateClose | rawString
  | unterminatedRawString | regex | unterminatedRegex | timestamp | unterminatedTimestamp
  -- layout and what is not understood
  | whitespace | newline | comment | garbage | error
  -- nodes
  | program | ifStatement | predicate | block | abortStatement | returnStatement | assignment | infallibleTarget
  | noop | binaryOp | unaryOp | query | path | fieldSegment | indexSegment | functionCall | argumentList
  | namedArgument | closure | closureParams | stringLit | template | rawStringLit | integerLit | floatLit
  | booleanLit | nullLit | regexLit | timestampLit | array | object | entry | group | ident
deriving DecidableEq, Repr, Inhabited

namespace Kind

/-- Every kind, in order of declaration. -/
def all : List Kind :=
  [.parenOpen, .parenClose, .bracketOpen, .bracketClose, .braceOpen, .braceClose, .comma, .semicolon, .colon,
    .dot, .percent, .equals, .pipeEquals, .pipe, .pipePipe, .ampAmp, .bang, .bangEquals, .equalsEquals, .greater,
    .greaterEquals, .less, .lessEquals, .plus, .minus, .star, .slash, .questionQuestion, .arrow, .underscore,
    .kwIf, .kwElse, .kwNull, .kwTrue, .kwFalse, .kwAbort, .kwReturn, .id, .pathField, .integer, .float,
    .malformedNumber, .stringLiteral, .unterminatedString, .doubleQuote, .strText, .escape, .templateOpen,
    .templateClose, .rawString, .unterminatedRawString, .regex, .unterminatedRegex, .timestamp,
    .unterminatedTimestamp, .whitespace, .newline, .comment, .garbage, .error, .program, .ifStatement, .predicate,
    .block, .abortStatement, .returnStatement, .assignment, .infallibleTarget, .noop, .binaryOp, .unaryOp, .query,
    .path, .fieldSegment, .indexSegment, .functionCall, .argumentList, .namedArgument, .closure, .closureParams,
    .stringLit, .template, .rawStringLit, .integerLit, .floatLit, .booleanLit, .nullLit, .regexLit, .timestampLit,
    .array, .object, .entry, .group, .ident]

/-- The number of a kind: its place in the order of declaration. -/
def toNat (k : Kind) : Nat := k.ctorIdx

/-- The kind with a given number. -/
def ofNat? (n : Nat) : Option Kind := all[n]?

/-- The name a dump shows for a kind. -/
def name : Kind → String
  | .parenOpen => "ParenOpen"
  | .parenClose => "ParenClose"
  | .bracketOpen => "BracketOpen"
  | .bracketClose => "BracketClose"
  | .braceOpen => "BraceOpen"
  | .braceClose => "BraceClose"
  | .comma => "Comma"
  | .semicolon => "Semicolon"
  | .colon => "Colon"
  | .dot => "Dot"
  | .percent => "Percent"
  | .equals => "Equals"
  | .pipeEquals => "PipeEquals"
  | .pipe => "Pipe"
  | .pipePipe => "PipePipe"
  | .ampAmp => "AmpAmp"
  | .bang => "Bang"
  | .bangEquals => "BangEquals"
  | .equalsEquals => "EqualsEquals"
  | .greater => "Greater"
  | .greaterEquals => "GreaterEquals"
  | .less => "Less"
  | .lessEquals => "LessEquals"
  | .plus => "Plus"
  | .minus => "Minus"
  | .star => "Star"
  | .slash => "Slash"
  | .questionQuestion => "QuestionQuestion"
  | .arrow => "Arrow"
  | .underscore => "Underscore"
  | .kwIf => "KwIf"
  | .kwElse => "KwElse"
  | .kwNull => "KwNull"
  | .kwTrue => "KwTrue"
  | .kwFalse => "KwFalse"
  | .kwAbort => "KwAbort"
  | .kwReturn => "KwReturn"
  | .id => "Id"
  | .pathField => "PathField"
  | .integer => "Integer"
  | .float => "Float"
  | .malformedNumber => "MalformedNumber"
  | .stringLiteral => "StringLiteral"
  | .unterminatedString => "UnterminatedString"
  | .doubleQuote => "DoubleQuote"
  | .strText => "StrText"
  | .escape => "Escape"
  | .templateOpen => "TemplateOpen"
  | .templateClose => "TemplateClose"
  | .rawString => "RawString"
  | .unterminatedRawString => "UnterminatedRawString"
  | .regex => "Regex"
  | .unterminatedRegex => "UnterminatedRegex"
  | .timestamp => "Timestamp"
  | .unterminatedTimestamp => "UnterminatedTimestamp"
  | .whitespace => "Whitespace"
  | .newline => "Newline"
  | .comment => "Comment"
  | .garbage => "Garbage"
  | .error => "Error"
  | .program => "Program"
  | .ifStatement => "IfStatement"
  | .predicate => "Predicate"
  | .block => "Block"
  | .abortStatement => "Abort"
  | .returnStatement => "Return"
  | .assignment => "Assignment"
  | .infallibleTarget => "InfallibleTarget"
  | .noop => "Noop"
  | .binaryOp => "BinaryOp"
  | .unaryOp => "UnaryOp"
  | .query => "Query"
  | .path => "Path"
  | .fieldSegment => "FieldSegment"
  | .indexSegment => "IndexSegment"
  | .functionCall => "FunctionCall"
  | .argumentList => "ArgumentList"
  | .namedArgument => "NamedArgument"
  | .closure => "Closure"
  | .closureParams => "ClosureParams"
  | .stringLit => "StringLit"
  | .template => "Template"
  | .rawStringLit => "RawStringLit"
  | .integerLit => "IntegerLit"
  | .floatLit => "FloatLit"
  | .booleanLit => "BooleanLit"
  | .nullLit => "NullLit"
  | .regexLit => "RegexLit"
  | .timestampLit => "TimestampLit"
  | .array => "Array"
  | .object => "Object"
  | .entry => "Entry"
  | .group => "Group"
  | .ident => "Ident"

/-- The kind with a given name. -/
def ofName? (s : String) : Option Kind := all.find? (·.name = s)

/-- What the parser passes over in silence. Newlines separate statements and are not trivia. -/
def isTrivia : Kind → Bool
  | .whitespace | .comment | .garbage => true
  | _ => false

/-- What keeps its two neighbours from touching each other. -/
def breaksAdjacency : Kind → Bool
  | .whitespace | .newline | .comment => true
  | _ => false

/-- What stands for text that was not understood. -/
def isError : Kind → Bool
  | .error | .garbage => true
  | _ => false

/-- Reserved words; they may still name fields and arguments. -/
def isKeyword : Kind → Bool
  | .kwIf | .kwElse | .kwNull | .kwTrue | .kwFalse | .kwAbort | .kwReturn => true
  | _ => false

/-- What may name a field of a path. -/
def isFieldName : Kind → Bool
  | .id | .pathField | .underscore => true
  | k => k.isKeyword

/-- What opens a bracketed region. -/
def isOpener : Kind → Bool
  | .parenOpen | .bracketOpen | .braceOpen => true
  | _ => false

/-- What closes a bracketed region. -/
def isCloser : Kind → Bool
  | .parenClose | .bracketClose | .braceClose => true
  | _ => false

/-- The one text of a kind that has only one: operators, delimiters and reserved words. -/
def spelling? : Kind → Option String
  | .parenOpen => some "("
  | .parenClose => some ")"
  | .bracketOpen => some "["
  | .bracketClose => some "]"
  | .braceOpen => some "\x7b"
  | .braceClose => some "\x7d"
  | .comma => some ","
  | .semicolon => some ";"
  | .colon => some ":"
  | .dot => some "."
  | .percent => some "%"
  | .equals => some "="
  | .pipeEquals => some "|="
  | .pipe => some "|"
  | .pipePipe => some "||"
  | .ampAmp => some "&&"
  | .bang => some "!"
  | .bangEquals => some "!="
  | .equalsEquals => some "=="
  | .greater => some ">"
  | .greaterEquals => some ">="
  | .less => some "<"
  | .lessEquals => some "<="
  | .plus => some "+"
  | .minus => some "-"
  | .star => some "*"
  | .slash => some "/"
  | .questionQuestion => some "??"
  | .arrow => some "->"
  | .underscore => some "_"
  | .kwIf => some "if"
  | .kwElse => some "else"
  | .kwNull => some "null"
  | .kwTrue => some "true"
  | .kwFalse => some "false"
  | .kwAbort => some "abort"
  | .kwReturn => some "return"
  | _ => none

/-- How a diagnostic names a token of a kind. -/
def describe (k : Kind) : String :=
  match k.spelling? with
  | some s => "`" ++ s ++ "`"
  | none =>
    match k with
    | .id => "identifier"
    | .pathField => "path field"
    | .integer => "integer"
    | .float => "float"
    | .doubleQuote => "string"
    | .rawString => "raw string"
    | .regex => "regex"
    | .timestamp => "timestamp"
    | .newline => "newline"
    | _ => "end of input"

end Kind

end Remap
