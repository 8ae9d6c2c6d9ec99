import Remap.Token

/-!
# Looking ahead

Questions about the tokens after the next one, answered without passing any of them.
-/

namespace Remap.Parser

/-- A question about the tokens ahead; the first of them is the next token. -/
inductive Lookahead where
  /-- Does the `{` here open an object? -/
  | opensObject
  /-- Is the name here that of a call? -/
  | startsCall
  /-- Does the name here name an argument? -/
  | namesArgument
  /-- Does the `-` here touch a number of a kind? -/
  | signs (number : Kind)
deriving DecidableEq, Repr, Inhabited

namespace Lookahead

/-- The tokens from the first on that is not trivia; newlines may be passed over as well. -/
def significant (overNewlines : Bool) (ts : List Token) : List Token :=
  ts.dropWhile fun t => t.kind.isTrivia || (overNewlines && t.kind = .newline)

/-- Whether the first token of a list has a kind. -/
def startsWith (k : Kind) (ts : List Token) : Bool := ts.head?.any (·.kind = k)

/-- What follows the closing quote of the string whose opening quote was just passed, if it is closed on its line. -/
def afterString : List Token → Option (List Token)
  | [] => none
  | t :: rest =>
    if t.kind = .doubleQuote then some rest
    else if t.kind = .newline then none
    else afterString rest

/-- A brace opens an object if it is closed at once, or if a string and then a colon follow. Otherwise it opens a block. -/
def isObject (ts : List Token) : Bool :=
  match significant true ts with
  | [] => false
  | t :: rest =>
    if t.kind = .braceClose then true
    else if t.kind = .doubleQuote then
      match afterString rest with
      | some after => startsWith .colon (significant true after)
      | none => false
    else false

/-- A name is that of a call if an opening parenthesis follows, perhaps after a `!` that touches the name. -/
def isCall (ts : List Token) : Bool :=
  match ts with
  | t :: rest =>
    if t.kind = .bang && t.immediate then startsWith .parenOpen (significant false rest)
    else startsWith .parenOpen (significant false ts)
  | [] => false

/-- The answer to a question about the tokens ahead. -/
def holds (q : Lookahead) (ts : List Token) : Bool :=
  match q with
  | .opensObject => isObject (ts.drop 1)
  | .startsCall => isCall (ts.drop 1)
  | .namesArgument => startsWith .colon (significant false (ts.drop 1))
  | .signs number => (ts.drop 1).head?.any fun t => t.kind = number && t.immediate

end Lookahead

end Remap.Parser
