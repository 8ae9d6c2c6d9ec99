import Remap.Kind.Set
import Remap.Parser.Action

/-!
# Routines

A routine describes what the parser does as a tree of actions, each followed by what to do for every possible reply. A
routine can also enter a rule by name. Rules are how the grammar recurs and how it loops, so a routine itself is finite:
a fact that every action keeps is kept by every routine, by one induction.

A rule entered as the last thing a routine does is a jump: nothing is left to return to.
-/

namespace Remap.Parser

/-- The comma-separated lists of the grammar. -/
inductive ItemList where
  /-- The elements of an array. -/
  | elements
  /-- The entries of an object. -/
  | entries
  /-- The arguments of a call. -/
  | arguments
  /-- The parameters of a closure. -/
  | parameters
deriving DecidableEq, Repr, Inhabited

/-- What closes a list. -/
def ItemList.closer : ItemList → Kind
  | .elements => .bracketClose
  | .entries => .braceClose
  | .arguments => .parenClose
  | .parameters => .pipe

/-- The rules of the grammar, indexed by the type of what they return. A rule for an expression returns the kind of the
node it built. -/
inductive Rule : Type → Type where
  /-- Consumes the newlines that come next. -/
  | newlines : Rule Unit
  /-- Consumes every token that is left. -/
  | absorb : Rule Unit
  /-- Consumes tokens up to one of the stops outside all brackets, `depth` of which are open. -/
  | skipTo (stops : KindSet) (depth : Nat) : Rule Unit
  /-- The inside of a string, with its closing quote. -/
  | stringParts : Rule Unit
  /-- The inside of a template. -/
  | templateParts : Rule Unit
  /-- Path segments that touch what they follow. -/
  | pathSegments : Rule Unit
  /-- The rest of a comma-separated list. -/
  | items (list : ItemList) : Rule Unit
  /-- The statements of a program, or of a block up to its closing brace. -/
  | statements (closer : Option Kind) : Rule Unit
  /-- The rest of a parenthesised condition, after `count` expressions. Returns how many there are. -/
  | conditions (count : Nat) : Rule Nat
  /-- The `else` branches that follow. -/
  | elseBranches : Rule Unit
  /-- A statement. -/
  | statement : Rule Kind
  /-- An assignment or an operator expression. -/
  | assignment : Rule Kind
  /-- An operator expression whose operators bind at least as tightly as `min`. -/
  | binary (min : Nat) : Rule Kind
  /-- The operators that follow an operand of kind `lhs`, which began at the innermost mark. -/
  | binaryRest (min : Nat) (lhs : Kind) : Rule Kind
  /-- An operand with the `!` signs before it. -/
  | unary : Rule Kind

/-- A finite description of what the parser does. -/
inductive Routine (α : Type) : Type 1 where
  /-- Returns a value. -/
  | done (a : α)
  /-- Breaks down. -/
  | fail (f : Fault)
  /-- Performs an action and goes on with its reply. -/
  | act {β : Type} (action : Action β) (next : β → Routine α)
  /-- Enters a rule and goes on with what it returns. -/
  | call {β : Type} (rule : Rule β) (next : β → Routine α)
  /-- Goes on with a rule and nothing else. -/
  | jump (rule : Rule α)

namespace Routine

/-- One routine after another. -/
def bind {α β : Type} : Routine α → (α → Routine β) → Routine β
  | .done a, k => k a
  | .fail f, _ => .fail f
  | .act action next, k => .act action fun b => (next b).bind k
  | .call rule next, k => .call rule fun b => (next b).bind k
  | .jump rule, k => .call rule k

instance : Monad Routine where
  pure := .done
  bind := .bind

/-- Runs a routine, given how rules are run. -/
def run {α : Type} (enter : {β : Type} → Rule β → Step β) : Routine α → Step α
  | .done a, s => .ok (a, s)
  | .fail f, _ => .error f
  | .act action next, s =>
    match action.perform s with
    | .ok (b, s') => (next b).run enter s'
    | .error f => .error f
  | .call rule next, s =>
    match enter rule s with
    | .ok (b, s') => (next b).run enter s'
    | .error f => .error f
  | .jump rule, s => enter rule s

end Routine

/-- The routine of a single action. -/
def act {α : Type} (a : Action α) : Routine α := .act a .done

/-- The routine that is a rule. -/
def rule {α : Type} (r : Rule α) : Routine α := .jump r

/-! Names for the actions. -/

/-- The kind of the next token after trivia. -/
def peek : Routine Kind := act .peek

/-- The kind of the very next token. -/
def peekRaw : Routine Kind := act .peekRaw

/-- Whether the next token after trivia touches the one before it. -/
def touches : Routine Bool := act .touches

/-- The answer to a question about the tokens ahead. -/
def ahead (q : Lookahead) : Routine Bool := act (.ahead q)

/-- Whether all tokens were passed. -/
def atEnd : Routine Bool := act .atEnd

/-- Whether to stop. -/
def stopped : Routine Bool := act .stopped

/-- Consumes the very next token. -/
def advance : Routine Unit := act .advance

/-- Reports a problem at the next token. -/
def report (p : Problem) (d : Option Detail) : Routine Unit := act (.report p d)

/-- Whether the next token has a kind. -/
def peekIs (k : Kind) : Routine Bool := do return (← peek) == k

/-- Consumes the newlines that come next. -/
def newlines : Routine Unit := rule .newlines

/-- Builds a node of a kind. -/
def node {α : Type} (k : Kind) (body : Routine α) : Routine α := do
  act (.openNode k)
  let a ← body
  act .closeNode
  return a

/-- Marks the place before what is built. -/
def marked {α : Type} (body : Routine α) : Routine α := do
  act .mark
  let a ← body
  act .unmark
  return a

/-- Builds a node that begins at the innermost mark. -/
def wrapped {α : Type} (k : Kind) (body : Routine α) : Routine α := do
  act (.wrap k)
  let a ← body
  act .closeNode
  return a

/-- Reads with newlines as separators, or with newlines passed over. -/
def separating {α : Type} (b : Bool) (body : Routine α) : Routine α := do
  let before ← act (.setSeparating b)
  let a ← body
  let _ ← act (.setSeparating before)
  return a

/-- Consumes the next token if it has a kind, and says whether it had. -/
def eat (k : Kind) : Routine Bool := do
  if ← peekIs k then
    advance
    return true
  else return false

/-- Breaks down unless the next token has a kind. -/
def require (k : Kind) : Routine Unit := do
  let found ← peek
  if found = k then return () else .fail (.misplaced k found)

/-- Reports that something else was expected here, naming the token that stands here if there is one. -/
def reportFound (p : Problem) (expected : Option Expectation) : Routine Unit := do
  let k ← peek
  if ← atEnd then report p (expected.map .expected)
  else
    match expected with
    | none => report p (some (.found k))
    | some e => report p (some (.expectedFound e k))

/-- Reports a problem at the next token and consumes that token as an error. -/
def reportAndAdvance (p : Problem) (d : Detail) : Routine Unit := do
  report p (some d)
  if ← atEnd then return () else node .error advance

/-- One newline, and more. -/
def newlinesBody : Routine Unit := do
  if ← peekIs .newline then
    advance
    rule .newlines
  else return ()

/-- One token, and more. -/
def absorbBody : Routine Unit := do
  if ← stopped then return ()
  else
    advance
    rule .absorb

/-- The bracket depth after a token of a kind. -/
def depthAfter (depth : Nat) (k : Kind) : Nat :=
  if k.isOpener then depth + 1 else if k.isCloser then depth - 1 else depth

/-- One token that is no stop outside all brackets, and more. -/
def skipToBody (stops : KindSet) (depth : Nat) : Routine Unit := do
  if ← stopped then return ()
  else
    let k ← peek
    if depth = 0 && stops.contains k then return ()
    else
      advance
      rule (.skipTo stops (depthAfter depth k))

/-- Skips over what cannot be understood, up to one of the stops outside all brackets opened meanwhile. -/
def resync (stops : KindSet) : Routine Unit := do
  if ← stopped then return ()
  else if stops.contains (← peek) then return ()
  else node .error (rule (.skipTo stops 0))

/-- Skips the rest of a statement. -/
def skipStatement : Routine Unit := resync .statementEnd

/-- Builds one level deeper. Past the limit, the rest of the input becomes one error. -/
def nested (body : Routine Kind) : Routine Kind := do
  match ← act .enter with
  | .entered =>
    let k ← body
    act .leave
    return k
  | .blocked => return .error
  | .overflow =>
    node .error (do rule .absorb; act .settle)
    return .error

/-- Consumes the mate of the innermost open delimiter. Other tokens before it are skipped as an error. If the input ends
first, the report points to where the delimiter was opened. -/
def close (closer : Kind) : Routine Unit := do
  if ← eat closer then act .popDelimiter
  else
    let closed ←
      if ← stopped then pure false
      else do
        report .unexpectedToken (some (.expected (.delimiter closer)))
        resync (KindSet.closers.union (.single closer))
        eat closer
    if closed then act .popDelimiter
    else do
      if ← atEnd then act (.reportUnclosed closer)
      act .popDelimiter

end Remap.Parser
