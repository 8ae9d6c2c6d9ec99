import Remap.Parser.Grammar.Operators

/-!
# Statements

The routines for statements, assignments and conditions.
-/

namespace Remap.Parser

/-- The value after an assignment operator. -/
def assignedValue : Routine Unit := do
  newlines
  let k ← peek
  if KindSet.statementFirst.contains k then
    let _ ← rule .statement
  else reportFound .expectedExpression none

/-- One side of an assignment before its operator: `_` or an operator expression. -/
def target : Routine Kind := do
  if ← peekIs .underscore then
    node .noop do
      advance
      return .noop
  else rule (.binary 0)

/-- Reports a target that cannot be assigned to. Targets are `_`, queries and names; an error was reported before. -/
def checkTarget : Kind → Routine Unit
  | .noop | .query | .ident | .error => return ()
  | _ => act (.reportTarget .notAssignable)

/-- An assignment to one target, or to a target for the value and one for the error; or an operator expression. -/
def assignment : Routine Kind :=
  marked do
    let lhs ← target
    let k ← peek
    if KindSet.assignOperators.contains k then
      checkTarget lhs
      wrapped .assignment do
        advance
        assignedValue
      return .assignment
    else if k = .comma then
      checkTarget lhs
      wrapped .infallibleTarget do
        advance
        newlines
        marked do
          let err ← target
          checkTarget err
      wrapped .assignment do
        if KindSet.assignOperators.contains (← peek) then
          advance
          assignedValue
        else reportFound .unexpectedToken (some .assignOperator)
      return .assignment
    else
      if lhs = .noop then act (.reportTarget .underscoreAlone)
      return lhs

/-- Whether what comes next extends an expression in parentheses: an operator, or a path that touches it. -/
def atContinuation : Routine Bool := do
  let k ← peek
  if (BinaryOperator.ofKind? k).isSome then return true
  else if k = .dot || k = .bracketOpen then touches
  else return false

/-- A semicolon where a statement should begin. -/
def straySemicolon : Routine Unit := reportAndAdvance .unexpectedToken .emptyStatement

/-- One expression of a parenthesised condition, and after a separator more. -/
def conditionsBody (count : Nat) : Routine Nat := do
  newlines
  if ← stopped then return count
  else if ← peekIs .parenClose then return count
  else
    let k ← peek
    if k = .semicolon then
      straySemicolon
      rule (.conditions count)
    else if KindSet.arithmeticFirst.contains k || k = .underscore then
      let _ ← rule .assignment
      match ← peek with
      | .newline =>
        newlines
        rule (.conditions (count + 1))
      | .semicolon =>
        advance
        newlines
        rule (.conditions (count + 1))
      | _ => return count + 1
    else
      reportFound .expectedExpression none
      return count

/-- A condition in parentheses may be a sequence, of which the last expression decides. If it holds a single expression
and an operator or a path follows, the parentheses were a group. -/
def parenthesised : Routine Unit :=
  marked do
    act (.pushDelimiter .parenOpen)
    advance
    let count ← rule (.conditions 0)
    close .parenClose
    let grouped ← if count = 1 then atContinuation else pure false
    if grouped then
      wrapped .group (pure ())
      let k ← continuePath .group
      let _ ← rule (.binaryRest 0 k)

/-- The condition of a branch. -/
def predicate : Routine Unit := do
  newlines
  node .predicate do
    let k ← peek
    if k = .parenOpen then parenthesised
    else if KindSet.arithmeticFirst.contains k then
      let _ ← rule (.binary 0)
    else reportFound .expectedExpression (some .conditionOfIf)

/-- A condition and its block. -/
def branch : Routine Unit := do
  predicate
  newlines
  let _ ← block

/-- One more branch, and more; or the last one, which has no condition. An `else` belongs to the chain only on the line of
the brace before it. -/
def elseBranchesBody : Routine Unit := do
  if ← eat .kwElse then
    newlines
    if ← eat .kwIf then
      branch
      rule .elseBranches
    else
      let _ ← block
  else return ()

/-- An `if` statement with its `else` branches. -/
def ifStatement : Routine Kind :=
  node .ifStatement do
    require .kwIf
    advance
    branch
    rule .elseBranches
    return .ifStatement

/-- An `abort` statement, with or without a message. -/
def abortStatement : Routine Kind :=
  node .abortStatement do
    advance
    if KindSet.statementFirst.contains (← peek) then
      let _ ← rule .statement
    return .abortStatement

/-- A `return` statement, which needs a value. -/
def returnStatement : Routine Kind :=
  node .returnStatement do
    advance
    newlines
    if KindSet.statementFirst.contains (← peek) then
      let _ ← rule .statement
    else reportFound .expectedExpression (some .valueOfReturn)
    return .returnStatement

/-- A statement. -/
def statement : Routine Kind :=
  nested do
    match ← peek with
    | .kwIf => ifStatement
    | .kwAbort => abortStatement
    | .kwReturn => returnStatement
    | _ => rule .assignment

/-- The end of a statement: newlines, or a semicolon and newlines, or the end of the sequence. Says whether it was there. -/
def endOfStatement (closer : Option Kind) : Routine Bool := do
  if ← stopped then return true
  else
    let k ← peek
    if k = .newline then
      newlines
      return true
    else if k = .semicolon then
      advance
      newlines
      return true
    else if closer = some k then return true
    else
      reportFound .missingSeparator none
      return false

/-- A statement and its end. What follows a statement without separator is skipped. -/
def statementAndEnd (closer : Option Kind) : Routine Unit := do
  let _ ← rule .statement
  if ← endOfStatement closer then return () else skipStatement

/-- One statement, and more. What no statement begins with is skipped as an error. -/
def statementsBody (closer : Option Kind) : Routine Unit := do
  newlines
  if ← stopped then return ()
  else
    let k ← peek
    if closer = some k then return ()
    else
      if k = .semicolon then straySemicolon
      else if k.isCloser then reportAndAdvance .unexpectedToken (.unmatched k)
      else if KindSet.statementFirst.contains k then statementAndEnd closer
      else
        reportFound .expectedExpression none
        skipStatement
      rule (.statements closer)

/-- The whole program. -/
def program : Routine Unit :=
  node .program do
    rule (.statements none)
    act .settle

end Remap.Parser
