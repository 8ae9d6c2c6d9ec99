import Remap.Operator
import Remap.Parser.Routine

/-!
# Literals, paths and containers

The routines for terms: literals, queries with their paths, groups, arrays, objects, names and calls with closures. They
reach statements and operator expressions through rules.
-/

namespace Remap.Parser

/-- The inside of a template: a name and the blanks around it. -/
def template : Routine Unit :=
  node .template do
    advance
    rule .templateParts
    if (← peekRaw) = .templateClose then advance

/-- One part of a template, and more. -/
def templatePartsBody : Routine Unit := do
  match ← peekRaw with
  | .whitespace | .id =>
    advance
    rule .templateParts
  | _ => return ()

/-- One part of a string, and more; or its closing quote. -/
def stringPartsBody : Routine Unit := do
  match ← peekRaw with
  | .strText | .escape =>
    advance
    rule .stringParts
  | .templateOpen =>
    template
    rule .stringParts
  | .doubleQuote => advance
  | _ => return ()

/-- A string literal. One that is not terminated has no closing quote. -/
def string : Routine Kind :=
  node .stringLit do
    require .doubleQuote
    advance
    rule .stringParts
    return .stringLit

/-- A literal of one token, with the sign of a number before it. -/
def simpleLiteral (k : Kind) : Routine Kind :=
  node k do
    if ← peekIs .minus then advance
    advance
    return k

/-- A literal. A minus sign makes the number it touches negative. -/
def literal : Routine Kind := do
  match ← peek with
  | .integer => simpleLiteral .integerLit
  | .float => simpleLiteral .floatLit
  | .minus =>
    if ← ahead (.signs .integer) then simpleLiteral .integerLit
    else if ← ahead (.signs .float) then simpleLiteral .floatLit
    else
      reportAndAdvance .expectedExpression .looseMinus
      return .error
  | .doubleQuote => string
  | .rawString => simpleLiteral .rawStringLit
  | .regex => simpleLiteral .regexLit
  | .timestamp => simpleLiteral .timestampLit
  | .kwTrue | .kwFalse => simpleLiteral .booleanLit
  | .kwNull => simpleLiteral .nullLit
  | k => .fail (.notLiteral k)

/-- The name of a field, plain or quoted. -/
def fieldName : Routine Unit := do
  if ← peekIs .doubleQuote then let _ ← string
  else advance

/-- A field segment: a dot and the name that touches it. -/
def fieldSegment : Routine Unit :=
  node .fieldSegment do
    require .dot
    advance
    let k ← peek
    let named ← if k.isFieldName || k = .doubleQuote then touches else pure false
    if named then fieldName else reportFound .invalidPathContinuation (some .fieldAfterDot)

/-- An index segment: an integer in brackets, which may be negative. -/
def indexSegment : Routine Unit :=
  node .indexSegment do
    act (.pushDelimiter .bracketOpen)
    advance
    newlines
    let expectInteger := reportFound .unexpectedToken (some .indexInteger)
    match ← peek with
    | .integer => advance
    | .minus =>
      if ← ahead (.signs .integer) then
        advance
        advance
      else expectInteger
    | _ => expectInteger
    newlines
    close .bracketClose

/-- Whether a path segment touches what was just read. -/
def atSegment : Routine Bool := do
  let k ← peek
  if k = .dot || k = .bracketOpen then touches else return false

/-- One path segment, and more. -/
def pathSegmentsBody : Routine Unit := do
  if ← atSegment then
    if ← peekIs .dot then fieldSegment else indexSegment
    rule .pathSegments
  else return ()

/-- Whether a first segment touches the root just read: a name, a string or an index. -/
def atFirstSegment : Routine Bool := do
  let k ← peek
  if k.isFieldName || k = .doubleQuote || k = .bracketOpen then touches else return false

/-- A query that begins with the root of an event or of its metadata, and the path that touches it. -/
def externalQuery : Routine Kind :=
  node .query do
    advance
    if ← atFirstSegment then
      node .path do
        if ← peekIs .bracketOpen then indexSegment else node .fieldSegment fieldName
        rule .pathSegments
    else if ← atSegment then
      report .invalidPathContinuation (some (.expected .segmentAfterRoot))
      node .path (rule .pathSegments)
    return .query

/-- Whether a node of a kind can be the root of a path. -/
def canRoot : Kind → Bool
  | .ident | .functionCall | .group | .block | .array | .object => true
  | _ => false

/-- Makes a query of the term that began at the innermost mark if a path touches it. -/
def continuePath (k : Kind) : Routine Kind := do
  let continues ← if canRoot k then atSegment else pure false
  if continues then
    wrapped .query (node .path (rule .pathSegments))
    return .query
  else return k

/-- An expression in parentheses. Newlines inside are passed over. -/
def group : Routine Kind :=
  node .group do
    act (.pushDelimiter .parenOpen)
    advance
    separating false do
      let k ← peek
      if KindSet.arithmeticFirst.contains k || k = .underscore then
        let _ ← rule .assignment
      else reportFound .expectedExpression none
      close .parenClose
    return .group

/-- A comma-separated list between its delimiters. -/
def delimited (opener : Kind) (list : ItemList) : Routine Unit := do
  act (.pushDelimiter opener)
  advance
  separating true do
    rule (.items list)
    close list.closer

/-- An array. -/
def array : Routine Kind :=
  node .array do
    delimited .bracketOpen .elements
    return .array

/-- An object. -/
def object : Routine Kind :=
  node .object do
    delimited .braceOpen .entries
    return .object

/-- A block of statements. -/
def block : Routine Kind := do
  if ← peekIs .braceOpen then
    node .block do
      act (.pushDelimiter .braceOpen)
      advance
      separating true (rule (.statements (some .braceClose)))
      close .braceClose
      return .block
  else
    reportFound .unexpectedToken (some .openBrace)
    return .error

/-- An element of a list, which is an operator expression. Says whether one was found. -/
def element : Routine Bool := do
  let k ← peek
  if KindSet.arithmeticFirst.contains k then
    let _ ← rule (.binary 0)
    return true
  else
    reportFound .expectedExpression none
    return false

/-- An entry of an object: a string, a colon and a value. -/
def entry : Routine Bool := do
  if ← peekIs .doubleQuote then
    node .entry do
      let _ ← string
      newlines
      if ← eat .colon then
        newlines
        let _ ← element
      else report .unexpectedToken (some (.expected .colonAfterKey))
    return true
  else
    reportFound .unexpectedToken (some .stringKey)
    return false

/-- An argument of a call, which may have a name. -/
def argument : Routine Bool := do
  let k ← peek
  let named ← if k = .id || k.isKeyword then ahead .namesArgument else pure false
  if named then
    node .namedArgument do
      advance
      let _ ← eat .colon
      newlines
      let _ ← element
    return true
  else element

/-- A parameter of a closure. -/
def parameter : Routine Bool := do
  let k ← peek
  if k = .id || k = .underscore then
    advance
    return true
  else
    reportFound .unexpectedToken (some .parameterName)
    return false

/-- One item of a list. -/
def item : ItemList → Routine Bool
  | .elements => element
  | .entries => entry
  | .arguments => argument
  | .parameters => parameter

/-- One item of a list, and after a comma more. Newlines may stand around items, and a comma may stand after the last. -/
def itemsBody (list : ItemList) : Routine Unit := do
  newlines
  if ← stopped then return ()
  else if ← peekIs list.closer then return ()
  else if ← item list then
    newlines
    if ← eat .comma then rule (.items list) else return ()
  else return ()

/-- The closure after a call: parameters between bars, then a block. -/
def closure : Routine Unit :=
  node .closure do
    advance
    node .closureParams do
      match ← peek with
      | .pipePipe => advance
      | .pipe =>
        act (.pushDelimiter .pipe)
        advance
        rule (.items .parameters)
        close .pipe
      | _ => reportFound .unexpectedToken (some .parameterList)
    act .checkParameters
    newlines
    let _ ← block

/-- The arguments of a call. -/
def argumentList : Routine Unit :=
  node .argumentList do
    require .parenOpen
    delimited .parenOpen .arguments

/-- A name, or a call if arguments follow. -/
def identOrCall : Routine Kind := do
  require .id
  if ← ahead .startsCall then
    node .functionCall do
      advance
      let _ ← eat .bang
      argumentList
      if ← peekIs .arrow then closure
      return .functionCall
  else
    node .ident do
      advance
      return .ident

/-- Reports a missing operand. What may end or separate something is left for others to read; anything else is consumed
as an error. -/
def missingOperand : Routine Unit := do
  let k ← peek
  let detail : Detail :=
    match k with
    | .underscore => .underscoreValue
    | .pathField => .pathFieldValue
    | k => .found k
  match k with
  | .newline | .semicolon | .comma | .colon | .parenClose | .bracketClose | .braceClose =>
    report .expectedExpression (some detail)
  | _ =>
    if ← atEnd then report .expectedExpression none
    else reportAndAdvance .expectedExpression detail

/-- The brace here opens an object or a block. -/
def objectOrBlock : Routine Kind := do
  require .braceOpen
  if ← ahead .opensObject then object else block

/-- A term, with the path that touches it. -/
def term : Routine Kind :=
  nested <| marked do
    let k ←
      match ← peek with
      | .dot | .percent => externalQuery
      | .integer | .float | .minus | .doubleQuote | .rawString | .regex | .timestamp | .kwTrue | .kwFalse | .kwNull =>
        literal
      | .parenOpen => group
      | .bracketOpen => array
      | .braceOpen => objectOrBlock
      | .id => identOrCall
      | _ => do
        missingOperand
        return .error
    continuePath k

end Remap.Parser
