import Remap.Parser.Lookahead
import Remap.Parser.State

/-!
# Actions

The elementary steps of the parser. An action changes the state and replies with a kind, a yes or no, or nothing. No
action replies with an offset or a text: where things stand is known to the state alone, so what the parser does next
depends only on the kinds of tokens and on which of them touch.
-/

namespace Remap.Parser

/-- The reply to an attempt to nest one level deeper. -/
inductive Entry where
  /-- There was room. -/
  | entered
  /-- The limit was hit just now. -/
  | overflow
  /-- The limit was hit before. -/
  | blocked
deriving DecidableEq, Repr, Inhabited

/-- What can be wrong with an assignment target. -/
inductive TargetFlaw where
  /-- It is no place to store a value. -/
  | notAssignable
  /-- It is `_`, and no assignment follows. -/
  | underscoreAlone
deriving DecidableEq, Repr, Inhabited

/-- An elementary step, indexed by the type of its reply. -/
inductive Action : Type → Type where
  /-- The kind of the next token after trivia; `error` at the end. -/
  | peek : Action Kind
  /-- The kind of the very next token, trivia or not; `error` at the end. -/
  | peekRaw : Action Kind
  /-- Whether the next token after trivia touches the one before it. -/
  | touches : Action Bool
  /-- The answer to a question about the tokens ahead. -/
  | ahead (q : Lookahead) : Action Bool
  /-- Whether all tokens were passed. -/
  | atEnd : Action Bool
  /-- Whether to stop: all tokens were passed, or the fuel is used up. -/
  | stopped : Action Bool
  /-- Consumes the very next token. -/
  | advance : Action Unit
  /-- Places the trivia that comes next. -/
  | settle : Action Unit
  /-- Opens a node after the trivia held back. -/
  | openNode (k : Kind) : Action Unit
  /-- Closes the innermost node. -/
  | closeNode : Action Unit
  /-- Marks the place after the trivia held back. -/
  | mark : Action Unit
  /-- Opens a node that begins at the innermost mark. -/
  | wrap (k : Kind) : Action Unit
  /-- Gives up the innermost mark. -/
  | unmark : Action Unit
  /-- Reports a problem at the next token after trivia. What was expected at the end of input is reported as that. -/
  | report (p : Problem) (d : Option Detail) : Action Unit
  /-- Reports that the innermost delimiter is still open at the end. -/
  | reportUnclosed (closer : Kind) : Action Unit
  /-- Reports a flaw of the target built since the innermost mark. -/
  | reportTarget (flaw : TargetFlaw) : Action Unit
  /-- Reports the parameters that repeat a name in the parameter list just built. -/
  | checkParameters : Action Unit
  /-- Nests one level deeper. -/
  | enter : Action Entry
  /-- Returns from one level of nesting. -/
  | leave : Action Unit
  /-- Notes that the next token after trivia opens a delimited region. -/
  | pushDelimiter (k : Kind) : Action Unit
  /-- Forgets the innermost open delimiter. -/
  | popDelimiter : Action Unit
  /-- Sets whether newlines separate statements, and replies whether they did. -/
  | setSeparating (b : Bool) : Action Bool

/-- What an expectation is called when the input ends instead. -/
def atEndOfInput : Problem → Problem
  | .expectedExpression | .unexpectedToken | .missingSeparator => .unexpectedEndOfInput
  | p => p

/-- The named parameters among the direct leaves of a parameter list that starts at an offset. -/
def parametersOf : Nat → List Tree → List (Text × Span)
  | _, [] => []
  | offset, .leaf k t :: rest =>
    if k = .id then (t, .ofSize offset t.bytes) :: parametersOf (offset + t.bytes) rest
    else parametersOf (offset + t.bytes) rest
  | offset, t :: rest => parametersOf (offset + t.bytes) rest

/-- Each parameter that repeats an earlier name, with the span of the first parameter of that name. -/
def repeatedParameters : List (Text × Span) → List (Text × Span) → List (Text × Span × Span)
  | _, [] => []
  | seen, (name, span) :: rest =>
    match seen.lookup name with
    | some first => (name, span, first) :: repeatedParameters seen rest
    | none => repeatedParameters (seen ++ [(name, span)]) rest

namespace State

/-- The span of what was built since the innermost mark, up to the last token that is neither trivia nor a newline. -/
def targetSpan (s : State) : Span := ⟨s.top.start, max (s.lastEnd.getD s.top.start) s.top.start⟩

/-- The text of what was built since the innermost mark, without blanks around it. -/
def targetText (s : State) : Text :=
  ((Tree.textOf s.top.built.reverse).takeBytes (s.targetSpan.stop - s.targetSpan.start)).trim

/-- Reports the repeated names in the parameter list just built. -/
def reportParameters (s : State) : State :=
  match s.top.built with
  | .node .closureParams cs :: _ =>
    let start := s.placed - Tree.bytesOf cs
    (repeatedParameters [] (parametersOf start cs)).foldl
      (fun s (name, span, first) => s.report
        { problem := .duplicateClosureParam, span, detail := some (.quote name), related := [⟨first, .firstDefined⟩] }) s
  | _ => s

/-- Notes the end of a token unless it is trivia or a newline. -/
def noteEnd (s : State) (t : Token) : State :=
  if t.kind.isTrivia || t.kind = .newline then s else { s with lastEnd := some t.stop }

end State

/-- A step of the parser: a reply and the next state, or a fault. -/
abbrev Step (α : Type) := State → Except Fault (α × State)

/-- Looks at a kind, which uses up some patience. -/
def look (s : State) : Except Fault (Kind × State) :=
  if s.patience = 0 then .error .stuck else .ok (s.nextKind, { s with patience := s.patience - 1 })

/-- What an action does. -/
def Action.perform {α : Type} : Action α → Step α
  | .peek, s => look s.skip
  | .peekRaw, s => look s
  | .touches, s => let s := s.skip; .ok (s.unread.head?.any (·.immediate), s)
  | .ahead q, s => .ok (q.holds s.unread, s)
  | .atEnd, s => .ok (s.unread.isEmpty, s)
  | .stopped, s => .ok (s.unread.isEmpty || s.exhausted, s)
  | .advance, s =>
    match s.unread with
    | [] => .error .endOfTokens
    | t :: rest => .ok ((), (({ s.refresh.burn with unread := rest }.drain).place (.leaf t.kind t.text)).noteEnd t)
  | .settle, s => .ok ((), s.skip.drain)
  | .openNode k, s =>
    let s := s.drain
    .ok ((), { s with top := ⟨some k, s.placed, []⟩, below := s.top :: s.below })
  | .closeNode, s =>
    match s.top.label, s.below with
    | some k, f :: fs =>
      .ok ((), { s with top := { f with built := .node k s.top.built.reverse :: f.built }, below := fs })
    | _, _ => .error .misnested
  | .mark, s =>
    let s := s.drain
    .ok ((), { s with top := ⟨none, s.placed, []⟩, below := s.top :: s.below })
  | .wrap k, s =>
    match s.top.label with
    | none => .ok ((), { s with top := { s.top with label := some k }, below := { s.top with built := [] } :: s.below })
    | some _ => .error .misnested
  | .unmark, s =>
    match s.top.label, s.below with
    | none, f :: fs => .ok ((), { s with top := { f with built := s.top.built ++ f.built }, below := fs })
    | _, _ => .error .misnested
  | .report p d, s =>
    let s := s.skip
    let p := if s.unread.isEmpty then atEndOfInput p else p
    .ok ((), s.report { problem := p, span := s.here, detail := d })
  | .reportUnclosed closer, s =>
    let s := s.skip
    match s.delimiters with
    | [] => .ok ((), s)
    | d :: _ => .ok ((), s.report
        { problem := .unexpectedEndOfInput, span := s.here, detail := some (.expected (.delimiter closer))
          related := [⟨d.span, .opened d.kind⟩] })
  | .reportTarget flaw, s =>
    let detail := match flaw with
      | .notAssignable => .notAssignable s.targetText
      | .underscoreAlone => .underscoreAlone
    .ok ((), s.report { problem := .invalidAssignmentTarget, span := s.targetSpan, detail := some detail })
  | .checkParameters, s => .ok ((), s.reportParameters)
  | .enter, s =>
    if s.overflowed then .ok (.blocked, s)
    else if s.depth < s.limit then .ok (.entered, { s with depth := s.depth + 1 }.refresh)
    else
      let s := s.skip
      let d : Diagnostic := { problem := .recursionLimitExceeded, span := s.here, detail := some (.levels s.limit) }
      .ok (.overflow, { s with reports := d :: s.reports, overflowed := true })
  | .leave, s => .ok ((), { s with depth := s.depth - 1 }.refresh)
  | .pushDelimiter k, s =>
    let s := s.skip
    .ok ((), { s with delimiters := ⟨k, s.here⟩ :: s.delimiters })
  | .popDelimiter, s => .ok ((), { s with delimiters := s.delimiters.drop 1 })
  | .setSeparating b, s => .ok (s.separating, { s with separating := b })

end Remap.Parser
