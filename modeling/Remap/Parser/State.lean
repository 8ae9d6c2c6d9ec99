import Remap.Diagnostic
import Remap.Token
import Remap.Tree

/-!
# The state of a parse

The parser reads tokens from the left and builds nodes that are not finished yet. Trivia that was passed over is held back
until the next token or node is placed, so that it never ends up inside a node that ends before it.

Unfinished nodes form a stack of frames. A frame without label is a mark: it collects what is built from some place on,
so that it can be wrapped in a node once it is known to be, say, the left side of an operator.
-/

namespace Remap.Parser

/-- Ways for the parser to break down. Only the first can happen, and only while it skips over errors at the very end of
the input. -/
inductive Fault where
  /-- A token was to be consumed where none is left. -/
  | endOfTokens
  /-- Too many tokens were looked at without any progress. -/
  | stuck
  /-- A rule was entered at a token it is not for. -/
  | misplaced (expected found : Kind)
  /-- The rule for literals was entered at another token. -/
  | notLiteral (found : Kind)
  /-- A node was closed, or a mark used, that is not the innermost one. -/
  | misnested
  /-- A delimiter was left open. -/
  | unbalanced
  /-- The bound on nested rules was too low. -/
  | outOfSteps
deriving DecidableEq, Repr, Inhabited

/-- The wording of a fault. -/
def Fault.message : Fault → String
  | .endOfTokens => "bump called at EOF"
  | .stuck => "parser is stuck: too many lookaheads"
  | .misplaced expected found =>
    "broken parser invariant: expected " ++ expected.name ++ " but found " ++ found.name
  | .notLiteral found => "no literal begins with " ++ found.name
  | .misnested => "misnested nodes"
  | .unbalanced => "unbalanced delimiter stack"
  | .outOfSteps => "out of steps"

/-- A node being built, or a mark. -/
structure Frame where
  /-- The kind of the node; none for a mark. -/
  label : Option Kind
  /-- The offset at which it begins. -/
  start : Nat
  /-- The children so far, latest first. -/
  built : List Tree
deriving Repr, Inhabited

/-- A delimiter that waits for its mate. -/
structure Delimiter where
  kind : Kind
  span : Span
deriving DecidableEq, Repr, Inhabited

/-- How many lookaheads are allowed in a row. -/
def maxPatience : Nat := 256

/-- The state of a parse. -/
structure State where
  /-- The tokens not yet passed. -/
  unread : List Token
  /-- Trivia that was passed but not placed. -/
  held : List Token := []
  /-- The innermost frame. -/
  top : Frame := ⟨none, 0, []⟩
  /-- The frames around it, innermost first. -/
  below : List Frame := []
  /-- The size in bytes of what was placed. -/
  placed : Nat := 0
  /-- The end of the last token placed that is neither trivia nor a newline. -/
  lastEnd : Option Nat := none
  /-- The diagnostics, latest first. -/
  reports : List Diagnostic := []
  /-- Where the last diagnostic was reported. -/
  lastReport : Option Nat := none
  /-- The open delimiters, innermost first. -/
  delimiters : List Delimiter := []
  /-- Whether newlines separate statements here; otherwise they are passed over like trivia. -/
  separating : Bool := true
  /-- The nesting depth. -/
  depth : Nat := 0
  /-- The greatest depth allowed. -/
  limit : Nat
  /-- Whether the limit was hit. Nothing is reported after that. -/
  overflowed : Bool := false
  /-- How many lookaheads are left. -/
  patience : Nat := maxPatience
  /-- How many tokens may still be consumed. -/
  fuel : Option Nat := none
  /-- Whether a token was consumed without fuel. -/
  exhausted : Bool := false

namespace State

/-- Whether a token is passed over where the state stands. -/
def skips (s : State) (t : Token) : Bool := t.kind.isTrivia || (!s.separating && t.kind = .newline)

/-- Passes over trivia, holding it back. -/
def skip (s : State) : State :=
  match s.unread with
  | [] => s
  | t :: _ =>
    if s.skips t then { s with held := s.held ++ s.unread.takeWhile s.skips, unread := s.unread.dropWhile s.skips }
    else s

/-- The kind of the next token; `error` stands for none. -/
def nextKind (s : State) : Kind :=
  match s.unread with
  | [] => .error
  | t :: _ => t.kind

/-- The span of the next token, or the empty one at the end. -/
def here (s : State) : Span :=
  match s.unread with
  | [] => .empty (s.placed + Text.bytes (s.held.flatMap (·.text)))
  | t :: _ => t.span

/-- Adds a tree to the innermost frame. -/
def place (s : State) (t : Tree) : State :=
  { s with top := { s.top with built := t :: s.top.built }, placed := s.placed + t.bytes }

/-- Places the trivia held back. -/
def drain (s : State) : State :=
  { s.held.foldl (fun s t => s.place (.leaf t.kind t.text)) s with held := [] }

/-- The state with all lookaheads allowed again. -/
def refresh (s : State) : State := { s with patience := maxPatience }

/-- Uses up fuel for one token. -/
def burn (s : State) : State :=
  match s.fuel with
  | none => s
  | some 0 => { s with exhausted := true }
  | some (n + 1) => { s with fuel := some n }

/-- Adds a diagnostic unless one was reported at the same offset just before, or the limit was hit. -/
def report (s : State) (d : Diagnostic) : State :=
  if s.overflowed || s.lastReport = some d.span.start then s
  else { s with reports := d :: s.reports, lastReport := some d.span.start }

/-- The state at the start of a parse. -/
def start (tokens : List Token) (limit : Nat) (fuel : Option Nat) : State := { unread := tokens, limit, fuel }

end State

end Remap.Parser
