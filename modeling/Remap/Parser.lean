import Remap.Parser.Grammar

/-!
# Parsing tokens

Rules are run with a bound on how deeply they may nest or follow each other. The bound grows with the number of tokens,
since only a few rules can be entered one after another before a token is consumed.
-/

namespace Remap.Parser

/-- Runs a rule whose chain of rules is at most `steps` long. -/
def runRule : Nat → {α : Type} → Rule α → Step α
  | 0, _, _, _ => .error .outOfSteps
  | steps + 1, _, r, s => (grammar r).run (runRule steps) s

/-- A bound on the chain of rules for a number of tokens. -/
def stepsFor (tokens : Nat) : Nat := 8 * (tokens + 2)

/-- The tree and diagnostics of a finished parse. -/
structure Result where
  tree : Tree
  /-- The diagnostics in the order in which they were reported. -/
  diagnostics : Diagnostics
  /-- Whether the parse ran out of fuel. -/
  exhausted : Bool

/-- The result a final state holds. -/
def State.finish (s : State) : Except Fault Result :=
  match s.delimiters with
  | _ :: _ => .error .unbalanced
  | [] =>
    match s.top.label, s.top.built, s.below with
    | none, [t], [] => .ok ⟨t, s.reports.reverse, s.exhausted⟩
    | _, _, _ => .error .misnested

/-- Parses the tokens of a program. -/
def parseTokens (tokens : List Token) (limit : Nat) (fuel : Option Nat) : Except Fault Result :=
  match program.run (runRule (stepsFor tokens.length)) (State.start tokens limit fuel) with
  | .ok (_, s) => s.finish
  | .error f => .error f

end Remap.Parser
