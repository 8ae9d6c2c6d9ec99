import Remap.Expr.Dump
import Remap.Parser
import Remap.Token.Scan

/-!
# Programs

Parsing a source text from end to end: scanning, parsing, and one ordered, located list of diagnostics. Parsing always
gives a tree, however broken the source. It fails only when it runs out of fuel, or when the parser breaks down.
-/

namespace Remap

/-- How a source text is parsed. -/
structure Options where
  /-- The most tokens to consume; no bound if absent. -/
  fuel : Option Nat := none
  /-- The greatest nesting depth. -/
  limit : Nat := 256
  /-- Whether the patterns of regexes are checked. -/
  checkPatterns : Bool := false
deriving DecidableEq, Repr, Inhabited

/-- Why there is no result. -/
inductive Failure where
  /-- More tokens had to be consumed than allowed. -/
  | outOfFuel
  /-- The source is no valid program. -/
  | invalid (errors : Nat)
  /-- The parser broke down. -/
  | broken (f : Parser.Fault)
deriving DecidableEq, Repr, Inhabited

/-- The wording of a failure. -/
def Failure.message : Failure → String
  | .outOfFuel => "execution limit exceeded"
  | .invalid errors => "parsing failed with " ++ toString errors ++ " errors"
  | .broken f => f.message

/-- A source text with its tree and diagnostics. -/
structure Parsed where
  tree : Tree
  diagnostics : Diagnostics

namespace Parsed

/-- Whether the source is a valid program. -/
def isValid (p : Parsed) : Bool := !p.diagnostics.hasErrors

/-- The root of the tree. -/
def root (p : Parsed) : Node := ⟨0, p.tree⟩

/-- The statements of the program. -/
def statements (p : Parsed) : List Node := p.root.exprs

/-- The tree of a valid program. -/
def program? (p : Parsed) : Except Failure Tree :=
  if p.diagnostics.hasErrors then .error (.invalid p.diagnostics.errorCount) else .ok p.tree

/-- The dump of the typed view. -/
def dump (p : Parsed) (spans : Bool) : Text := Dump.joined (Dump.program spans p.tree)

/-- The dump of the tree. -/
def dumpTree (p : Parsed) (o : Dump.TreeOptions) : Text := Dump.joined (Dump.tree o 0 0 p.tree)

end Parsed

/-- Parses a source text. -/
def parse (o : Options) (source : Text) : Except Failure Parsed :=
  let scanned := scan source o.checkPatterns
  match Parser.parseTokens scanned.tokens o.limit o.fuel with
  | .error f => .error (.broken f)
  | .ok r =>
    if r.exhausted then .error .outOfFuel
    else .ok ⟨r.tree, ((scanned.diagnostics ++ r.diagnostics).sortByPosition).locate source⟩

end Remap
