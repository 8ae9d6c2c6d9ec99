import Remap.Parser.Grammar.Statements

/-!
# The grammar

The body of every rule.
-/

namespace Remap.Parser

/-- The body of a rule. -/
def grammar {α : Type} : Rule α → Routine α
  | .newlines => newlinesBody
  | .absorb => absorbBody
  | .skipTo stops depth => skipToBody stops depth
  | .stringParts => stringPartsBody
  | .templateParts => templatePartsBody
  | .pathSegments => pathSegmentsBody
  | .items list => itemsBody list
  | .statements closer => statementsBody closer
  | .conditions count => conditionsBody count
  | .elseBranches => elseBranchesBody
  | .statement => statement
  | .assignment => assignment
  | .binary min => binaryBody min
  | .binaryRest min lhs => binaryRestBody min lhs
  | .unary => unaryBody

end Remap.Parser
