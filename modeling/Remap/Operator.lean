import Remap.Kind

/-!
# Operators

The binary operators with their precedence, and the two assignment operators. All binary operators associate to the left.
-/

namespace Remap

/-- The binary operators, loosest first. -/
inductive BinaryOperator where
  | errorCoalesce | or | and | equal | notEqual | greater | greaterOrEqual | less | lessOrEqual | merge | add | subtract
  | multiply | divide
deriving DecidableEq, Repr, Inhabited

namespace BinaryOperator

/-- The operator a token of a kind stands for. -/
def ofKind? : Kind → Option BinaryOperator
  | .questionQuestion => some .errorCoalesce
  | .pipePipe => some .or
  | .ampAmp => some .and
  | .equalsEquals => some .equal
  | .bangEquals => some .notEqual
  | .greater => some .greater
  | .greaterEquals => some .greaterOrEqual
  | .less => some .less
  | .lessEquals => some .lessOrEqual
  | .pipe => some .merge
  | .plus => some .add
  | .minus => some .subtract
  | .star => some .multiply
  | .slash => some .divide
  | _ => none

/-- How the operator is written. -/
def symbol : BinaryOperator → String
  | .errorCoalesce => "??"
  | .or => "||"
  | .and => "&&"
  | .equal => "=="
  | .notEqual => "!="
  | .greater => ">"
  | .greaterOrEqual => ">="
  | .less => "<"
  | .lessOrEqual => "<="
  | .merge => "|"
  | .add => "+"
  | .subtract => "-"
  | .multiply => "*"
  | .divide => "/"

/-- The name of the operator. -/
def name : BinaryOperator → String
  | .errorCoalesce => "ErrorCoalesce"
  | .or => "Or"
  | .and => "And"
  | .equal => "Equal"
  | .notEqual => "NotEqual"
  | .greater => "Greater"
  | .greaterOrEqual => "GreaterOrEqual"
  | .less => "Less"
  | .lessOrEqual => "LessOrEqual"
  | .merge => "Merge"
  | .add => "Add"
  | .subtract => "Subtract"
  | .multiply => "Multiply"
  | .divide => "Divide"

/-- How tightly the operator binds: the higher, the tighter. -/
def precedence : BinaryOperator → Nat
  | .errorCoalesce => 1
  | .or => 2
  | .and => 3
  | .equal | .notEqual => 4
  | .greater | .greaterOrEqual | .less | .lessOrEqual => 5
  | .merge => 6
  | .add | .subtract => 7
  | .multiply | .divide => 8

end BinaryOperator

/-- The assignment operators. -/
inductive AssignOperator where
  /-- Stores a value. -/
  | assign
  /-- Merges a value into what is stored. -/
  | mergeAssign
deriving DecidableEq, Repr, Inhabited

namespace AssignOperator

/-- The operator a token of a kind stands for. -/
def ofKind? : Kind → Option AssignOperator
  | .equals => some .assign
  | .pipeEquals => some .mergeAssign
  | _ => none

/-- The kind of the operator's token. -/
def kind : AssignOperator → Kind
  | .assign => .equals
  | .mergeAssign => .pipeEquals

/-- How the operator is written. -/
def symbol : AssignOperator → String
  | .assign => "="
  | .mergeAssign => "|="

end AssignOperator

end Remap
