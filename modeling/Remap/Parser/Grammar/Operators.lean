import Remap.Operator
import Remap.Parser.Grammar.Terms

/-!
# Operator expressions

Operators are folded onto an operand by precedence. Operands to the right of an operator take only operators that bind
more tightly, so every operator associates to the left. Each fold nests the tree one level deeper, and stays counted as a
level of nesting until the whole chain is read.
-/

namespace Remap.Parser

/-- An operand with the `!` signs before it, which bind more tightly than any operator. -/
def unaryBody : Routine Kind := do
  newlines
  if ← peekIs .bang then
    nested <| node .unaryOp do
      advance
      newlines
      let _ ← rule .unary
      return .unaryOp
  else term

/-- An operand, and the operators after it that bind at least as tightly as `min`. -/
def binaryBody (min : Nat) : Routine Kind :=
  marked do
    let lhs ← rule .unary
    rule (.binaryRest min lhs)

/-- One operator that binds at least as tightly as `min`, its right operand, and more. -/
def binaryRestBody (min : Nat) (lhs : Kind) : Routine Kind := do
  let k ← peek
  match BinaryOperator.ofKind? k with
  | none => return lhs
  | some op =>
    if op.precedence < min then return lhs
    else
      nested do
        wrapped .binaryOp do
          advance
          newlines
          let _ ← rule (.binary (op.precedence + 1))
        rule (.binaryRest min .binaryOp)

end Remap.Parser
