import Mathlib.Data.List.Forall2
import Mathlib.Data.List.Induction
import Remap.Proofs.Parser.Founded
import Remap.Proofs.RaisedLimit

/-!
# Where diagnostics are located

The diagnostics of a parse are those of the scanner and then those of the parser, in the order of their starts. Each is located by
counting: the newlines before an offset give its line, and the characters after the last of them its column. So an offset that is
further to the right has a later position.
-/

namespace Remap

namespace Position

/-- One position comes before another: on an earlier line, or on the same line in an earlier column. -/
def Before (p q : Position) : Prop := p.line < q.line ∨ p.line = q.line ∧ p.column < q.column

theorem Before.trans {p q r : Position} (h : p.Before q) (h' : q.Before r) : p.Before r := by
  unfold Before at *
  omega

/-- The position right after a text: counted from 1, one line for each newline; and one column for each character since the last
newline. -/
def after (t : Text) : Position := ⟨1 + t.count '\n', (t.reverse.takeWhile (· ≠ '\n')).length⟩

end Position

/-! ## Sorting -/

end Remap
