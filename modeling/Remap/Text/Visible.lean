import Remap.Text.Extending
import Remap.Text.Invisible

/-!
# Characters that show by themselves

A reader cannot tell a character from its surroundings if it has no shape or if it only extends the character before it.
The two halfwidth sound marks extend, but have a place of their own.
-/

namespace Remap.Text

/-- Whether a character is one of the two halfwidth marks for voiced sounds, which stand beside the character before
them. -/
def isSoundMark (c : Char) : Bool := c = '\uff9e' || c = '\uff9f'

/-- Whether a character shows by itself. -/
def isVisible (c : Char) : Bool :=
  let n := c.toNat
  if n < 0x7F then 0x20 ≤ n else !invisible.hold n && (isSoundMark c || !extending.hold n)

end Remap.Text
