import Remap.Pattern.Property
import Remap.Pattern.Reader

/-!
# Checking a pattern

A pattern that reads well may still be refused: it may nest too deeply, ask for a property that does not exist, or, where
Unicode is switched off, match bytes that are no text.
-/

namespace Remap.Pattern

/-- The deepest nesting allowed. -/
def nestLimit : Nat := 250

/-- A literal in a class. Where Unicode is off, only ASCII characters can stand there. -/
def Literal.checkInClass (unicode : Bool) (l : Literal) : Except Error Unit :=
  if unicode || l.char.toNat < 0x80 then .ok ()
  else if l.byteForm && l.char.toNat < 0x100 then .error .invalidUtf8
  else .error .unicodeNotAllowed

/-- A literal outside classes. Where Unicode is off, a byte beyond ASCII is no text. -/
def Literal.check (unicode : Bool) (l : Literal) : Except Error Unit :=
  if !unicode && l.byteForm && 0x80 ≤ l.char.toNat && l.char.toNat < 0x100 then .error .invalidUtf8 else .ok ()

/-- The complement of a class of bytes holds bytes that are no text. -/
def checkNegated (unicode negated : Bool) : Except Error Unit :=
  if !unicode && negated then .error .invalidUtf8 else .ok ()

/-- A class that needs no brackets. -/
def Shorthand.check (unicode : Bool) : Shorthand → Except Error Unit
  | .property p => if unicode then p.check else .error .unicodeNotAllowed
  | .letter negated => checkNegated unicode negated

mutual
/-- An item of a class. -/
def ClassItem.check (unicode : Bool) : ClassItem → Except Error Unit
  | .empty => .ok ()
  | .literal l => l.checkInClass unicode
  | .range first last => do
    first.checkInClass unicode
    last.checkInClass unicode
  | .shorthand s => s.check unicode
  | .named negated => checkNegated unicode negated
  | .bracketed negated set => do
    set.check unicode
    checkNegated unicode negated
  | .union items => ClassItem.checkAll unicode items
/-- A set. -/
def ClassSet.check (unicode : Bool) : ClassSet → Except Error Unit
  | .item i => i.check unicode
  | .combined lhs rhs => do
    lhs.check unicode
    rhs.check unicode
/-- The items of a class in order. -/
def ClassItem.checkAll (unicode : Bool) : List ClassItem → Except Error Unit
  | [] => .ok ()
  | i :: rest => do
    i.check unicode
    ClassItem.checkAll unicode rest
end

mutual
/-- A term, given whether Unicode is on before it. Returns whether it is on after it. -/
def Term.check (unicode : Bool) : Term → Except Error Bool
  | .empty | .assertion => .ok unicode
  | .flags f => .ok (f.unicode.getD unicode)
  | .literal l => do
    l.check unicode
    return unicode
  | .dot => if unicode then .ok unicode else .error .invalidUtf8
  | .shorthand s => do
    s.check unicode
    return unicode
  | .bracketed negated set => do
    set.check unicode
    checkNegated unicode negated
    return unicode
  | .repetition t => t.check unicode
  | .group scope t => do
    let _ ← t.check ((scope.bind (·.unicode)).getD unicode)
    return unicode
  | .alternation ts => Term.checkAll unicode ts
  | .concat ts => Term.checkAll unicode ts
/-- Terms in order. -/
def Term.checkAll (unicode : Bool) : List Term → Except Error Bool
  | [] => .ok unicode
  | t :: rest => do
    let unicode ← t.check unicode
    Term.checkAll unicode rest
end

/-- Whether a text is a valid pattern, or why it is not. -/
def check (t : Text) : Except Error Unit := do
  let term ← read t
  if nestLimit < term.depth then .error (.nestLimitExceeded nestLimit)
  else
    let _ ← term.check true
    return ()

end Remap.Pattern
