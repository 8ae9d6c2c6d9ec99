import Remap.Text

/-!
# Terms of a pattern

A pattern as it was read: literals, classes, groups, repetitions and choices. Only what a later check can object to is kept;
which characters a class holds, for one, is not.
-/

namespace Remap.Pattern

/-- A literal character. `byteForm` says that it was written with exactly two hexadecimal digits, which stands for a byte
where Unicode is off. -/
structure Literal where
  char : Char
  byteForm : Bool
deriving DecidableEq, Repr, Inhabited

/-- A class named by a Unicode property, perhaps with a value. -/
structure Property where
  name : Text
  value : Option Text
deriving DecidableEq, Repr, Inhabited

/-- The flags a group or directive sets, where `none` leaves a flag as it was. -/
structure Flags where
  unicode : Option Bool
  extended : Option Bool
deriving DecidableEq, Repr, Inhabited

/-- Classes that need no brackets. -/
inductive Shorthand where
  | property (p : Property)
  /-- A class with a letter of its own, such as digits. -/
  | letter (negated : Bool)
deriving DecidableEq, Repr, Inhabited

mutual
/-- An item between brackets. -/
inductive ClassItem where
  | empty
  | literal (l : Literal)
  | range (first last : Literal)
  | shorthand (s : Shorthand)
  /-- A class named between brackets and colons. -/
  | named (negated : Bool)
  | bracketed (negated : Bool) (set : ClassSet)
  | union (items : List ClassItem)
/-- What stands between brackets. -/
inductive ClassSet where
  | item (i : ClassItem)
  /-- An intersection or difference of two sets. -/
  | combined (lhs rhs : ClassSet)
end

instance : Inhabited ClassItem := ⟨.empty⟩

instance : Inhabited ClassSet := ⟨.item .empty⟩

/-- A pattern. -/
inductive Term where
  | empty
  | flags (f : Flags)
  | literal (l : Literal)
  | dot
  | assertion
  | shorthand (s : Shorthand)
  | bracketed (negated : Bool) (set : ClassSet)
  | repetition (t : Term)
  | group (flags : Option Flags) (t : Term)
  | alternation (ts : List Term)
  | concat (ts : List Term)
deriving Inhabited

/-- A row of terms as one term. -/
def Term.ofList : List Term → Term
  | [] => .empty
  | [t] => t
  | ts => .concat ts

/-- A row of items as one item. -/
def ClassItem.ofList : List ClassItem → ClassItem
  | [] => .empty
  | [i] => i
  | is => .union is

mutual
/-- How deeply an item nests. -/
def ClassItem.depth : ClassItem → Nat
  | .bracketed _ set => set.depth + 1
  | .union items => ClassItem.depthOf items + 1
  | _ => 0
/-- How deeply a set nests. -/
def ClassSet.depth : ClassSet → Nat
  | .item i => i.depth
  | .combined lhs rhs => max lhs.depth rhs.depth + 1
/-- The depth of the deepest of some items. -/
def ClassItem.depthOf : List ClassItem → Nat
  | [] => 0
  | i :: rest => max i.depth (ClassItem.depthOf rest)
end

mutual
/-- How deeply a term nests. -/
def Term.depth : Term → Nat
  | .bracketed _ set => set.depth + 1
  | .repetition t => t.depth + 1
  | .group _ t => t.depth + 1
  | .alternation ts => Term.depthOf ts + 1
  | .concat ts => Term.depthOf ts + 1
  | _ => 0
/-- The depth of the deepest of some terms. -/
def Term.depthOf : List Term → Nat
  | [] => 0
  | t :: rest => max t.depth (Term.depthOf rest)
end

end Remap.Pattern
