import Remap.Kind
import Remap.Text

/-!
# Trees

A tree holds a source text whole: its leaves are the tokens, in order, and its nodes group them. A tree does not know where
it stands; offsets follow from the texts.
-/

namespace Remap

/-- A lossless tree over a source text. -/
inductive Tree where
  | leaf (kind : Kind) (text : Text)
  | node (kind : Kind) (children : List Tree)
deriving Repr, Inhabited

namespace Tree

/-- The kind of a leaf or node. -/
def kind : Tree → Kind
  | .leaf k _ => k
  | .node k _ => k

/-- The children of a node; a leaf has none. -/
def children : Tree → List Tree
  | .leaf _ _ => []
  | .node _ cs => cs

mutual
/-- The leaves from left to right, with their kinds. -/
def leaves : Tree → List (Kind × Text)
  | .leaf k t => [(k, t)]
  | .node _ cs => leavesOf cs
/-- The leaves of a row of trees. -/
def leavesOf : List Tree → List (Kind × Text)
  | [] => []
  | t :: ts => leaves t ++ leavesOf ts
end

mutual
/-- The text a tree covers. -/
def text : Tree → Text
  | .leaf _ t => t
  | .node _ cs => textOf cs
/-- The text a row of trees covers. -/
def textOf : List Tree → Text
  | [] => []
  | t :: ts => text t ++ textOf ts
end

mutual
/-- The size in bytes of the text a tree covers. -/
def bytes : Tree → Nat
  | .leaf _ t => t.bytes
  | .node _ cs => bytesOf cs
/-- The size in bytes of the text a row of trees covers. -/
def bytesOf : List Tree → Nat
  | [] => 0
  | t :: ts => bytes t + bytesOf ts
end

mutual
/-- The most nodes on a way from the root down to a leaf. -/
def height : Tree → Nat
  | .leaf _ _ => 0
  | .node _ cs => heightOf cs + 1
/-- The height of the highest tree of a row. -/
def heightOf : List Tree → Nat
  | [] => 0
  | t :: ts => max (height t) (heightOf ts)
end

end Tree

end Remap
