import Remap.Span
import Remap.Tree

/-!
# Placed trees

A tree together with the offset at which it begins. The children of a placed tree are placed one after another.
-/

namespace Remap

/-- A tree at an offset. -/
structure Node where
  start : Nat
  tree : Tree
deriving Repr, Inhabited

namespace Node

/-- The kind of the tree. -/
def kind (n : Node) : Kind := n.tree.kind

/-- The span the tree covers. -/
def span (n : Node) : Span := .ofSize n.start n.tree.bytes

/-- The text the tree covers. -/
def text (n : Node) : Text := n.tree.text

/-- A row of trees placed from an offset on. -/
def placeAll : Nat → List Tree → List Node
  | _, [] => []
  | offset, t :: rest => ⟨offset, t⟩ :: placeAll (offset + t.bytes) rest

/-- The children in order, leaves and nodes alike. -/
def elements (n : Node) : List Node := placeAll n.start n.tree.children

/-- Whether the tree is a leaf. -/
def isLeaf (n : Node) : Bool :=
  match n.tree with
  | .leaf _ _ => true
  | .node _ _ => false

/-- The children that are leaves. -/
def leaves (n : Node) : List Node := n.elements.filter (·.isLeaf)

/-- The children that are nodes. -/
def nodes (n : Node) : List Node := n.elements.filter (!·.isLeaf)

/-- The first leaf among the children whose kind passes a test. -/
def leaf? (n : Node) (p : Kind → Bool) : Option Node := n.leaves.find? (p ·.kind)

/-- The first node of a kind among the children. -/
def node? (n : Node) (k : Kind) : Option Node := n.nodes.find? (·.kind = k)

/-- The nodes of a kind among the children. -/
def nodesOf (n : Node) (k : Kind) : List Node := n.nodes.filter (·.kind = k)

end Node

end Remap
