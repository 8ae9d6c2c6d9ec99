import Remap.Parser.Lookahead
import Remap.Proofs.Tree.Joined

/-!
# What a brace opens

An object and a block begin with the same brace. Which of the two it is was decided by the tokens behind the brace, and these are the
leaves of the node behind its brace and the leaves after the node. `Told` says so for all objects within a tree, and for all blocks
that are not the branch of an `if` or the body of a closure, where nothing is to be decided.
-/

namespace Remap

/-- The kinds of nodes that have blocks of their own. -/
def Kind.ownsBlocks : Kind → Bool
  | .ifStatement | .closure => true
  | _ => false

namespace Tree

variable {owned : Bool} {xs ys : List (Kind × Text)} {k : Kind} {cs : List Tree}

/-- Whether the tree is an object, or a block that is not owned. -/
def isTold (owned : Bool) : Tree → Bool
  | .node .object _ => true
  | .node .block _ => !owned
  | _ => false

/-- A tree begins with a brace, and it is an object exactly if the tokens behind that brace say so. Behind the tree come the leaves
`ys`. -/
def Braced (t : Tree) (ys : List (Kind × Text)) : Prop :=
  ∃ text more, ∃ ts : List Token, t.children = .leaf .braceOpen text :: more ∧ ts.map Token.piece = leavesOf more ++ ys ∧
    (t.kind = .object ↔ Parser.Lookahead.isObject ts = true)

/-- The braces within a tree tell what they open, that of the tree itself apart. -/
inductive Told : Tree → List (Kind × Text) → Prop where
  | leaf {ys : List (Kind × Text)} (k : Kind) (text : Text) : Told (.leaf k text) ys
  | node {ys : List (Kind × Text)} {k : Kind} {cs : List Tree}
      (braced : ∀ ls c rs, cs = ls ++ c :: rs → c.isTold k.ownsBlocks = true → c.Braced (leavesOf rs ++ ys))
      (told : ∀ ls c rs, cs = ls ++ c :: rs → Told c (leavesOf rs ++ ys)) : Told (.node k cs) ys

/-- What is within a tree whose braces tell what they open is such a tree. -/
theorem Told.amid {root t : Tree} (h : Told root []) (ht : Amid root xs t ys) : Told t ys := by
  induction ht with
  | root => exact h
  | child _ ih =>
    cases ih with
    | node _ htold => exact htold _ _ _ rfl

/-- The braces of a tree tell what they open, its own brace among them if it is to be told. What comes before makes no difference. -/
structure Fits (owned : Bool) (_xs : List (Kind × Text)) (t : Tree) (ys : List (Kind × Text)) : Prop where
  braced : t.isTold owned = true → t.Braced ys
  told : Told t ys

theorem fits_leaf (t : Token) (xs ys : List (Kind × Text)) : Fits owned xs t.leaf ys := ⟨nofun, .leaf _ _⟩

/-- Less is asked of a row that may hold owned blocks. -/
theorem Fits.loosen {t : Tree} (h : Fits false xs t ys) : Fits true xs t ys := by
  refine ⟨fun ht => h.braced ?_, h.told⟩
  unfold isTold at ht ⊢
  split at ht <;> first | rfl | cases ht

theorem told_node (h : Along (Fits k.ownsBlocks) xs cs ys) : Told (.node k cs) ys := by
  refine .node (fun ls c rs hcs => ?_) fun ls c rs hcs => ?_
  · subst hcs
    exact h.mem.braced
  · subst hcs
    exact h.mem.told

/-- A node that need not be told, or that is. -/
theorem fits_node (h : Along (Fits k.ownsBlocks) xs cs ys) (hnode : isTold owned (.node k cs) = true → Braced (.node k cs) ys) :
    Fits owned xs (.node k cs) ys :=
  ⟨hnode, told_node h⟩

end Tree

end Remap
