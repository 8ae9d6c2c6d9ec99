import Remap.Proofs.Tree.Complete

/-!
# Terse trees

A literal other than a string is one token, before which a number may have a sign. An index segment may hold all kinds of things
where it was recovered from an error, but one integer at most. A tree is terse if this is so of every node in it; then the typed
view has no choice which token to read a value from.
-/

namespace Remap

/-- The kinds of tokens that a literal of a kind is written with. -/
def Kind.literalTokens : Kind → List Kind
  | .integerLit => [.integer]
  | .floatLit => [.float]
  | .rawStringLit => [.rawString]
  | .regexLit => [.regex]
  | .timestampLit => [.timestamp]
  | .booleanLit => [.kwTrue, .kwFalse]
  | .nullLit => [.kwNull]
  | _ => []

/-- A token that a literal is written with is neither a blank nor a sign. -/
theorem Kind.facts_of_literalTokens {k token : Kind} (h : token ∈ k.literalTokens) :
    token.isTrivia = false ∧ token ≠ .newline ∧ token ≠ .minus ∧ token ≠ .error := by
  have hall : ∀ k : Kind, ∀ token ∈ k.literalTokens,
      token.isTrivia = false ∧ token ≠ .newline ∧ token ≠ .minus ∧ token ≠ .error := by
    intro k
    cases k <;> decide
  exact hall k token h

namespace Tree

/-- Whether a tree is a leaf of an integer. -/
def isInteger : Tree → Bool
  | .leaf k _ => k = .integer
  | .node _ _ => false

/-- The children of a literal of a kind: its token, perhaps after a sign. -/
inductive OneToken (k : Kind) : List Tree → Prop where
  | plain {token : Kind} (t : Text) (h : token ∈ k.literalTokens) : OneToken k [.leaf token t]
  | signed {token : Kind} (sign t : Text) (h : token ∈ k.literalTokens) (number : token = .integer ∨ token = .float) :
      OneToken k [.leaf .minus sign, .leaf token t]

/-- The children of a node of a kind: those of a literal are one token, and those of an index segment hold one integer at most. -/
structure Brief (k : Kind) (cs : List Tree) : Prop where
  literal : k.literalTokens ≠ [] → OneToken k cs
  index : k = .indexSegment → cs.countP isInteger ≤ 1

/-- A tree all of whose nodes are brief. -/
inductive Terse : Tree → Prop where
  | leaf (k : Kind) (t : Text) : Terse (.leaf k t)
  | node {k : Kind} {cs : List Tree} (brief : Brief k cs) (children : ∀ c ∈ cs, Terse c) : Terse (.node k cs)

/-- The children of an integer literal: digits, perhaps after a sign. -/
theorem OneToken.integer {cs : List Tree} (h : OneToken .integerLit cs) :
    (∃ t, cs = [.leaf .integer t]) ∨ ∃ sign t, cs = [.leaf .minus sign, .leaf .integer t] := by
  cases h with
  | plain t h => exact .inl ⟨t, by rw [List.mem_singleton.mp h]⟩
  | signed sign t h _ => exact .inr ⟨sign, t, by rw [List.mem_singleton.mp h]⟩

/-- A literal that is no number has no sign. -/
theorem OneToken.sole {k token : Kind} {cs : List Tree} (h : OneToken k cs) (hk : k.literalTokens = [token])
    (hnumber : token ≠ .integer ∧ token ≠ .float) : ∃ t, cs = [.leaf token t] := by
  cases h with
  | plain t h =>
    rw [hk] at h
    exact ⟨t, by rw [List.mem_singleton.mp h]⟩
  | signed _ _ h number =>
    rw [hk] at h
    rw [List.mem_singleton.mp h] at number
    exact absurd number (not_or.mpr hnumber)

/-- A node that holds a number holds one integer at most. -/
theorem Brief.countP_le {k : Kind} {cs : List Tree} (h : Brief k cs) (hk : k = .integerLit ∨ k = .indexSegment) :
    cs.countP isInteger ≤ 1 := by
  rcases hk with rfl | rfl
  · rcases (h.literal (List.cons_ne_nil _ _)).integer with ⟨t, rfl⟩ | ⟨sign, t, rfl⟩ <;> exact Nat.le_refl 1
  · exact h.index rfl

/-- Every node within a terse tree is brief. -/
theorem Terse.brief {root n : Node} (h : root.tree.Terse) (hn : root.Within n) (hleaf : n.isLeaf = false) :
    Brief n.kind n.tree.children := by
  have hterse : n.tree.Terse := by
    refine hn.inherit (fun t ht c hc => ?_) h
    cases ht with
    | leaf k t => cases hc
    | node _ children => exact children c hc
  obtain ⟨start, tree⟩ := n
  cases hterse with
  | leaf k t => cases hleaf
  | node brief _ => exact brief

end Tree

namespace Node

variable {n l : Node}

/-- What has a child is no leaf. -/
theorem isLeaf_of_mem_elements (h : l ∈ n.elements) : n.isLeaf = false := by
  obtain ⟨start, tree⟩ := n
  cases tree with
  | leaf k t => cases h
  | node k cs => rfl

/-- A leaf that is the only one of its kind is the one that is found. -/
theorem leaf?_of_unique {p : Kind → Bool} (hl : l ∈ n.leaves) (hp : p l.kind = true)
    (hunique : n.leaves.countP (fun m => p m.kind) ≤ 1) : n.leaf? p = some l := by
  obtain ⟨before, after, hsplit⟩ := List.append_of_mem hl
  have hcount : before.countP (fun m => p m.kind) + (after.countP (fun m => p m.kind) + 1) ≤ 1 := by
    rw [hsplit, List.countP_append, List.countP_cons, if_pos hp] at hunique
    exact hunique
  have hbefore : before.find? (p ·.kind) = none :=
    List.find?_eq_none.mpr fun m hm hk => by
      have hpos := List.countP_pos_iff (p := fun m : Node => p m.kind).mpr ⟨m, hm, hk⟩
      omega
  rw [leaf?, hsplit, List.find?_append, hbefore, Option.none_or, List.find?_cons, hp]

/-- The integers among the children, counted as trees. -/
theorem countP_integers (n : Node) : n.leaves.countP (fun m => decide (m.kind = .integer)) = n.tree.children.countP Tree.isInteger := by
  rw [leaves, List.countP_filter, ← map_tree_placeAll n.start n.tree.children, List.countP_map]
  refine List.countP_congr fun m _ => ?_
  obtain ⟨start, tree⟩ := m
  cases tree with
  | leaf k t => rw [Bool.and_eq_true]; exact and_iff_left rfl
  | node k cs => rw [Bool.and_eq_true]; exact and_iff_right_of_imp fun h => by cases h

/-- In a node that holds a number, the one integer token is the one that is read. -/
theorem leafText?_integer (h : Tree.Brief n.kind n.tree.children) (hk : n.kind = .integerLit ∨ n.kind = .indexSegment)
    (hl : l ∈ n.leaves) (hinteger : l.kind = .integer) : n.leafText? .integer = some l.text := by
  have hunique := n.countP_integers ▸ h.countP_le hk
  rw [leafText?, leaf?_of_unique hl (decide_eq_true hinteger) hunique]
  rfl

end Node

end Remap
