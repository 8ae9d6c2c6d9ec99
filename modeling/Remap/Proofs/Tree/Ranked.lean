import Remap.Proofs.Tree.Complete

/-!
# Trees in order of precedence

A tree is ranked if every operation in it has operands that bind at least as tightly as it needs: on its left side as tightly as
its operator, on its right side more tightly. Operators are found the way the typed view finds them, by the first leaf among the
children that is one.
-/

namespace Remap

/-- Whether a node of a kind is an operation. -/
def Kind.isOperation : Kind → Bool
  | .binaryOp | .unaryOp => true
  | _ => false

/-- Blanks are no operators. -/
theorem BinaryOperator.ofKind?_of_blank {k : Kind} (h : k.isTrivia = true ∨ k = .newline) : ofKind? k = none := by
  rcases Kind.blank_cases h with rfl | rfl | rfl | rfl <;> rfl

namespace Tree

/-- The operator that a leaf is. -/
def operator? : Tree → Option BinaryOperator
  | .leaf k _ => BinaryOperator.ofKind? k
  | .node _ _ => none

/-- The first operator among the leaves of a row. -/
def operatorOf (cs : List Tree) : Option BinaryOperator := cs.findSome? operator?

/-- Whether a tree is neither an operator nor a binary operation. -/
def isOperand : Tree → Bool
  | .leaf k _ => (BinaryOperator.ofKind? k).isNone
  | .node k _ => k != .binaryOp

/-- A blank is no operator. -/
theorem isOperand_of_isBlank : {t : Tree} → t.isBlank = true → t.isOperand = true
  | .leaf k _, h => Option.isNone_iff_eq_none.mpr (BinaryOperator.ofKind?_of_blank (by simpa [isBlank] using h))

/-- A tree binds at least as tightly as a precedence: it is no operator, and if it is an operation, then one of an operator of that
precedence or a higher one. -/
def Binds (m : Nat) : Tree → Prop
  | .leaf k _ => BinaryOperator.ofKind? k = none
  | .node k cs => k = .binaryOp → ∀ op, operatorOf cs = some op → m ≤ op.precedence

theorem Binds.of_le {m q : Nat} (hle : m ≤ q) : {t : Tree} → t.Binds q → t.Binds m
  | .leaf _ _, h => h
  | .node _ _, h => fun hk op hop => Nat.le_trans hle (h hk op hop)

/-- Operands bind as tightly as can be. -/
theorem binds_of_isOperand (m : Nat) : {t : Tree} → t.isOperand = true → t.Binds m
  | .leaf _ _, h => Option.isNone_iff_eq_none.mp h
  | .node k _, h => fun hk => by
    rw [hk] at h
    cases h

theorem Binds.operator? {m : Nat} : {t : Tree} → t.Binds m → t.operator? = none
  | .leaf _ _, h => h
  | .node _ _, _ => rfl

/-- The children of an operation: what is left of its operator binds as tightly as the operator, and what is right of it binds
more tightly. -/
inductive Operation (op : BinaryOperator) : List Tree → Prop where
  | intro {left right : List Tree} {k : Kind} {t : Text} (operator : BinaryOperator.ofKind? k = some op)
      (lefts : ∀ c ∈ left, c.Binds op.precedence) (rights : ∀ c ∈ right, c.Binds (op.precedence + 1)) :
      Operation op (left ++ .leaf k t :: right)

/-- The operator of an operation is the first one among its children. -/
theorem Operation.operatorOf {op : BinaryOperator} {cs : List Tree} (h : Operation op cs) : Tree.operatorOf cs = some op := by
  obtain ⟨hop, hleft, -⟩ := h
  rename_i left right k t
  have hnone : left.findSome? operator? = none := List.findSome?_eq_none_iff.mpr fun c hc => (hleft c hc).operator?
  rw [Tree.operatorOf, List.findSome?_append, hnone, Option.none_or, List.findSome?_cons]
  simp only [operator?, hop]

/-- The operations among a row of children are in order for a node of a kind. -/
structure Orderly (k : Kind) (cs : List Tree) : Prop where
  binary : k = .binaryOp → ∃ op, Operation op cs
  unary : k = .unaryOp → ∀ ds, .node .binaryOp ds ∉ cs

theorem orderly_of_isOperation {k : Kind} {cs : List Tree} (h : k.isOperation = false) : Orderly k cs := by
  constructor
  · rintro rfl
    cases h
  · rintro rfl
    cases h

/-- A tree all of whose operations are in order. -/
inductive Ranked : Tree → Prop where
  | leaf (k : Kind) (t : Text) : Ranked (.leaf k t)
  | node {k : Kind} {cs : List Tree} (orderly : Orderly k cs) (children : ∀ c ∈ cs, Ranked c) : Ranked (.node k cs)

end Tree

/-- Every node within a ranked tree is in order. -/
theorem Tree.Ranked.orderly {root n : Node} (h : root.tree.Ranked) (hn : root.Within n) (hleaf : n.isLeaf = false) :
    Tree.Orderly n.kind n.tree.children := by
  have hranked : n.tree.Ranked := by
    refine hn.inherit (fun t ht c hc => ?_) h
    cases ht with
    | leaf k t => cases hc
    | node _ children => exact children c hc
  obtain ⟨start, tree⟩ := n
  cases hranked with
  | leaf k t => cases hleaf
  | node orderly _ => exact orderly

namespace Node

variable {n a : Node} {op : BinaryOperator}

/-- The children of an operation, placed: those left of the operator, its leaf, and those right of it. -/
theorem exists_operation (h : Tree.Operation op n.tree.children) :
    ∃ left l right, n.elements = left ++ l :: right ∧ l.isLeaf = true ∧ BinaryOperator.ofKind? l.kind = some op ∧ l.isExpr = false ∧
      (∀ c ∈ left, c.tree.Binds op.precedence) ∧ ∀ c ∈ right, c.tree.Binds (op.precedence + 1) := by
  have hmap : n.elements.map (·.tree) = n.tree.children := map_tree_placeAll _ _
  generalize n.tree.children = cs at h hmap
  obtain ⟨hop, hleft, hright⟩ := h
  obtain ⟨as, bs, hsplit, has, hbs⟩ := List.map_eq_append_iff.mp hmap
  obtain ⟨l, right, rfl, hl, rfl⟩ := List.map_eq_cons_iff.mp hbs
  obtain ⟨hleaf, hkind, hexpr⟩ := leaf_facts hl
  refine ⟨as, l, right, hsplit, hleaf, hkind ▸ hop, hexpr, ?_, ?_⟩
  · exact fun c hc => hleft c.tree (has ▸ List.mem_map_of_mem hc)
  · exact fun c hc => hright c.tree (List.mem_map_of_mem hc)

/-- No leaf that binds is an operator. -/
theorem ofKind?_of_binds {m : Nat} (hleaf : a.isLeaf = true) (h : a.tree.Binds m) : BinaryOperator.ofKind? a.kind = none := by
  obtain ⟨start, tree⟩ := a
  cases tree with
  | leaf k t => exact h
  | node k cs => cases hleaf

/-- What the typed view finds in an operation: its operator, a left operand that binds as tightly and a right operand that binds
more tightly. -/
theorem operation_facts (h : Tree.Operation op n.tree.children) :
    (∃ l, n.binaryOperator? = some (op, l)) ∧ (∀ a ∈ n.lhs?, a ∈ n.elements ∧ a.tree.Binds op.precedence) ∧
      ∀ b ∈ n.rhs?, b ∈ n.elements ∧ b.tree.Binds (op.precedence + 1) := by
  obtain ⟨left, l, right, helements, hleaf, hop, hexpr, hleft, hright⟩ := exists_operation h
  have hleftop (c : Node) (hc : c ∈ left) (hcleaf : c.isLeaf = true) : BinaryOperator.ofKind? c.kind = none :=
    ofKind?_of_binds hcleaf (hleft c hc)
  have hoperator : n.binaryOperator? = some (op, l) := by
    have hnone : (left.filter (·.isLeaf)).findSome? (fun c => (BinaryOperator.ofKind? c.kind).map (·, c)) = none := by
      refine List.findSome?_eq_none_iff.mpr fun c hc => ?_
      obtain ⟨hmem, hcleaf⟩ := List.mem_filter.mp hc
      rw [hleftop c hmem hcleaf, Option.map_none]
    rw [binaryOperator?, leaves, helements, List.filter_append, List.findSome?_append, hnone, Option.none_or,
      List.filter_cons_of_pos hleaf, List.findSome?_cons]
    simp only [hop, Option.map_some]
  refine ⟨⟨l, hoperator⟩, fun a ha => ?_, fun b hb => ?_⟩
  · obtain ⟨hhead, hisExpr⟩ := Option.mem_filter_iff.mp ha
    have hmem : a ∈ n.elements := (List.mem_filter.mp (List.mem_of_head? hhead)).1
    refine ⟨hmem, ?_⟩
    rw [helements] at hmem
    rcases List.mem_append.mp hmem with hmem | hmem
    · exact hleft a hmem
    · rcases List.mem_cons.mp hmem with rfl | hmem
      · rw [hexpr] at hisExpr
        cases hisExpr
      · exact (hright a hmem).of_le (Nat.le_succ _)
  · have hdrop : n.elements.dropWhile (fun e => !(e.isLeaf && e.kind = l.kind)) = l :: right := by
      rw [helements, List.dropWhile_append_of_pos, List.dropWhile_cons_of_neg]
      · simp [hleaf]
      · intro c hc
        rw [Bool.not_eq_true', Bool.and_eq_false_iff]
        cases hcleaf : c.isLeaf with
        | false => exact .inl rfl
        | true =>
          refine .inr (decide_eq_false fun hkind => ?_)
          have hnone := hleftop c hc hcleaf
          rw [hkind, hop] at hnone
          cases hnone
    simp only [rhs?, hoperator, exprAfter?, hdrop, List.find?_cons, hexpr] at hb
    have hmem := List.mem_of_find?_eq_some hb
    exact ⟨helements ▸ List.mem_append_right _ (List.mem_cons_of_mem _ hmem), hright b hmem⟩

/-- An operation that binds has an operator of the precedence it binds at, if it is in order. -/
theorem exists_operator_of_binds {m : Nat} (hleaf : a.isLeaf = false) (hkind : a.kind = .binaryOp) (h : a.tree.Binds m)
    (horderly : Tree.Orderly a.kind a.tree.children) : ∃ op l, a.binaryOperator? = some (op, l) ∧ m ≤ op.precedence := by
  obtain ⟨op, hop⟩ := horderly.binary hkind
  obtain ⟨⟨l, hl⟩, -⟩ := operation_facts hop
  refine ⟨op, l, hl, ?_⟩
  obtain ⟨start, tree⟩ := a
  cases tree with
  | leaf k t => cases hleaf
  | node k cs => exact h hkind op hop.operatorOf

end Node

end Remap
