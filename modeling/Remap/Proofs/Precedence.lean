import Remap.Proofs.Parser.Ranks

/-!
# Precedence

Every operation of a parsed tree has operands of the right precedence, whatever else is wrong with the source: on its left side
an operation of at least its own, on its right side one of a higher precedence. So the operations of a chain
`a₀ op₁ a₁ … opₙ aₙ` are determined by the chain alone (`Spine.eq_of_chain_eq`): reading the chain from the left and putting each
operator as far down the right side as it binds gives the tree back.
-/

namespace Remap

/-- The operations of an expression, down to operands. -/
inductive Spine (α : Type) where
  | operand (a : α)
  | operation (op : BinaryOperator) (l r : Spine α)
deriving DecidableEq, Repr, Inhabited

namespace Spine

variable {α : Type}

/-- The leftmost operand. -/
def first : Spine α → α
  | .operand a => a
  | .operation _ l _ => l.first

/-- The operators from left to right, each with the operand after it. -/
def rest : Spine α → List (BinaryOperator × α)
  | .operand _ => []
  | .operation op l r => l.rest ++ (op, r.first) :: r.rest

/-- The chain of operands and operators, in the order in which they are written. -/
def chain (t : Spine α) : α × List (BinaryOperator × α) := (t.first, t.rest)

/-- The operator that binds last. -/
def root? : Spine α → Option BinaryOperator
  | .operand _ => none
  | .operation op _ _ => some op

/-- Every operator has operations of at least its precedence on its left side, and of a higher one on its right side. -/
def Ordered : Spine α → Prop
  | .operand _ => True
  | .operation op l r =>
    l.Ordered ∧ r.Ordered ∧ (∀ o ∈ l.root?, op.precedence ≤ o.precedence) ∧ ∀ o ∈ r.root?, op.precedence < o.precedence

/-- Puts an operator and its right operand at the end, as far down as the operator binds. -/
def attach (t : Spine α) (x : BinaryOperator × α) : Spine α :=
  match t with
  | .operand b => .operation x.1 (.operand b) (.operand x.2)
  | .operation o l r =>
    if x.1.precedence ≤ o.precedence then .operation x.1 (.operation o l r) (.operand x.2) else .operation o l (r.attach x)

/-- The operations of a chain, put in one operator at a time. -/
def ofChain (c : α × List (BinaryOperator × α)) : Spine α := c.2.foldl attach (.operand c.1)

/-- An operator goes on top of operations that bind at least as tightly. -/
theorem attach_of_le {op : BinaryOperator} {a : α} {t : Spine α} (h : ∀ o ∈ t.root?, op.precedence ≤ o.precedence) :
    t.attach (op, a) = .operation op t (.operand a) := by
  cases t with
  | operand b => rfl
  | operation o l r => rw [attach, if_pos (h o rfl)]

/-- All operators of an ordered tree bind more tightly than what its root binds more tightly than. -/
theorem Ordered.lt_of_root {p : Nat} {t : Spine α} (h : t.Ordered) (hroot : ∀ o ∈ t.root?, p < o.precedence) :
    ∀ x ∈ t.rest, p < x.1.precedence := by
  induction t with
  | operand a => exact fun x hx => absurd hx List.not_mem_nil
  | operation op l r ihl ihr =>
    obtain ⟨hl, hr, hleft, hright⟩ := h
    have hop : p < op.precedence := hroot op rfl
    intro x hx
    rcases List.mem_append.mp hx with hx | hx
    · exact ihl hl (fun o ho => Nat.lt_of_lt_of_le hop (hleft o ho)) x hx
    · rcases List.mem_cons.mp hx with rfl | hx
      · exact hop
      · exact ihr hr (fun o ho => Nat.lt_trans hop (hright o ho)) x hx

/-- Operators that bind more tightly than an operation go into its right operand. -/
theorem foldl_attach_operation {op : BinaryOperator} {l : Spine α} {xs : List (BinaryOperator × α)}
    (h : ∀ x ∈ xs, op.precedence < x.1.precedence) (r : Spine α) :
    xs.foldl attach (.operation op l r) = .operation op l (xs.foldl attach r) := by
  induction xs generalizing r with
  | nil => rfl
  | cons x xs ih =>
    have hx : ¬ x.1.precedence ≤ op.precedence := Nat.not_le.mpr (h x List.mem_cons_self)
    rw [List.foldl_cons, List.foldl_cons, attach, if_neg hx]
    exact ih (fun y hy => h y (List.mem_cons_of_mem x hy)) _

/-- An ordered tree is what its chain gives. -/
theorem Ordered.ofChain_chain {t : Spine α} (h : t.Ordered) : ofChain t.chain = t := by
  induction t with
  | operand a => rfl
  | operation op l r ihl ihr =>
    obtain ⟨hl, hr, hleft, hright⟩ := h
    have hleft' : l.rest.foldl attach (.operand l.first) = l := ihl hl
    have hright' : r.rest.foldl attach (.operand r.first) = r := ihr hr
    calc ofChain (chain (.operation op l r))
      _ = (l.rest ++ (op, r.first) :: r.rest).foldl attach (.operand l.first) := rfl
      _ = r.rest.foldl attach (l.attach (op, r.first)) := by rw [List.foldl_append, hleft', List.foldl_cons]
      _ = r.rest.foldl attach (.operation op l (.operand r.first)) := by rw [attach_of_le hleft]
      _ = .operation op l r := by rw [foldl_attach_operation (hr.lt_of_root hright), hright']

/-- Ordered trees over the same chain are the same. -/
theorem eq_of_chain_eq {t u : Spine α} (ht : t.Ordered) (hu : u.Ordered) (h : t.chain = u.chain) : t = u := by
  rw [← ht.ofChain_chain, h, hu.ofChain_chain]

end Spine

namespace Node

/-- The operations of an expression, at most so deep: an operation with an operator and both its operands is taken apart. -/
def spine : Nat → Node → Spine Node
  | 0, n => .operand n
  | depth + 1, n =>
    match n.expr? with
    | some (.binary (some (op, _)) (some a) (some b)) => .operation op (a.spine depth) (b.spine depth)
    | _ => .operand n

/-- What the typed view sees as an operation. -/
theorem expr?_eq_binary {n : Node} {operator : Option (BinaryOperator × Span)} {lhs rhs : Option Node}
    (h : n.expr? = some (.binary operator lhs rhs)) :
    n.isLeaf = false ∧ n.kind = .binaryOp ∧ n.binaryOperator?.map (fun (o, l) => (o, l.span)) = operator ∧ n.lhs? = lhs ∧
      n.rhs? = rhs := by
  unfold expr? at h
  split at h
  · cases h
  · rename_i hleaf
    split at h <;> cases h
    rename_i hkind
    exact ⟨by simpa using hleaf, hkind, rfl, rfl, rfl⟩

/-- What is taken apart is an operation with an operator. -/
theorem root?_spine {depth : Nat} {n : Node} {op : BinaryOperator} (h : (n.spine depth).root? = some op) :
    n.isLeaf = false ∧ n.kind = .binaryOp ∧ ∃ l, n.binaryOperator? = some (op, l) := by
  cases depth with
  | zero => cases h
  | succ depth =>
    unfold spine at h
    split at h
    · rename_i op' span a b hexpr
      cases h
      obtain ⟨hleaf, hkind, hoperator, -, -⟩ := expr?_eq_binary hexpr
      obtain ⟨⟨o, l⟩, hl, hol⟩ := Option.map_eq_some_iff.mp hoperator
      cases hol
      exact ⟨hleaf, hkind, l, hl⟩
    · cases h

/-- The operation at a node is in order, in the words of the typed view. -/
structure InPlace (n : Node) : Prop where
  /-- It has an operator, with operations of at least its precedence on its left side and of a higher one on its right side. -/
  binary : n.isLeaf = false → n.kind = .binaryOp → ∃ op l, n.binaryOperator? = some (op, l) ∧
    (∀ a ∈ n.lhs?, a.kind = .binaryOp → ∃ op' l', a.binaryOperator? = some (op', l') ∧ op.precedence ≤ op'.precedence) ∧
    ∀ b ∈ n.rhs?, b.kind = .binaryOp → ∃ op' l', b.binaryOperator? = some (op', l') ∧ op.precedence < op'.precedence
  /-- The operand of a sign is no operation. -/
  unary : n.isLeaf = false → n.kind = .unaryOp → ∀ a ∈ n.exprs.head?, a.kind ≠ .binaryOp

theorem isLeaf_of_mem_lhs? {n a : Node} (h : a ∈ n.lhs?) : a.isLeaf = false :=
  isLeaf_of_isExpr (Option.mem_filter_iff.mp h).2

theorem isLeaf_of_mem_rhs? {n b : Node} (h : b ∈ n.rhs?) : b.isLeaf = false := by
  unfold rhs? at h
  split at h
  · exact isLeaf_of_isExpr (List.find?_some h)
  · cases h

end Node

/-- The operations within a ranked tree are in order as the typed view sees them. -/
theorem Tree.Ranked.inPlace {root n : Node} (h : root.tree.Ranked) (hn : root.Within n) : n.InPlace := by
  constructor
  · intro hleaf hkind
    obtain ⟨op, hop⟩ := (h.orderly hn hleaf).binary hkind
    obtain ⟨⟨l, hl⟩, hlhs, hrhs⟩ := Node.operation_facts hop
    refine ⟨op, l, hl, fun a ha hakind => ?_, fun b hb hbkind => ?_⟩
    · obtain ⟨hmem, hbinds⟩ := hlhs a ha
      have haleaf := Node.isLeaf_of_mem_lhs? ha
      exact Node.exists_operator_of_binds haleaf hakind hbinds (h.orderly (.child hn hmem) haleaf)
    · obtain ⟨hmem, hbinds⟩ := hrhs b hb
      have hbleaf := Node.isLeaf_of_mem_rhs? hb
      exact Node.exists_operator_of_binds hbleaf hbkind hbinds (h.orderly (.child hn hmem) hbleaf)
  · intro hleaf hkind a ha hakind
    have hmem : a ∈ n.exprs := List.mem_of_head? ha
    obtain ⟨hnodes, hexpr⟩ := List.mem_filter.mp hmem
    have helement : a ∈ n.elements := (List.mem_filter.mp hnodes).1
    have hchild := Node.tree_mem_children helement
    have haleaf := Node.isLeaf_of_isExpr hexpr
    obtain ⟨start, tree⟩ := a
    cases tree with
    | leaf k t => cases haleaf
    | node k cs =>
      have hk : k = .binaryOp := hakind
      subst hk
      exact (h.orderly hn hleaf).unary hkind cs hchild

/-- An operation within a ranked tree that binds is taken apart at an operator that binds as tightly. -/
theorem Tree.Ranked.le_of_root {root n : Node} (h : root.tree.Ranked) (hn : root.Within n) {m depth : Nat} {op : BinaryOperator}
    (hbinds : n.tree.Binds m) (hroot : (n.spine depth).root? = some op) : m ≤ op.precedence := by
  obtain ⟨hleaf, hkind, l, hl⟩ := Node.root?_spine hroot
  obtain ⟨op', l', hl', hle⟩ := Node.exists_operator_of_binds hleaf hkind hbinds (h.orderly hn hleaf)
  rw [hl] at hl'
  cases hl'
  exact hle

/-- The operations of every expression within a ranked tree are ordered. -/
theorem Tree.Ranked.ordered_spine {root n : Node} (h : root.tree.Ranked) (hn : root.Within n) (depth : Nat) :
    (n.spine depth).Ordered := by
  induction depth generalizing n with
  | zero => trivial
  | succ depth ih =>
    unfold Node.spine
    split
    · rename_i op span a b hexpr
      obtain ⟨hleaf, hkind, hoperator, hlhs, hrhs⟩ := Node.expr?_eq_binary hexpr
      obtain ⟨op', hop'⟩ := (h.orderly hn hleaf).binary hkind
      obtain ⟨⟨l, hl⟩, hleft, hright⟩ := Node.operation_facts hop'
      rw [hl] at hoperator
      cases hoperator
      obtain ⟨hamem, habinds⟩ := hleft a hlhs
      obtain ⟨hbmem, hbbinds⟩ := hright b hrhs
      refine ⟨ih (.child hn hamem), ih (.child hn hbmem), fun o ho => ?_, fun o ho => ?_⟩
      · exact h.le_of_root (.child hn hamem) habinds ho
      · exact h.le_of_root (.child hn hbmem) hbbinds ho
    · trivial

/-- Whatever is parsed has a ranked tree. -/
theorem ranked_of_parse {o : Options} {source : Text} {p : Parsed} (h : parse o source = .ok p) : p.tree.Ranked :=
  Parser.holds_of_parse (G := Parser.rankings) (fun n => (Parser.inOrder_runRule n).bounded) h

/-- However a source is parsed, every operation in its tree is in order: on its left side stands no operation of a lower
precedence, on its right side none of the same or a lower one, and a sign is never applied to an operation. So the operations of
an expression are the only ones over their chain of operands and operators that are in order. -/
theorem parse_inPlace (o : Options) (source : Text) (p : Parsed) (h : parse o source = .ok p) (n : Node) (hn : p.root.Within n) :
    n.InPlace ∧ ∀ depth, (n.spine depth).Ordered ∧ ∀ t : Spine Node, t.Ordered → t.chain = (n.spine depth).chain → t = n.spine depth := by
  have hranked := ranked_of_parse h
  refine ⟨hranked.inPlace hn, fun depth => ⟨hranked.ordered_spine hn depth, fun t ht hchain => ?_⟩⟩
  exact Spine.eq_of_chain_eq ht (hranked.ordered_spine hn depth) hchain

/-- The operators of a spine and how they nest, with the text of each operand. -/
def Spine.texts : Spine Node → Spine Text
  | .operand n => .operand n.text
  | .operation op l r => .operation op l.texts r.texts

/-- Subtraction to the left, multiplication first. -/
theorem parse_inPlace_mixed :
    ∃ p n, parse {} ['1', '-', '2', '*', '3', '-', '4'] = .ok p ∧ p.root.Within n ∧ n.InPlace ∧ (n.spine 3).Ordered ∧
      (n.spine 3).texts = .operation .subtract
        (.operation .subtract (.operand ['1']) (.operation .multiply (.operand ['2']) (.operand ['3']))) (.operand ['4']) := by
  have hok : (parse {} ['1', '-', '2', '*', '3', '-', '4']).toOption.any (fun p => p.root.elements.any fun n =>
      (n.spine 3).texts = .operation .subtract (.operation .subtract (.operand ['1'])
        (.operation .multiply (.operand ['2']) (.operand ['3']))) (.operand ['4'])) = true := by decide +kernel
  cases hp : parse {} ['1', '-', '2', '*', '3', '-', '4'] with
  | error f =>
    rw [hp] at hok
    cases hok
  | ok p =>
    rw [hp] at hok
    simp only [Except.toOption, Option.any_some, List.any_eq_true, decide_eq_true_eq] at hok
    obtain ⟨n, hn, htexts⟩ := hok
    have hwithin : p.root.Within n := .child .root hn
    obtain ⟨hinPlace, hspine⟩ := parse_inPlace {} _ p hp n hwithin
    exact ⟨p, n, rfl, hwithin, hinPlace, (hspine 3).1, htexts⟩

end Remap
