import Remap.Expr

/-!
# Complete nodes

The typed view leaves open every part that a recovered tree may lack. A node is complete if no part of it is missing.

Whether a node is complete depends only on its children that are no blanks (`solid`). `Shape k xs` says that any node of
kind `k` with the children `xs`, blanks apart, is complete, and that these children are laid out as the grammar has them.
-/

namespace Remap

/-- Whether no part of one layer of an expression is missing. A path that starts from a computed value has a segment. -/
def Expr.isComplete : Expr → Bool
  | .binary operator lhs rhs => operator.isSome && lhs.isSome && rhs.isSome
  | .unary e | .group e | .returning e => e.isSome
  | .assignment assignee operator value => assignee.isSome && operator.isSome && value.isSome
  | .query none _ _ => false
  | .query (some (.value _)) _ segments => !segments.isEmpty
  | .call name _ _ _ | .ident name => name.isSome
  | .literal (.string _ terminated) => terminated
  | .literal (.rawString t) | .literal (.regex t) | .literal (.timestamp t) => t.isSome
  | _ => true

/-- Whether a segment has its name or its value. -/
def Segment.isComplete : Segment → Bool
  | .field name _ => name.isSome
  | .index value => value.isSome

/-- Whether no part of a node is missing. No error is complete. -/
def Node.isComplete (n : Node) : Bool :=
  n.isLeaf ||
    match n.expr? with
    | some e => e.isComplete
    | none =>
      match n.kind with
      | .error => false
      | .namedArgument => (n.leaf? fun k => k = .id || k.isKeyword).isSome && (n.exprAfter? .colon).isSome
      | .entry => (n.node? .stringLit).isSome && (n.exprAfter? .colon).isSome
      | .closure => (n.node? .block).isSome
      | .fieldSegment | .indexSegment => n.segment?.any Segment.isComplete
      | _ => true

/-! ## Children without blanks -/

/-- A blank is of one of four kinds. -/
theorem Kind.blank_cases {k : Kind} (h : k.isTrivia = true ∨ k = .newline) :
    k = .whitespace ∨ k = .comment ∨ k = .garbage ∨ k = .newline := by
  rcases h with h | h
  · unfold Kind.isTrivia at h
    split at h
    · exact .inl rfl
    · exact .inr (.inl rfl)
    · exact .inr (.inr (.inl rfl))
    · cases h
  · exact .inr (.inr (.inr h))

theorem Kind.ne_of_blank {k k' : Kind} (h : k.isTrivia = true ∨ k = .newline) (hk : k'.isTrivia = false ∧ k' ≠ .newline) :
    k ≠ k' := by
  rintro rfl
  rcases h with h | h
  · rw [hk.1] at h
    cases h
  · exact hk.2 h

namespace Tree

/-- Whether a tree is a leaf of trivia or of a newline. -/
def isBlank : Tree → Bool
  | .leaf k _ => k.isTrivia || k = .newline
  | .node _ _ => false

/-- A row of trees without its blanks. -/
def solid (ts : List Tree) : List Tree := ts.filter (!·.isBlank)

/-- Whether a tree is a node of an expression. -/
def isExpr : Tree → Bool
  | .leaf _ _ => false
  | .node k _ => k.isExpr

/-- The height of a tree of a row is at most that of the row. -/
theorem height_le_heightOf {t : Tree} {ts : List Tree} (h : t ∈ ts) : t.height ≤ heightOf ts := by
  induction ts with
  | nil => cases h
  | cons u ts ih =>
    rw [heightOf]
    rcases List.mem_cons.mp h with rfl | h
    · exact Nat.le_max_left _ _
    · exact Nat.le_trans (ih h) (Nat.le_max_right _ _)

end Tree

namespace Node

/-- A blank is a leaf. -/
theorem isLeaf_of_isBlank {n : Node} (h : n.tree.isBlank = true) : n.isLeaf = true := by
  unfold isLeaf
  cases ht : n.tree with
  | leaf k t => rfl
  | node k cs =>
    rw [ht] at h
    cases h

/-- A blank is no expression. -/
theorem isExpr_of_isBlank {n : Node} (h : n.tree.isBlank = true) : n.isExpr = false := by
  rw [isExpr, isLeaf_of_isBlank h]
  rfl

/-- A blank has the kind of trivia or of a newline. -/
theorem kind_of_isBlank {n : Node} (h : n.tree.isBlank = true) : n.kind.isTrivia = true ∨ n.kind = .newline := by
  unfold kind
  cases ht : n.tree with
  | leaf k t =>
    rw [ht] at h
    simpa [Tree.isBlank, Tree.kind] using h
  | node k cs =>
    rw [ht] at h
    cases h

/-- A row of placed trees without its blanks. -/
def solidOf (es : List Node) : List Node := es.filter (!·.tree.isBlank)

theorem solidOf_cons_blank {e : Node} (es : List Node) (h : e.tree.isBlank = true) : solidOf (e :: es) = solidOf es :=
  List.filter_cons_of_neg (by simp [h])

theorem solidOf_cons_solid {e : Node} (es : List Node) (h : e.tree.isBlank = false) : solidOf (e :: es) = e :: solidOf es :=
  List.filter_cons_of_pos (by simp [h])

/-- What is no blank is found among what is no blank. -/
theorem find?_solidOf (es : List Node) {p : Node → Bool} (h : ∀ e, e.tree.isBlank = true → p e = false) :
    (solidOf es).find? p = es.find? p := by
  induction es with
  | nil => rfl
  | cons e es ih =>
    cases he : e.tree.isBlank with
    | true => rw [solidOf_cons_blank es he, List.find?_cons_of_neg (by simp [h e he]), ih]
    | false => rw [solidOf_cons_solid es he, List.find?_cons, List.find?_cons, ih]

theorem findSome?_solidOf {β : Type} (es : List Node) {f : Node → Option β} (h : ∀ e, e.tree.isBlank = true → f e = none) :
    (solidOf es).findSome? f = es.findSome? f := by
  induction es with
  | nil => rfl
  | cons e es ih =>
    cases he : e.tree.isBlank with
    | true => rw [solidOf_cons_blank es he, List.findSome?_cons, h e he, ih]
    | false => rw [solidOf_cons_solid es he, List.findSome?_cons, List.findSome?_cons, ih]

theorem dropWhile_solidOf (es : List Node) {p : Node → Bool} (h : ∀ e, e.tree.isBlank = true → p e = true) :
    (solidOf es).dropWhile p = solidOf (es.dropWhile p) := by
  induction es with
  | nil => rfl
  | cons e es ih =>
    cases he : e.tree.isBlank with
    | true => rw [solidOf_cons_blank es he, List.dropWhile_cons_of_pos (h e he), ih]
    | false =>
      rw [solidOf_cons_solid es he]
      by_cases hp : p e = true
      · rw [List.dropWhile_cons_of_pos hp, List.dropWhile_cons_of_pos hp, ih]
      · rw [List.dropWhile_cons_of_neg hp, List.dropWhile_cons_of_neg hp, solidOf_cons_solid es he]

/-- The children that are no blanks. -/
def solid (n : Node) : List Node := solidOf n.elements

theorem map_tree_placeAll (offset : Nat) (ts : List Tree) : (placeAll offset ts).map (·.tree) = ts := by
  induction ts generalizing offset with
  | nil => rfl
  | cons t ts ih => rw [placeAll, List.map_cons, ih]

theorem map_tree_solid (n : Node) : n.solid.map (·.tree) = Tree.solid n.tree.children := by
  rw [solid, solidOf, Tree.solid, ← map_tree_placeAll n.start n.tree.children, List.filter_map]
  rfl

theorem nodes_eq (n : Node) : n.nodes = n.solid.filter (!·.isLeaf) := by
  rw [nodes, solid, solidOf, List.filter_filter]
  congr 1
  funext e
  cases he : e.tree.isBlank with
  | true => rw [isLeaf_of_isBlank he]; rfl
  | false => simp

theorem node?_eq (n : Node) (k : Kind) : n.node? k = n.solid.find? fun e => !e.isLeaf && e.kind = k := by
  rw [node?, nodes_eq, List.find?_filter]
  simp

/-- A leaf of a kind that is no blank is found among the children without blanks. -/
theorem leaf?_eq (n : Node) {p : Kind → Bool} (h : ∀ k, k.isTrivia = true ∨ k = .newline → p k = false) :
    n.leaf? p = n.solid.find? fun e => e.isLeaf && p e.kind := by
  rw [leaf?, leaves, List.find?_filter, solid, find?_solidOf]
  · simp
  · intro e he
    rw [h e.kind (kind_of_isBlank he), Bool.and_false]

/-- What comes after a leaf that is no blank is found among the children without blanks. -/
theorem exprAfter?_eq (n : Node) {k : Kind} (hk : k.isTrivia = false ∧ k ≠ .newline) :
    n.exprAfter? k = (n.solid.dropWhile fun e => !(e.isLeaf && e.kind = k)).find? (·.isExpr) := by
  rw [exprAfter?, solid, dropWhile_solidOf, find?_solidOf]
  · exact fun e he => isExpr_of_isBlank he
  · intro e he
    simp [Kind.ne_of_blank (kind_of_isBlank he) hk]

/-- What the kinds of leaves give is given by the children without blanks, if blanks give nothing. -/
theorem findSome?_leaves {β : Type} (n : Node) {f : Node → Option β} (h : ∀ e, e.tree.isBlank = true → f e = none) :
    n.leaves.findSome? f = (n.solid.filter (·.isLeaf)).findSome? f := by
  have hcomm : n.solid.filter (·.isLeaf) = solidOf n.leaves := by
    rw [solid, solidOf, solidOf, leaves, List.filter_filter, List.filter_filter]
    congr 1
    funext e
    rw [Bool.and_comm]
  rw [hcomm, findSome?_solidOf _ h]

/-- The children without blanks, placed. -/
theorem exists_solid (n : Node) {xs : List Tree} (h : Tree.solid n.tree.children = xs) :
    ∃ ns, n.solid = ns ∧ ns.map (·.tree) = xs :=
  ⟨n.solid, rfl, n.map_tree_solid.trans h⟩

end Node

/-! ## Shapes -/

/-- What stands in an `if` statement after its first block: branches with a condition, and perhaps one without. -/
inductive Branches : List Tree → Prop where
  | nil : Branches []
  | elseIf {e i : Text} {p b rest : List Tree} (more : Branches rest) :
      Branches (.leaf .kwElse e :: .leaf .kwIf i :: .node .predicate p :: .node .block b :: rest)
  | otherwise (e : Text) (b : List Tree) : Branches [.leaf .kwElse e, .node .block b]

/-- How the children of a node, blanks apart, are laid out: an `if` statement is a chain of branches, and a condition holds
an expression unless it is a pair of parentheses with nothing in it. -/
def Layout : Kind → List Tree → Prop
  | .ifStatement, xs => ∃ i p b rest, xs = .leaf .kwIf i :: .node .predicate p :: .node .block b :: rest ∧ Branches rest
  | .predicate, xs => (∃ x ∈ xs, x.isExpr = true) ∨ ∃ o c, xs = [.leaf .parenOpen o, .leaf .parenClose c]
  | _, _ => True

/-- Any node of a kind with these children, blanks apart, is complete and laid out as it should be. -/
structure Shape (k : Kind) (xs : List Tree) : Prop where
  complete (offset : Nat) (cs : List Tree) : Tree.solid cs = xs → (Node.mk offset (.node k cs)).isComplete = true
  layout : Layout k xs

namespace Node

variable {n : Node}

theorem isExpr_eq (n : Node) : n.isExpr = n.tree.isExpr := by
  unfold isExpr isLeaf kind
  cases n.tree with
  | leaf k t => rfl
  | node k cs => rfl

theorem isLeaf_of_isExpr (h : n.isExpr = true) : n.isLeaf = false := by
  simp only [isExpr, Bool.and_eq_true, Bool.not_eq_true'] at h
  exact h.1

/-- Being a leaf, its kind and not being an expression. -/
theorem leaf_facts {k : Kind} {t : Text} (h : n.tree = .leaf k t) : n.isLeaf = true ∧ n.kind = k ∧ n.isExpr = false := by
  refine ⟨?_, ?_, ?_⟩
  · simp only [isLeaf, h]
  · simp only [kind, h, Tree.kind]
  · rw [isExpr_eq, h]
    rfl

/-- Being no leaf, and its kind. -/
theorem node_facts {k : Kind} {cs : List Tree} (h : n.tree = .node k cs) : n.isLeaf = false ∧ n.kind = k := by
  constructor
  · simp only [isLeaf, h]
  · simp only [kind, h, Tree.kind]

theorem mem_children_of_mem_solid {x : Tree} (h : x ∈ Tree.solid n.tree.children) : x ∈ n.tree.children :=
  (List.mem_filter.mp h).1

/-- Every child is placed somewhere. -/
theorem exists_element {x : Tree} (h : x ∈ n.tree.children) : ∃ e ∈ n.elements, e.tree = x := by
  rw [← map_tree_placeAll n.start n.tree.children] at h
  exact List.mem_map.mp h

theorem isSome_leaf? {p : Kind → Bool} {k : Kind} {t : Text} (h : .leaf k t ∈ n.tree.children) (hp : p k = true) :
    (n.leaf? p).isSome = true := by
  obtain ⟨e, he, htree⟩ := exists_element h
  obtain ⟨hleaf, hkind, -⟩ := leaf_facts htree
  rw [leaf?, List.find?_isSome]
  exact ⟨e, List.mem_filter.mpr ⟨he, hleaf⟩, by rw [hkind, hp]⟩

theorem isSome_leafText? {k : Kind} {t : Text} (h : .leaf k t ∈ n.tree.children) : (n.leafText? k).isSome = true := by
  rw [leafText?, Option.isSome_map]
  exact isSome_leaf? h (by simp)

theorem isSome_node? {k : Kind} {cs : List Tree} (h : .node k cs ∈ n.tree.children) : (n.node? k).isSome = true := by
  obtain ⟨e, he, htree⟩ := exists_element h
  obtain ⟨hleaf, hkind⟩ := node_facts htree
  rw [node?, List.find?_isSome]
  exact ⟨e, List.mem_filter.mpr ⟨he, by simp [hleaf]⟩, by simp [hkind]⟩

theorem isSome_exprs {x : Tree} (h : x ∈ n.tree.children) (hx : x.isExpr = true) : n.exprs.head?.isSome = true := by
  obtain ⟨e, he, rfl⟩ := exists_element h
  rw [← isExpr_eq] at hx
  have hmem : e ∈ n.exprs := List.mem_filter.mpr ⟨List.mem_filter.mpr ⟨he, by simp [isLeaf_of_isExpr hx]⟩, hx⟩
  exact List.isSome_head?.mpr (List.ne_nil_of_mem hmem)

/-- An expression after a leaf that is no blank is found. -/
theorem isSome_exprAfter? {k : Kind} {t : Text} (before : List Tree) {after : List Tree} {x : Tree} (hk : k.isTrivia = false ∧ k ≠ .newline)
    (h : Tree.solid n.tree.children = before ++ .leaf k t :: after) (hx : x ∈ after) (hexpr : x.isExpr = true) :
    (n.exprAfter? k).isSome = true := by
  rw [exprAfter?_eq n hk, List.find?_isSome]
  rw [← map_tree_solid] at h
  obtain ⟨as, bs, hsolid, -, hbs⟩ := List.map_eq_append_iff.mp h
  obtain ⟨b, cs, rfl, hb, rfl⟩ := List.map_eq_cons_iff.mp hbs
  obtain ⟨c, hc, rfl⟩ := List.mem_map.mp hx
  obtain ⟨hleaf, hkind, -⟩ := leaf_facts hb
  refine ⟨c, ?_, by rw [isExpr_eq, hexpr]⟩
  rw [hsolid]
  clear hsolid h hbs
  induction as with
  | nil =>
    rw [List.nil_append, List.dropWhile_cons_of_neg (by simp [hleaf, hkind])]
    exact List.mem_cons_of_mem _ hc
  | cons a as ih =>
    rw [List.cons_append, List.dropWhile_cons]
    split
    · exact ih
    · exact List.mem_cons_of_mem _ (List.mem_append_right _ (List.mem_cons_of_mem _ hc))

end Node

namespace Shape

open Node

/-- The kinds of nodes that may hold anything. -/
def free : List Kind :=
  [.program, .block, .abortStatement, .infallibleTarget, .noop, .path, .argumentList, .closureParams,
    .template, .integerLit, .floatLit, .booleanLit, .nullLit, .array, .object]

theorem of_free {k : Kind} (hk : k ∈ free) (xs : List Tree) : Shape k xs := by
  simp only [free, List.mem_cons, List.not_mem_nil, or_false] at hk
  rcases hk with rfl | rfl | rfl | rfl | rfl | rfl | rfl | rfl | rfl | rfl | rfl | rfl | rfl | rfl | rfl <;>
    exact ⟨fun _ _ _ => rfl, trivial⟩

/-- An `if` statement with its branches. -/
theorem ifStatement {i : Text} {p b rest : List Tree} (h : Branches rest) :
    Shape .ifStatement (.leaf .kwIf i :: .node .predicate p :: .node .block b :: rest) :=
  ⟨fun _ _ _ => rfl, i, p, b, rest, rfl, h⟩

/-- A condition with an expression, or with nothing between its parentheses. -/
theorem predicate {xs : List Tree}
    (h : (∃ x ∈ xs, x.isExpr = true) ∨ ∃ o c, xs = [.leaf .parenOpen o, .leaf .parenClose c]) : Shape .predicate xs :=
  ⟨fun _ _ _ => rfl, h⟩

/-- What holds an expression as its only part. -/
theorem inner {k : Kind} {xs : List Tree} {x : Tree} (hk : k = .unaryOp ∨ k = .returnStatement ∨ k = .group) (hx : x ∈ xs)
    (hexpr : x.isExpr = true) : Shape k xs := by
  refine ⟨?_, by rcases hk with rfl | rfl | rfl <;> trivial⟩
  rintro offset cs rfl
  have h : (Node.mk offset (.node k cs)).exprs.head?.isSome = true := isSome_exprs (mem_children_of_mem_solid hx) hexpr
  rcases hk with rfl | rfl | rfl
  all_goals simpa [isComplete, expr?, kind, Tree.kind, isLeaf, Expr.isComplete] using h

/-- What has a name. -/
theorem named {k : Kind} {xs : List Tree} {t : Text} (hk : k = .ident ∨ k = .functionCall) (hx : .leaf .id t ∈ xs) :
    Shape k xs := by
  refine ⟨?_, by rcases hk with rfl | rfl <;> trivial⟩
  rintro offset cs rfl
  have h : ((Node.mk offset (.node k cs)).leafText? .id).isSome = true := isSome_leafText? (mem_children_of_mem_solid hx)
  rcases hk with rfl | rfl
  all_goals simpa [isComplete, expr?, kind, Tree.kind, isLeaf, Expr.isComplete] using h

theorem closure {xs cs : List Tree} (hx : .node .block cs ∈ xs) : Shape .closure xs := by
  refine ⟨?_, trivial⟩
  rintro offset cs' rfl
  have h : ((Node.mk offset (.node .closure cs')).node? .block).isSome = true := isSome_node? (mem_children_of_mem_solid hx)
  simpa [isComplete, expr?, kind, Tree.kind, isLeaf] using h

/-- A literal with quotes that is one token. -/
theorem quoted {k token : Kind} {xs : List Tree} {t : Text}
    (hk : k = .rawStringLit ∧ token = .rawString ∨ k = .regexLit ∧ token = .regex ∨ k = .timestampLit ∧ token = .timestamp)
    (hx : .leaf token t ∈ xs) : Shape k xs := by
  refine ⟨?_, by rcases hk with ⟨rfl, -⟩ | ⟨rfl, -⟩ | ⟨rfl, -⟩ <;> trivial⟩
  rintro offset cs rfl
  have h : ((Node.mk offset (.node k cs)).leafText? token).isSome = true := isSome_leafText? (mem_children_of_mem_solid hx)
  rcases hk with ⟨rfl, rfl⟩ | ⟨rfl, rfl⟩ | ⟨rfl, rfl⟩
  all_goals simpa [isComplete, expr?, kind, Tree.kind, isLeaf, Expr.isComplete] using h

/-- The name of a field, plain or quoted. -/
def IsFieldName (x : Tree) : Prop := (∃ k t, x = .leaf k t ∧ k.isFieldName = true) ∨ ∃ cs, x = .node .stringLit cs

theorem fieldSegment {xs : List Tree} {x : Tree} (hx : x ∈ xs) (hname : IsFieldName x) : Shape .fieldSegment xs := by
  refine ⟨?_, trivial⟩
  rintro offset cs rfl
  have hmem := mem_children_of_mem_solid (n := ⟨offset, .node .fieldSegment cs⟩) hx
  rcases hname with ⟨k, t, rfl, hk⟩ | ⟨cs', rfl⟩
  · have h := isSome_leaf? (p := Kind.isFieldName) hmem hk
    simp only [isComplete, expr?, kind, Tree.kind, isLeaf, segment?]
    cases (Node.mk offset (.node .fieldSegment cs)).node? .stringLit with
    | some s => rfl
    | none => simpa [Segment.isComplete] using h
  · obtain ⟨s, hs⟩ := Option.isSome_iff_exists.mp (isSome_node? hmem)
    simp [isComplete, expr?, kind, Tree.kind, isLeaf, segment?, hs, Segment.isComplete]

theorem binaryOp {l r : Tree} {k : Kind} {text : Text} {op : BinaryOperator} (hl : l.isExpr = true)
    (hop : BinaryOperator.ofKind? k = some op) (hr : r.isExpr = true) : Shape .binaryOp [l, .leaf k text, r] := by
  refine ⟨fun offset cs h => ?_, trivial⟩
  obtain ⟨ns, hn, hmap⟩ := (Node.mk offset (.node .binaryOp cs)).exists_solid h
  simp only [List.map_eq_cons_iff, List.map_eq_nil_iff] at hmap
  obtain ⟨a, _, rfl, rfl, b, _, rfl, hb, c, _, rfl, rfl, rfl⟩ := hmap
  rw [← isExpr_eq] at hl hr
  obtain ⟨hleaf, hkind, hexpr⟩ := leaf_facts hb
  have hsolid : k.isTrivia = false ∧ k ≠ .newline := by
    constructor
    · exact Bool.eq_false_iff.mpr fun ht => by
        rcases Kind.blank_cases (.inl ht) with rfl | rfl | rfl | rfl <;> cases hop
    · rintro rfl
      cases hop
  have hblank : ∀ e : Node, e.tree.isBlank = true → (BinaryOperator.ofKind? e.kind).map (·, e) = none := by
    intro e he
    rcases Kind.blank_cases (kind_of_isBlank he) with hk | hk | hk | hk <;> rw [hk] <;> rfl
  have hoperator : (Node.mk offset (.node .binaryOp cs)).binaryOperator? = some (op, b) := by
    rw [binaryOperator?, findSome?_leaves _ hblank, hn]
    simp [isLeaf_of_isExpr hl, hleaf, hkind, hop]
  have hlhs : (Node.mk offset (.node .binaryOp cs)).lhs? = some a := by
    rw [lhs?, nodes_eq, hn]
    simp [isLeaf_of_isExpr hl, hl]
  have hrhs : (Node.mk offset (.node .binaryOp cs)).rhs? = some c := by
    simp only [rhs?, hoperator]
    rw [hkind, exprAfter?_eq _ hsolid, hn]
    simp [isLeaf_of_isExpr hl, hleaf, hkind, hexpr, hr]
  simp [isComplete, expr?, kind, Tree.kind, isLeaf, Expr.isComplete, hoperator, hlhs, hrhs]

theorem namedArgument {k : Kind} {name colon : Text} {e : Tree} (hk : k = .id ∨ k.isKeyword = true) (he : e.isExpr = true) :
    Shape .namedArgument [.leaf k name, .leaf .colon colon, e] := by
  refine ⟨fun offset cs h => ?_, trivial⟩
  have hmem : .leaf k name ∈ Tree.solid cs := h ▸ List.mem_cons_self
  have hname : ((Node.mk offset (.node .namedArgument cs)).leaf? fun k => k = .id || k.isKeyword).isSome = true :=
    isSome_leaf? (mem_children_of_mem_solid hmem) (by simpa using hk)
  have hvalue : ((Node.mk offset (.node .namedArgument cs)).exprAfter? .colon).isSome = true :=
    isSome_exprAfter? [_] (by decide) h List.mem_cons_self he
  simp [isComplete, expr?, kind, Tree.kind, isLeaf, hname, hvalue]

theorem entry {key : List Tree} {colon : Text} {e : Tree} (he : e.isExpr = true) :
    Shape .entry [.node .stringLit key, .leaf .colon colon, e] := by
  refine ⟨fun offset cs h => ?_, trivial⟩
  have hmem : .node .stringLit key ∈ Tree.solid cs := h ▸ List.mem_cons_self
  have hkey : ((Node.mk offset (.node .entry cs)).node? .stringLit).isSome = true :=
    isSome_node? (mem_children_of_mem_solid hmem)
  have hvalue : ((Node.mk offset (.node .entry cs)).exprAfter? .colon).isSome = true :=
    isSome_exprAfter? [_] (by decide) h List.mem_cons_self he
  simp [isComplete, expr?, kind, Tree.kind, isLeaf, hkey, hvalue]

/-- A target of an assignment: one place to store into, or a pair of them. -/
def IsAssignee (x : Tree) : Prop :=
  (∃ k cs, x = .node k cs ∧ k.isTarget = true) ∨
    ∃ cs k k' as as' comma, x = .node .infallibleTarget cs ∧ Tree.solid cs = [.node k as, .leaf .comma comma, .node k' as'] ∧
      k.isTarget = true ∧ k'.isTarget = true

/-- The assignee is found in a node whose first child is one. -/
theorem isSome_assignee? {n a : Node} (hn : n.nodes.head? = some a) (h : IsAssignee a.tree) : n.assignee?.isSome = true := by
  simp only [assignee?, hn]
  rcases h with ⟨k, cs, htree, hk⟩ | ⟨cs, k, k', as, as', comma, htree, hsolid, hk, hk'⟩
  · obtain ⟨-, hkind⟩ := node_facts htree
    have hne : k ≠ .infallibleTarget := by
      rintro rfl
      cases hk
    simp [hkind, hne, hk]
  · obtain ⟨-, hkind⟩ := node_facts htree
    have hchildren : Tree.solid a.tree.children = [.node k as, .leaf .comma comma, .node k' as'] := by
      rw [htree]
      exact hsolid
    obtain ⟨ns, hns, hmap⟩ := a.exists_solid hchildren
    simp only [List.map_eq_cons_iff, List.map_eq_nil_iff] at hmap
    obtain ⟨p, _, rfl, hp, q, _, rfl, hq, r, _, rfl, hr, rfl⟩ := hmap
    obtain ⟨hpleaf, hpkind⟩ := node_facts hp
    obtain ⟨hqleaf, -, -⟩ := leaf_facts hq
    obtain ⟨hrleaf, hrkind⟩ := node_facts hr
    have hnodes : a.nodes.filter (·.kind.isTarget) = [p, r] := by
      rw [nodes_eq, hns]
      simp [hpleaf, hqleaf, hrleaf, hpkind, hrkind, hk, hk']
    simp [hkind, hnodes]

theorem assignment {x v : Tree} {k : Kind} {text : Text} {op : AssignOperator} (hx : IsAssignee x)
    (hop : AssignOperator.ofKind? k = some op) (hv : v.isExpr = true) : Shape .assignment [x, .leaf k text, v] := by
  refine ⟨fun offset cs h => ?_, trivial⟩
  have hkind : op.kind = k ∧ k.isTrivia = false ∧ k ≠ .newline := by
    unfold AssignOperator.ofKind? at hop
    split at hop
    · cases hop
      exact ⟨rfl, rfl, by decide⟩
    · cases hop
      exact ⟨rfl, rfl, by decide⟩
    · cases hop
  have hvalue : ((Node.mk offset (.node .assignment cs)).exprAfter? k).isSome = true :=
    isSome_exprAfter? [x] hkind.2 h List.mem_cons_self hv
  obtain ⟨ns, hn, hmap⟩ := (Node.mk offset (.node .assignment cs)).exists_solid h
  simp only [List.map_eq_cons_iff, List.map_eq_nil_iff] at hmap
  obtain ⟨a, _, rfl, rfl, b, _, rfl, hb, c, _, rfl, rfl, rfl⟩ := hmap
  obtain ⟨hleaf, hbkind, -⟩ := leaf_facts hb
  have hnode : a.isLeaf = false := by
    rcases hx with ⟨k, cs, htree, -⟩ | ⟨cs, k, k', as, as', comma, htree, -⟩
    · exact (node_facts htree).1
    · exact (node_facts htree).1
  have hblank : ∀ e : Node, e.tree.isBlank = true → AssignOperator.ofKind? e.kind = none := by
    intro e he
    rcases Kind.blank_cases (kind_of_isBlank he) with hk | hk | hk | hk <;> rw [hk] <;> rfl
  have hoperator : (Node.mk offset (.node .assignment cs)).assignOperator? = some op := by
    rw [assignOperator?, findSome?_leaves _ hblank, hn]
    simp [hnode, hleaf, hbkind, hop]
  have hassignee : (Node.mk offset (.node .assignment cs)).assignee?.isSome = true := by
    refine isSome_assignee? (a := a) ?_ hx
    rw [nodes_eq, hn]
    simp [hnode]
  simp [isComplete, expr?, kind, Tree.kind, isLeaf, Expr.isComplete, hoperator, hassignee, hkind.1, hvalue]

/-- What a query starts from is the first child that is no blank. -/
theorem queryRoot?_eq {n a : Node} {as : List Node} (hn : n.solid = a :: as)
    (ha : (!a.isLeaf || a.kind = .dot || a.kind = .percent) = true) :
    n.queryRoot? =
      if a.isLeaf then (if a.kind = .dot then some .event else some .metadata) else if a.isExpr then some (.value a) else none := by
  have hfind : (n.elements.find? fun e => !e.isLeaf || e.kind = .dot || e.kind = .percent) = some a := by
    rw [← find?_solidOf, ← solid, hn]
    · exact List.find?_cons_of_pos (p := fun e : Node => !e.isLeaf || e.kind = .dot || e.kind = .percent) ha
    intro e he
    rcases Kind.blank_cases (kind_of_isBlank he) with hk | hk | hk | hk <;> simp [isLeaf_of_isBlank he, hk]
  simp only [queryRoot?, hfind]

/-- A query that starts from the event or its metadata. -/
theorem externalQuery {k : Kind} {t : Text} {xs : List Tree} (hk : k = .dot ∨ k = .percent) :
    Shape .query (.leaf k t :: xs) := by
  refine ⟨fun offset cs h => ?_, trivial⟩
  obtain ⟨ns, hn, hmap⟩ := (Node.mk offset (.node .query cs)).exists_solid h
  obtain ⟨a, as, rfl, ha, -⟩ := List.map_eq_cons_iff.mp hmap
  obtain ⟨hleaf, hkind, -⟩ := leaf_facts ha
  have hroot := queryRoot?_eq hn (by rcases hk with rfl | rfl <;> simp [hkind])
  rw [if_pos hleaf] at hroot
  change (Expr.query (queryRoot? _) _ _).isComplete = true
  rw [hroot]
  split <;> rfl

/-- A query that starts from a computed value and goes on with a path. -/
theorem internalQuery {e : Tree} {ss : List Tree} {k : Kind} {seg : List Tree} (he : e.isExpr = true) (hs : .node k seg ∈ ss)
    (hk : k = .fieldSegment ∨ k = .indexSegment) : Shape .query [e, .node .path ss] := by
  refine ⟨fun offset cs h => ?_, trivial⟩
  obtain ⟨ns, hn, hmap⟩ := (Node.mk offset (.node .query cs)).exists_solid h
  simp only [List.map_eq_cons_iff, List.map_eq_nil_iff] at hmap
  obtain ⟨a, _, rfl, rfl, b, _, rfl, hb, rfl⟩ := hmap
  rw [← isExpr_eq] at he
  have hleaf := isLeaf_of_isExpr he
  obtain ⟨hbleaf, hbkind⟩ := node_facts hb
  have hroot := queryRoot?_eq hn (by simp [hleaf])
  have hnot : a.kind ≠ .path := by
    intro hpath
    simp [isExpr, hpath, Kind.isExpr] at he
  have hpath : (Node.mk offset (.node .query cs)).node? .path = some b := by
    rw [node?_eq, hn]
    simp [hleaf, hnot, hbleaf, hbkind]
  have hsegments : b.segments ≠ [] := by
    obtain ⟨c, hc, hctree⟩ := exists_element (n := b) (x := .node k seg) (by rw [hb]; exact hs)
    obtain ⟨hcleaf, hckind⟩ := node_facts hctree
    have hsome : (segment? c).isSome = true := by
      unfold segment?
      rw [hckind]
      rcases hk with rfl | rfl
      · dsimp only
        split <;> rfl
      · rfl
    obtain ⟨v, hv⟩ := Option.isSome_iff_exists.mp hsome
    have hmem : v ∈ b.segments := List.mem_filterMap.mpr ⟨c, List.mem_filter.mpr ⟨hc, by simp [hcleaf]⟩, hv⟩
    exact List.ne_nil_of_mem hmem
  rw [if_neg (by simp [hleaf]), if_pos he] at hroot
  change (Expr.query (queryRoot? _) (node? _ .path) ((node? _ .path).elim [] segments)).isComplete = true
  rw [hroot, hpath]
  simpa [Expr.isComplete] using hsegments

/-- An index with its value: an integer, perhaps with a sign before it. -/
theorem indexSegment {open_ t : Text} {sign rest : List Tree} {signed : Bool}
    (hsign : sign = [] ∧ signed = false ∨ (∃ m, sign = [.leaf .minus m]) ∧ signed = true)
    (hrest : rest = [] ∨ ∃ c, rest = [.leaf .bracketClose c]) (hvalue : (Literal.integer? signed t).isSome = true) :
    Shape .indexSegment (.leaf .bracketOpen open_ :: (sign ++ .leaf .integer t :: rest)) := by
  refine ⟨fun offset cs h => ?_, trivial⟩
  have hinteger : (Node.mk offset (.node .indexSegment cs)).integer? = Literal.integer? signed t := by
    obtain ⟨ns, hn, hmap⟩ := (Node.mk offset (.node .indexSegment cs)).exists_solid h
    obtain ⟨a, _, rfl, ha, hmap⟩ := List.map_eq_cons_iff.mp hmap
    obtain ⟨as, _, rfl, has, hmap⟩ := List.map_eq_append_iff.mp hmap
    obtain ⟨b, bs, rfl, hb, hbs⟩ := List.map_eq_cons_iff.mp hmap
    obtain ⟨haleaf, hakind, -⟩ := leaf_facts ha
    obtain ⟨hbleaf, hbkind, -⟩ := leaf_facts hb
    have hbs' : ∀ e ∈ bs, e.kind = .bracketClose := by
      intro e he
      have hmem : e.tree ∈ rest := hbs ▸ List.mem_map_of_mem he
      rcases hrest with rfl | ⟨c, rfl⟩
      · cases hmem
      · exact (leaf_facts (List.mem_singleton.mp hmem)).2.1
    have hnone : (bs.find? fun e => e.isLeaf && decide (e.kind = .minus)) = none :=
      List.find?_eq_none.mpr fun e he => by simp [hbs' e he]
    have htext : b.text = t := by rw [Node.text, hb, Tree.text]
    rw [integer?, leafText?, leaf?_eq _ fun k hk => decide_eq_false (Kind.ne_of_blank hk (by decide)),
      leaf?_eq _ fun k hk => decide_eq_false (Kind.ne_of_blank hk (by decide)), hn]
    rcases hsign with ⟨rfl, rfl⟩ | ⟨⟨m, rfl⟩, rfl⟩
    · rw [List.map_eq_nil_iff.mp has]
      simp [hakind, hbleaf, hbkind, htext, hnone]
    · obtain ⟨c, _, rfl, hc, hnil⟩ := List.map_eq_cons_iff.mp has
      obtain ⟨hcleaf, hckind, -⟩ := leaf_facts hc
      rw [List.map_eq_nil_iff.mp hnil]
      simp [hakind, hbleaf, hbkind, htext, hcleaf, hckind]
  simp [isComplete, expr?, kind, Tree.kind, isLeaf, segment?, Segment.isComplete, hinteger, hvalue]

/-- Whether a tree is a double quote. -/
def isQuote : Tree → Bool
  | .leaf k _ => k = .doubleQuote
  | .node _ _ => false

/-- A string with its two quotes. -/
theorem stringLit {xs : List Tree} {q e : Text} (hx : ∀ x ∈ xs, isQuote x = false) :
    Shape .stringLit (.leaf .doubleQuote q :: (xs ++ [.leaf .doubleQuote e])) := by
  refine ⟨fun offset cs h => ?_, trivial⟩
  have hleaves : (Node.mk offset (.node .stringLit cs)).leaves.countP (·.kind = .doubleQuote) = cs.countP isQuote := by
    have hmap := List.countP_map (p := isQuote) (f := fun e : Node => e.tree) (l := placeAll offset cs)
    rw [map_tree_placeAll] at hmap
    rw [hmap, leaves, List.countP_filter]
    refine List.countP_congr fun e _ => ?_
    obtain ⟨start, tree⟩ := e
    cases tree with
    | leaf k t =>
      simp only [isLeaf, kind, Tree.kind, isQuote, Function.comp, Bool.and_true]
      exact Iff.rfl
    | node k cs => simp only [isLeaf, isQuote, Function.comp, Bool.and_false]
  have hblank : ∀ x : Tree, isQuote x = true → x.isBlank = false := by
    intro x hq
    cases x with
    | leaf k t =>
      simp only [isQuote, decide_eq_true_eq] at hq
      rw [hq]
      rfl
    | node k cs => rfl
  have hcount : cs.countP isQuote = (Tree.solid cs).countP isQuote := by
    rw [Tree.solid, List.countP_filter]
    congr 1
    funext x
    cases hq : isQuote x with
    | true => simp [hblank x hq]
    | false => rfl
  have hxs : xs.countP isQuote = 0 := List.countP_eq_zero.mpr fun x hmem => by simp [hx x hmem]
  have htwo : (Tree.solid cs).countP isQuote = 2 := by
    rw [h]
    simp [hxs, isQuote]
  change isTerminated _ = true
  rw [isTerminated, hleaves, hcount, htwo]
  rfl

end Shape

/-! ## Sound trees -/

/-- A tree whose nodes are all complete, wherever it stands, and laid out as they should be. -/
inductive Tree.Sound : Tree → Prop where
  | leaf (k : Kind) (t : Text) : Sound (.leaf k t)
  | node {k : Kind} {cs : List Tree} (shape : Shape k (Tree.solid cs)) (children : ∀ c ∈ cs, Sound c) : Sound (.node k cs)

/-- A node of the right shape over sound trees is sound. -/
theorem Tree.sound_of_shape {k : Kind} {cs : List Tree} (hshape : Shape k (Tree.solid cs)) (h : ∀ c ∈ Tree.solid cs, c.Sound) :
    (Tree.node k cs).Sound := by
  refine .node hshape fun c hc => ?_
  cases hblank : c.isBlank with
  | false => exact h c (List.mem_filter.mpr ⟨hc, by simp [hblank]⟩)
  | true =>
    cases c with
    | leaf k t => exact .leaf k t
    | node k cs => cases hblank

/-- A placed tree is somewhere within another. -/
inductive Node.Within (root : Node) : Node → Prop where
  | root : Within root root
  | child {n c : Node} (inside : Within root n) (mem : c ∈ n.elements) : Within root c

theorem Node.tree_mem_children {n c : Node} (h : c ∈ n.elements) : c.tree ∈ n.tree.children := by
  rw [← Node.map_tree_placeAll n.start n.tree.children]
  exact List.mem_map_of_mem h

/-- What a tree hands down to its children holds of every tree within it. -/
theorem Node.Within.inherit {root n : Node} {P : Tree → Prop} (hn : root.Within n) (hP : ∀ t, P t → ∀ c ∈ t.children, P c)
    (h : P root.tree) : P n.tree := by
  induction hn with
  | root => exact h
  | @child n c _ hmem ih => exact hP n.tree ih c.tree (Node.tree_mem_children hmem)

/-- Every tree within a sound one is sound. -/
theorem Tree.Sound.within {root n : Node} (h : root.tree.Sound) (hn : root.Within n) : n.tree.Sound := by
  refine hn.inherit (fun t ht c hc => ?_) h
  cases ht with
  | leaf k t => cases hc
  | node _ children => exact children c hc

/-- Every node within a sound tree is complete. -/
theorem Tree.Sound.isComplete {root n : Node} (h : root.tree.Sound) (hn : root.Within n) : n.isComplete = true := by
  have hsound := h.within hn
  obtain ⟨start, tree⟩ := n
  cases hsound with
  | leaf k t => rfl
  | node shape _ => exact shape.complete start _ rfl

/-- Every node within a sound tree is laid out as it should be. -/
theorem Tree.Sound.layout {root n : Node} (h : root.tree.Sound) (hn : root.Within n) (hleaf : n.isLeaf = false) :
    Layout n.kind (n.solid.map (·.tree)) := by
  have hsound := h.within hn
  rw [Node.map_tree_solid]
  obtain ⟨start, tree⟩ := n
  cases hsound with
  | leaf k t => cases hleaf
  | node shape _ => exact shape.layout

end Remap
