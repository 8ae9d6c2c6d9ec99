import Remap.Expr.Dump
import Remap.Proofs.Tree.Complete

/-!
# Trees without trivia

The bare form of a tree is the tree without its trivia. The typed view sees no trivia, and a dump without spans shows no
offsets, so such a dump is the same for all trees with one bare form.
-/

namespace Remap

namespace Tree

/-- Whether a tree is a leaf of trivia. -/
def isTrivia : Tree → Bool
  | .leaf k _ => k.isTrivia
  | .node _ _ => false

mutual
/-- A tree without its trivia. -/
def bare : Tree → Tree
  | .leaf k t => .leaf k t
  | .node k cs => .node k (bareOf cs)
/-- A row of trees without its trivia. -/
def bareOf : List Tree → List Tree
  | [] => []
  | t :: ts => if t.isTrivia then bareOf ts else bare t :: bareOf ts
end

theorem bareOf_eq (ts : List Tree) : bareOf ts = (ts.filter (!·.isTrivia)).map bare := by
  induction ts with
  | nil => rfl
  | cons t ts ih =>
    rw [bareOf]
    cases ht : t.isTrivia with
    | true => rw [if_pos rfl, ih, List.filter_cons_of_neg (by simp [ht])]
    | false => rw [if_neg Bool.false_ne_true, ih, List.filter_cons_of_pos (by simp [ht]), List.map_cons]

theorem bareOf_append (ts us : List Tree) : bareOf (ts ++ us) = bareOf ts ++ bareOf us := by
  simp only [bareOf_eq, List.filter_append, List.map_append]

theorem bareOf_reverse (ts : List Tree) : bareOf ts.reverse = (bareOf ts).reverse := by
  simp only [bareOf_eq, List.filter_reverse, List.map_reverse]

@[simp] theorem kind_bare (t : Tree) : t.bare.kind = t.kind := by
  cases t <;> rw [bare] <;> rfl

@[simp] theorem isExpr_bare (t : Tree) : t.bare.isExpr = t.isExpr := by
  cases t <;> rw [bare] <;> rfl

@[simp] theorem children_bare (t : Tree) : t.bare.children = bareOf t.children := by
  cases t <;> rw [bare] <;> rfl

mutual
theorem height_bare : (t : Tree) → t.bare.height = t.height
  | .leaf k t => by rw [bare]
  | .node k cs => by rw [bare, height, height, heightOf_bareOf cs]
theorem heightOf_bareOf : (ts : List Tree) → heightOf (bareOf ts) = heightOf ts
  | [] => rfl
  | .leaf k t :: ts => by
    rw [bareOf, heightOf, height, Nat.zero_max]
    split
    · exact heightOf_bareOf ts
    · rw [heightOf, bare, height, Nat.zero_max, heightOf_bareOf ts]
  | .node k cs :: ts => by
    have hnode : (Tree.node k cs).isTrivia = false := rfl
    rw [bareOf, hnode, if_neg Bool.false_ne_true, heightOf, heightOf, height_bare (.node k cs), heightOf_bareOf ts]
end

end Tree

namespace Node

/-- The bare form of a placed tree: neither trivia nor offsets. -/
def core (n : Node) : Tree := n.tree.bare

/-- Whether a tree is a leaf. -/
def leafLike : Tree → Bool
  | .leaf _ _ => true
  | .node _ _ => false

theorem isLeaf_core (n : Node) : n.isLeaf = leafLike n.core := by
  unfold isLeaf core
  cases n.tree <;> rw [Tree.bare] <;> rfl

theorem kind_core (n : Node) : n.kind = n.core.kind := (Tree.kind_bare n.tree).symm

theorem isExpr_core (n : Node) : n.isExpr = n.core.isExpr := by
  rw [isExpr_eq, core, Tree.isExpr_bare]

/-- A leaf is its own bare form. -/
theorem text_core {n : Node} (h : n.isLeaf = true) : n.text = n.core.text := by
  unfold isLeaf at h
  unfold text core
  cases ht : n.tree with
  | leaf k t => rw [Tree.bare]
  | node k cs =>
    rw [ht] at h
    cases h

theorem trivia_facts {e : Node} (h : e.tree.isTrivia = true) : e.isLeaf = true ∧ e.kind.isTrivia = true ∧ e.isExpr = false := by
  cases ht : e.tree with
  | node k cs =>
    rw [ht] at h
    cases h
  | leaf k t =>
    obtain ⟨hleaf, hkind, hexpr⟩ := leaf_facts ht
    rw [ht] at h
    exact ⟨hleaf, hkind ▸ h, hexpr⟩

/-! ## The children -/

/-- The bare forms of a row of placed trees, trivia left out. -/
def cores (es : List Node) : List Tree := (es.filter (!·.tree.isTrivia)).map core

theorem cores_elements (n : Node) : cores n.elements = n.core.children := by
  rw [cores, core, Tree.children_bare, Tree.bareOf_eq]
  conv => rhs; rw [← map_tree_placeAll n.start n.tree.children]
  rw [List.filter_map, List.map_map]
  rfl

theorem cores_cons_trivia {e : Node} (es : List Node) (h : e.tree.isTrivia = true) : cores (e :: es) = cores es := by
  rw [cores, List.filter_cons_of_neg (by simp [h]), cores]

theorem cores_cons {e : Node} (es : List Node) (h : e.tree.isTrivia = false) : cores (e :: es) = e.core :: cores es := by
  rw [cores, List.filter_cons_of_pos (by simp [h]), List.map_cons, cores]

section Tests

variable {p : Node → Bool} {q : Tree → Bool} (hp : ∀ e : Node, p e = q e.core)

include hp

/-- What passes a test that no trivia passes. -/
theorem map_core_filter (htrivia : ∀ e : Node, e.tree.isTrivia = true → p e = false) (es : List Node) :
    (es.filter p).map core = (cores es).filter q := by
  induction es with
  | nil => rfl
  | cons e es ih =>
    cases ht : e.tree.isTrivia with
    | true => rw [cores_cons_trivia es ht, List.filter_cons_of_neg (by simp [htrivia e ht]), ih]
    | false =>
      rw [cores_cons es ht, List.filter_cons, List.filter_cons, hp e]
      split
      · rw [List.map_cons, ih]
      · exact ih

theorem map_core_find? (htrivia : ∀ e : Node, e.tree.isTrivia = true → p e = false) (es : List Node) :
    (es.find? p).map core = (cores es).find? q := by
  rw [← List.head?_filter, ← List.head?_filter, ← map_core_filter hp htrivia, List.head?_map]

/-- What is left after a test that all trivia passes. -/
theorem cores_dropWhile (htrivia : ∀ e : Node, e.tree.isTrivia = true → p e = true) (es : List Node) :
    cores (es.dropWhile p) = (cores es).dropWhile q := by
  induction es with
  | nil => rfl
  | cons e es ih =>
    cases ht : e.tree.isTrivia with
    | true => rw [cores_cons_trivia es ht, List.dropWhile_cons_of_pos (htrivia e ht), ih]
    | false =>
      rw [cores_cons es ht, List.dropWhile_cons, List.dropWhile_cons, hp e]
      split
      · exact ih
      · exact cores_cons es ht

end Tests

theorem map_core_nodes (n : Node) : n.nodes.map core = n.core.children.filter (!leafLike ·) := by
  rw [← cores_elements]
  refine map_core_filter (fun e => by rw [isLeaf_core]) (fun e he => ?_) _
  rw [(trivia_facts he).1]
  rfl

theorem map_core_nodesOf (n : Node) (k : Kind) : (n.nodesOf k).map core = n.core.children.filter fun t => !leafLike t && t.kind = k := by
  rw [nodesOf, nodes, List.filter_filter, ← cores_elements]
  refine map_core_filter (fun e => ?_) (fun e he => ?_) _
  · rw [isLeaf_core, kind_core, Bool.and_comm]
  · rw [(trivia_facts he).1]
    simp

theorem map_core_node? (n : Node) (k : Kind) :
    (n.node? k).map core = (n.core.children.filter fun t => !leafLike t && t.kind = k).head? := by
  rw [node?, ← List.head?_filter, ← List.head?_map, ← map_core_nodesOf]
  rfl

theorem map_core_exprs (n : Node) : n.exprs.map core = n.core.children.filter fun t => !leafLike t && t.isExpr := by
  rw [exprs, nodes, List.filter_filter, ← cores_elements]
  refine map_core_filter (fun e => ?_) (fun e he => ?_) _
  · rw [isLeaf_core, isExpr_core, Bool.and_comm]
  · rw [(trivia_facts he).1]
    simp

/-- The leaves of kinds that are no trivia. -/
theorem map_core_leaves (n : Node) {p : Kind → Bool} (hp : ∀ k, k.isTrivia = true → p k = false) :
    (n.leaves.filter (p ·.kind)).map core = n.core.children.filter fun t => leafLike t && p t.kind := by
  rw [leaves, List.filter_filter, ← cores_elements]
  refine map_core_filter (fun e => ?_) (fun e he => ?_) _
  · rw [isLeaf_core, kind_core, Bool.and_comm]
  · rw [hp e.kind (trivia_facts he).2.1, Bool.false_and]

theorem map_core_leaf? (n : Node) {p : Kind → Bool} (hp : ∀ k, k.isTrivia = true → p k = false) :
    (n.leaf? p).map core = (n.core.children.filter fun t => leafLike t && p t.kind).head? := by
  rw [leaf?, ← List.head?_filter, ← List.head?_map, map_core_leaves n hp]

/-- What comes after a leaf that is no trivia. -/
theorem map_core_exprAfter? (n : Node) {k : Kind} (hk : k.isTrivia = false) :
    (n.exprAfter? k).map core = (n.core.children.dropWhile fun t => !(leafLike t && t.kind = k)).find? (·.isExpr) := by
  rw [exprAfter?, ← cores_elements, ← cores_dropWhile (p := fun e => !(e.isLeaf && e.kind = k)), map_core_find?]
  · exact isExpr_core
  · exact fun e he => (trivia_facts he).2.2
  · intro e
    rw [isLeaf_core, kind_core]
  · intro e he
    have hne : e.kind ≠ k := by
      rintro rfl
      rw [(trivia_facts he).2.1] at hk
      cases hk
    simp [hne]

/-! ## What depends on bare forms only -/

/-- A function of placed trees that sees neither trivia nor offsets. -/
def Respects {β : Type} (f : Node → β) : Prop := ∀ n m : Node, n.core = m.core → f n = f m

namespace Respects

variable {β γ : Type} {f : Node → β} {as bs : List Node} {a b : Option Node}

theorem map (hf : Respects f) (h : as.map core = bs.map core) : as.map f = bs.map f := by
  induction as generalizing bs with
  | nil =>
    cases bs with
    | nil => rfl
    | cons b bs => cases h
  | cons a as ih =>
    cases bs with
    | nil => cases h
    | cons b bs =>
      obtain ⟨hab, hrest⟩ := List.cons.inj h
      rw [List.map_cons, List.map_cons, hf a b hab, ih hrest]

theorem flatMap {f : Node → List β} (hf : Respects f) (h : as.map core = bs.map core) : as.flatMap f = bs.flatMap f := by
  rw [List.flatMap_def, List.flatMap_def, hf.map h]

theorem filterMap {f : Node → Option β} (hf : Respects f) (h : as.map core = bs.map core) : as.filterMap f = bs.filterMap f := by
  have hid (l : List Node) : l.filterMap f = (l.map f).filterMap id := by rw [List.filterMap_map]; rfl
  rw [hid, hid, hf.map h]

theorem option (hf : Respects f) (h : a.map core = b.map core) : a.map f = b.map f := by
  cases a with
  | none =>
    cases b with
    | none => rfl
    | some b => cases h
  | some a =>
    cases b with
    | none => cases h
    | some b => exact congrArg some (hf a b (Option.some.inj h))

theorem elim {c : β} (hf : Respects f) (h : a.map core = b.map core) : a.elim c f = b.elim c f := by
  have hget (o : Option Node) : o.elim c f = (o.map f).elim c id := by cases o <;> rfl
  rw [hget, hget, hf.option h]

end Respects

theorem respects_kind : Respects kind := fun n m h => by rw [kind_core, kind_core, h]

theorem respects_isExpr : Respects isExpr := fun n m h => by rw [isExpr_core, isExpr_core, h]

theorem respects_isLeaf : Respects isLeaf := fun n m h => by rw [isLeaf_core, isLeaf_core, h]

section Accessors

variable {β : Type} {f : Node → β}

theorem respects_flatMap_nodes {f : Node → List β} (hf : Respects f) : Respects fun n => n.nodes.flatMap f :=
  fun n m h => hf.flatMap (by rw [map_core_nodes, map_core_nodes, h])

theorem respects_flatMap_exprs {f : Node → List β} (hf : Respects f) : Respects fun n => n.exprs.flatMap f :=
  fun n m h => hf.flatMap (by rw [map_core_exprs, map_core_exprs, h])

theorem respects_flatMap_nodesOf {f : Node → List β} (k : Kind) (hf : Respects f) : Respects fun n => (n.nodesOf k).flatMap f :=
  fun n m h => hf.flatMap (by rw [map_core_nodesOf, map_core_nodesOf, h])

theorem respects_elim_exprs {c : β} (hf : Respects f) : Respects fun n => n.exprs.head?.elim c f :=
  fun n m h => hf.elim (by rw [← List.head?_map, ← List.head?_map, map_core_exprs, map_core_exprs, h])

theorem respects_elim_node? (k : Kind) {c : β} (hf : Respects f) : Respects fun n => (n.node? k).elim c f :=
  fun n m h => hf.elim (by rw [map_core_node?, map_core_node?, h])

theorem respects_map_node? (k : Kind) (hf : Respects f) : Respects fun n => (n.node? k).map f :=
  fun n m h => hf.option (by rw [map_core_node?, map_core_node?, h])

theorem respects_elim_exprAfter? {k : Kind} (hk : k.isTrivia = false) {c : β} (hf : Respects f) :
    Respects fun n => (n.exprAfter? k).elim c f :=
  fun n m h => hf.elim (by rw [map_core_exprAfter? n hk, map_core_exprAfter? m hk, h])

end Accessors

/-! ## Texts -/

theorem respects_text_leaf? {p : Kind → Bool} (hp : ∀ k, k.isTrivia = true → p k = false) :
    Respects fun n => (n.leaf? p).map (·.text) := by
  have htext (n : Node) : (n.leaf? p).map (·.text) = ((n.leaf? p).map core).map Tree.text := by
    cases hfind : n.leaf? p with
    | none => rfl
    | some e =>
      have hleaf : e.isLeaf = true := (List.mem_filter.mp (List.mem_of_find?_eq_some hfind)).2
      exact congrArg some (text_core hleaf)
  intro n m h
  dsimp only
  rw [htext, htext, map_core_leaf? n hp, map_core_leaf? m hp, h]

theorem respects_isSome_leaf? {p : Kind → Bool} (hp : ∀ k, k.isTrivia = true → p k = false) :
    Respects fun n => (n.leaf? p).isSome := by
  intro n m h
  dsimp only
  rw [← Option.isSome_map (f := core), map_core_leaf? n hp, h, ← map_core_leaf? m hp, Option.isSome_map]

/-- No trivia is of a kind that is none. -/
theorem decide_eq_false_of_trivia {k : Kind} (hk : k.isTrivia = false) (k' : Kind) (h : k'.isTrivia = true) :
    decide (k' = k) = false := by
  refine decide_eq_false ?_
  rintro rfl
  rw [hk] at h
  cases h

theorem respects_leafText? {k : Kind} (hk : k.isTrivia = false) : Respects (leafText? · k) :=
  respects_text_leaf? (decide_eq_false_of_trivia hk)

theorem respects_texts {p : Kind → Bool} (hp : ∀ k, k.isTrivia = true → p k = false) :
    Respects fun n => (n.leaves.filter (p ·.kind)).map (·.text) := by
  have htext (n : Node) : (n.leaves.filter (p ·.kind)).map (·.text) = ((n.leaves.filter (p ·.kind)).map core).map Tree.text := by
    rw [List.map_map]
    refine List.map_congr_left fun e he => ?_
    exact text_core (List.mem_filter.mp (List.mem_filter.mp he).1).2
  intro n m h
  dsimp only
  rw [htext, htext, map_core_leaves n hp, map_core_leaves m hp, h]

theorem respects_literalText : Respects literalText := fun n m h =>
  congrArg List.flatten (respects_texts (p := fun k => !k.isTrivia) (fun k hk => by rw [hk]; rfl) n m h)

theorem respects_integer? : Respects integer? := by
  intro n m h
  have htext : n.leafText? .integer = m.leafText? .integer := respects_leafText? rfl n m h
  have hsign : (n.leaf? (· = .minus)).isSome = (m.leaf? (· = .minus)).isSome :=
    respects_isSome_leaf? (decide_eq_false_of_trivia rfl) n m h
  unfold integer?
  rw [htext, hsign]

/-- What one child adds to the parts of a string. -/
def part (e : Node) (parts : List StringPart) : List StringPart :=
  match e.tree with
  | .leaf .strText t => StringPart.prepend t parts
  | .leaf .escape t => StringPart.prepend (Literal.decodeEscape t) parts
  | .node .template _ => .template ((e.leafText? .id).getD []) :: parts
  | _ => parts

theorem respects_part : Respects part := by
  intro n m h
  have hname : n.leafText? .id = m.leafText? .id := respects_leafText? rfl n m h
  unfold core at h
  unfold part
  cases hn : n.tree with
  | leaf k t =>
    cases hm : m.tree with
    | leaf k' t' =>
      rw [hn, hm, Tree.bare, Tree.bare] at h
      cases h
      rw [hname]
    | node k' cs' =>
      rw [hn, hm, Tree.bare, Tree.bare] at h
      cases h
  | node k cs =>
    cases hm : m.tree with
    | leaf k' t' =>
      rw [hn, hm, Tree.bare, Tree.bare] at h
      cases h
    | node k' cs' =>
      rw [hn, hm, Tree.bare, Tree.bare] at h
      have hk : k = k' := (Tree.node.inj h).1
      subst hk
      rw [hname]
      funext parts
      by_cases htemplate : k = .template
      · subst htemplate
        rfl
      · simp [htemplate]

theorem part_of_trivia {e : Node} (h : e.tree.isTrivia = true) : part e = id := by
  funext parts
  unfold part
  cases ht : e.tree with
  | node k cs =>
    rw [ht] at h
    cases h
  | leaf k t =>
    rw [ht] at h
    have hk : k.isTrivia = true := h
    rcases Kind.blank_cases (.inl hk) with rfl | rfl | rfl | rfl <;> rfl

theorem partsOf_eq (es : List Node) : partsOf es = ((es.filter (!·.tree.isTrivia)).map part).foldr (fun f parts => f parts) [] := by
  induction es with
  | nil => rfl
  | cons e es ih =>
    have hcons : partsOf (e :: es) = part e (partsOf es) := by
      rw [partsOf]
      rfl
    rw [hcons, ih]
    cases ht : e.tree.isTrivia with
    | true =>
      rw [List.filter_cons_of_neg (by simp [ht]), part_of_trivia ht]
      rfl
    | false =>
      rw [List.filter_cons_of_pos (by simp [ht])]
      rfl

theorem respects_stringParts : Respects stringParts := by
  intro n m h
  unfold stringParts
  have hcores : cores n.elements = cores m.elements := by rw [cores_elements, cores_elements, h]
  rw [partsOf_eq, partsOf_eq, respects_part.map hcores]

theorem respects_stringText : Respects stringText := fun n m h => by
  rw [stringText, stringText, respects_stringParts n m h]

theorem respects_isTerminated : Respects isTerminated := by
  have hcount (n : Node) : n.leaves.countP (·.kind = .doubleQuote) =
      ((n.leaves.filter fun e => decide (e.kind = .doubleQuote)).map core).length := by
    rw [List.length_map, List.countP_eq_length_filter]
  intro n m h
  unfold isTerminated
  rw [hcount, hcount, map_core_leaves n (decide_eq_false_of_trivia rfl), map_core_leaves m (decide_eq_false_of_trivia rfl), h]

/-! ## Paths, operators and targets -/

theorem respects_segment? : Respects segment? := by
  intro n m h
  have hstring : (n.node? .stringLit).map stringText = (m.node? .stringLit).map stringText :=
    respects_map_node? .stringLit respects_stringText n m h
  have hname : (n.leaf? Kind.isFieldName).map (·.text) = (m.leaf? Kind.isFieldName).map (·.text) := by
    refine respects_text_leaf? (fun k hk => ?_) n m h
    rcases Kind.blank_cases (.inl hk) with rfl | rfl | rfl | rfl <;> rfl
  unfold segment?
  rw [respects_kind n m h, respects_integer? n m h, hname]
  cases hn : n.node? .stringLit with
  | none =>
    cases hm : m.node? .stringLit with
    | none => rfl
    | some b =>
      rw [hn, hm] at hstring
      cases hstring
  | some a =>
    cases hm : m.node? .stringLit with
    | none =>
      rw [hn, hm] at hstring
      cases hstring
    | some b =>
      rw [hn, hm] at hstring
      have htext : a.stringText = b.stringText := Option.some.inj hstring
      simp only [htext]

theorem respects_segments : Respects segments := fun n m h =>
  respects_segment?.filterMap (by rw [map_core_nodes, map_core_nodes, h])

/-- What the kinds of leaves give, if trivia gives nothing. -/
theorem respects_findSome? {β : Type} {g : Kind → Option β} (hg : ∀ k, k.isTrivia = true → g k = none) :
    Respects fun n => n.leaves.findSome? (g ·.kind) := by
  have hleaves (es : List Node) : es.findSome? (g ·.kind) = ((es.filter (!·.kind.isTrivia)).map core).findSome? (g ·.kind) := by
    induction es with
    | nil => rfl
    | cons e es ih =>
      cases ht : e.kind.isTrivia with
      | true => rw [List.findSome?_cons, hg e.kind ht, ih, List.filter_cons_of_neg (by simp [ht])]
      | false => rw [List.findSome?_cons, ih, List.filter_cons_of_pos (by simp [ht]), List.map_cons, List.findSome?_cons, kind_core e]
  intro n m h
  dsimp only
  rw [hleaves, hleaves, map_core_leaves n (p := fun k => !k.isTrivia) (fun k hk => by rw [hk]; rfl),
    map_core_leaves m (p := fun k => !k.isTrivia) (fun k hk => by rw [hk]; rfl), h]

theorem respects_assignOperator? : Respects assignOperator? := by
  refine respects_findSome? fun k hk => ?_
  rcases Kind.blank_cases (.inl hk) with rfl | rfl | rfl | rfl <;> rfl

/-- The operator of a binary operation and the kind of its token. -/
theorem respects_binaryOperator? : Respects fun n => n.binaryOperator?.map fun o => (o.1, o.2.kind) := by
  have hmap (n : Node) : (n.binaryOperator?.map fun o => (o.1, o.2.kind)) =
      n.leaves.findSome? fun l => (BinaryOperator.ofKind? l.kind).map (·, l.kind) := by
    rw [binaryOperator?, List.map_findSome?]
    congr 1
    funext l
    cases hop : BinaryOperator.ofKind? l.kind <;> simp [hop]
  intro n m h
  dsimp only
  rw [hmap, hmap]
  refine respects_findSome? (g := fun k => (BinaryOperator.ofKind? k).map (·, k)) (fun k hk => ?_) n m h
  rcases Kind.blank_cases (.inl hk) with rfl | rfl | rfl | rfl <;> rfl

theorem respects_lhs? : Respects fun n => n.lhs?.map core := by
  have hlhs (n : Node) : n.lhs?.map core = ((n.nodes.map core).head?).filter (·.isExpr) := by
    rw [lhs?, List.head?_map, Option.filter_map]
    congr 2
    funext e
    exact isExpr_core e
  intro n m h
  dsimp only
  rw [hlhs, hlhs, map_core_nodes, map_core_nodes, h]

theorem respects_rhs? : Respects fun n => n.rhs?.map core := by
  have hrhs (n : Node) : n.rhs?.map core = (n.binaryOperator?.map fun o => (o.1, o.2.kind)).bind fun o => (n.exprAfter? o.2).map core := by
    rw [rhs?]
    cases n.binaryOperator? <;> rfl
  intro n m h
  have hoperator : (n.binaryOperator?.map fun o => (o.1, o.2.kind)) = m.binaryOperator?.map fun o => (o.1, o.2.kind) :=
    respects_binaryOperator? n m h
  dsimp only
  rw [hrhs, hrhs, hoperator]
  cases hop : m.binaryOperator? with
  | none => rfl
  | some o =>
    have hk : o.2.kind.isTrivia = false := by
      obtain ⟨l, -, hl⟩ := List.exists_of_findSome?_eq_some hop
      obtain ⟨op, hof, rfl⟩ := Option.map_eq_some_iff.mp hl
      refine Bool.eq_false_iff.mpr fun ht => ?_
      rcases Kind.blank_cases (.inl ht) with hk | hk | hk | hk <;> rw [hk] at hof <;> cases hof
    change (n.exprAfter? o.2.kind).map core = (m.exprAfter? o.2.kind).map core
    rw [map_core_exprAfter? n hk, map_core_exprAfter? m hk, h]

/-- Two queries with one bare form start from the same root. -/
theorem queryRoot?_cases {n m : Node} (h : n.core = m.core) :
    n.queryRoot? = m.queryRoot? ∧ (∀ e, m.queryRoot? ≠ some (.value e)) ∨
      ∃ a b, n.queryRoot? = some (.value a) ∧ m.queryRoot? = some (.value b) ∧ a.core = b.core := by
  have hfind (n : Node) : (n.elements.find? fun e => !e.isLeaf || e.kind = .dot || e.kind = .percent).map core =
      n.core.children.find? fun t => !leafLike t || t.kind = .dot || t.kind = .percent := by
    rw [← cores_elements]
    refine map_core_find? (fun e => ?_) (fun e he => ?_) _
    · rw [isLeaf_core, kind_core]
    · obtain ⟨hleaf, hkind, -⟩ := trivia_facts he
      rw [hleaf]
      rcases Kind.blank_cases (.inl hkind) with hk | hk | hk | hk <;> simp [hk]
  have hsame : (n.elements.find? fun e => !e.isLeaf || e.kind = .dot || e.kind = .percent).map core =
      (m.elements.find? fun e => !e.isLeaf || e.kind = .dot || e.kind = .percent).map core := by
    rw [hfind, hfind, h]
  unfold queryRoot?
  cases hn : n.elements.find? fun e => !e.isLeaf || e.kind = .dot || e.kind = .percent with
  | none =>
    rw [hn] at hsame
    rw [Option.map_eq_none_iff.mp hsame.symm]
    exact .inl ⟨rfl, fun e he => by cases he⟩
  | some a =>
    rw [hn] at hsame
    obtain ⟨b, hm, hcore⟩ := Option.map_eq_some_iff.mp hsame.symm
    simp only [hm, respects_isLeaf a b hcore.symm, respects_kind a b hcore.symm, respects_isExpr a b hcore.symm]
    by_cases hleaf : b.isLeaf = true
    · refine .inl ⟨by simp [hleaf], fun e he => ?_⟩
      rw [if_pos hleaf] at he
      split at he <;> cases he
    · by_cases hexpr : b.isExpr = true
      · exact .inr ⟨a, b, by simp [hleaf, hexpr], by simp [hleaf, hexpr], hcore.symm⟩
      · refine .inl ⟨by simp [hleaf, hexpr], fun e he => ?_⟩
        simp [hleaf, hexpr] at he

/-- Two assignments with one bare form store into the same targets. -/
theorem assignee?_cases {n m : Node} (h : n.core = m.core) :
    n.assignee? = none ∧ m.assignee? = none ∨
      (∃ a b, n.assignee? = some (.single a) ∧ m.assignee? = some (.single b) ∧ a.core = b.core) ∨
      ∃ a a' b b', n.assignee? = some (.pair a a') ∧ m.assignee? = some (.pair b b') ∧ a.core = b.core ∧ a'.core = b'.core := by
  have hhead : n.nodes.head?.map core = m.nodes.head?.map core := by
    rw [← List.head?_map, ← List.head?_map, map_core_nodes, map_core_nodes, h]
  unfold assignee?
  cases hn : n.nodes.head? with
  | none =>
    rw [hn] at hhead
    rw [Option.map_eq_none_iff.mp hhead.symm]
    exact .inl ⟨rfl, rfl⟩
  | some a =>
    rw [hn] at hhead
    obtain ⟨b, hm, hcore⟩ := Option.map_eq_some_iff.mp hhead.symm
    have htargets : (a.nodes.filter (·.kind.isTarget)).map core = (b.nodes.filter (·.kind.isTarget)).map core := by
      have hfilter (n : Node) : (n.nodes.filter (·.kind.isTarget)).map core = (n.nodes.map core).filter (·.kind.isTarget) := by
        rw [List.filter_map]
        congr 2
        funext e
        simp only [Function.comp, kind_core]
      rw [hfilter, hfilter, map_core_nodes, map_core_nodes, hcore]
    simp only [hm, respects_kind a b hcore.symm]
    split
    · cases hb : b.nodes.filter (·.kind.isTarget) with
      | nil =>
        rw [hb] at htargets
        rw [List.map_eq_nil_iff.mp htargets]
        exact .inl ⟨rfl, rfl⟩
      | cons c cs =>
        rw [hb, List.map_cons] at htargets
        obtain ⟨d, ds, hds, hcd, hrest⟩ := List.map_eq_cons_iff.mp htargets
        rw [hds]
        cases cs with
        | nil =>
          rw [List.map_eq_nil_iff.mp hrest]
          exact .inl ⟨rfl, rfl⟩
        | cons c' cs' =>
          obtain ⟨d', ds', rfl, hcd', -⟩ := List.map_eq_cons_iff.mp hrest
          exact .inr (.inr ⟨d, d', c, c', rfl, rfl, hcd, hcd'⟩)
    · split
      · exact .inr (.inl ⟨a, b, rfl, rfl, hcore.symm⟩)
      · exact .inl ⟨rfl, rfl⟩

end Node

end Remap
