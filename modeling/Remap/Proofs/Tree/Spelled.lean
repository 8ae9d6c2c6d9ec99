import Mathlib.Data.List.Forall2
import Remap.Proofs.Parser.Leaves
import Remap.Proofs.Token.Written
import Remap.Proofs.Tree.Complete
import Remap.Proofs.Tree.Ranked

/-!
# Trees that are read as phrases

Which phrase a node is depends only on its children that are no blanks. There is one lemma for each form of a phrase: a node of
its kind, with the children that the form has, is read as that phrase.
-/

namespace Remap

/-- A tree is a node that is read as a phrase, wherever it stands. -/
structure Tree.Spells (t : Tree) (e : Phrase) : Prop where
  node : ∃ cs, t = .node e.kind cs
  read (start levels : Nat) : t.height ≤ levels → Phrase.ofNode? levels ⟨start, t⟩ = some e

/-- A tree is a node that is read as a segment of a path, wherever it stands. -/
structure Tree.SpellsSegment (t : Tree) (x : Segment) : Prop where
  node : ∃ k cs, t = .node k cs
  read (start : Nat) : (Node.mk start t).segment? = some x

namespace Node

/-- A row of placed trees that begins with a tree. -/
theorem exists_of_map_cons {ns : List Node} {t : Tree} {ts : List Tree} (h : ns.map (·.tree) = t :: ts) :
    ∃ start more, ns = ⟨start, t⟩ :: more ∧ more.map (·.tree) = ts := by
  obtain ⟨⟨start, tree⟩, more, rfl, rfl, hmore⟩ := List.map_eq_cons_iff.mp h
  exact ⟨start, more, rfl, hmore⟩

/-- A row of one placed tree. -/
theorem exists_of_map_singleton {ns : List Node} {t : Tree} (h : ns.map (·.tree) = [t]) : ∃ start, ns = [⟨start, t⟩] := by
  obtain ⟨start, more, rfl, hmore⟩ := exists_of_map_cons h
  exact ⟨start, by rw [List.map_eq_nil_iff.mp hmore]⟩

/-- The expressions among the children, as trees. -/
theorem map_tree_exprs (n : Node) : n.exprs.map (·.tree) = (Tree.solid n.tree.children).filter (·.isExpr) := by
  have hfilter : n.exprs = n.solid.filter (·.isExpr) := by
    rw [exprs, nodes_eq, List.filter_filter]
    congr 1
    funext e
    rw [isExpr]
    cases e.isLeaf <;> simp
  rw [hfilter, ← map_tree_solid, List.filter_map]
  congr 1
  congr 1
  funext e
  exact e.isExpr_eq

/-- The nodes among the children, as trees. -/
theorem map_tree_nodes (n : Node) : n.nodes.map (·.tree) = (Tree.solid n.tree.children).filter (!·.isLeaf) := by
  rw [nodes_eq, ← map_tree_solid, List.filter_map]
  rfl

/-- A leaf of kinds that are no blanks is found among the children without blanks. -/
theorem leaf?_text_eq (n : Node) {p : Kind → Bool} (hp : ∀ k, k.isTrivia = true ∨ k = .newline → p k = false) :
    (n.leaf? p).map (·.text) = ((Tree.solid n.tree.children).find? fun t => t.isLeaf && p t.kind).map Tree.text := by
  rw [leaf?_eq n hp, ← map_tree_solid, List.find?_map, Option.map_map]
  rfl

theorem leafText?_eq (n : Node) {k : Kind} (hk : k.isTrivia = false ∧ k ≠ .newline) :
    n.leafText? k = ((Tree.solid n.tree.children).find? fun t => t.isLeaf && decide (t.kind = k)).map Tree.text :=
  n.leaf?_text_eq fun _ hk' => decide_eq_false (Kind.ne_of_blank hk' hk)

theorem isSome_leaf?_eq (n : Node) {k : Kind} (hk : k.isTrivia = false ∧ k ≠ .newline) :
    (n.leaf? (· = k)).isSome = ((Tree.solid n.tree.children).find? fun t => t.isLeaf && decide (t.kind = k)).isSome := by
  have h := congrArg Option.isSome (n.leafText?_eq hk)
  rwa [leafText?, Option.isSome_map, Option.isSome_map] at h

/-- The integer that a literal or an index writes. -/
theorem integer?_eq (n : Node) {ds : Text} (hds : n.leafText? .integer = some ds) :
    n.integer? = Literal.integer? (n.leaf? (· = .minus)).isSome ds := by
  rw [integer?, hds]

end Node

/-- A row of trees that are nodes has no leaves to leave out. -/
theorem Tree.filter_isLeaf_eq_self {α : Type} {R : Tree → α → Prop} {ts : List Tree} {xs : List α} (h : List.Forall₂ R ts xs)
    (hR : ∀ {t x}, R t x → ∃ k cs, t = .node k cs) : ts.filter (!·.isLeaf) = ts := by
  induction h with
  | nil => rfl
  | cons hx _ ih =>
    obtain ⟨k, cs, rfl⟩ := hR hx
    rw [List.filter_cons_of_pos rfl, ih]

namespace Phrase

open Node
open Tree (filter_isLeaf_eq_self)

theorem isExpr_kind (e : Phrase) : e.kind.isExpr = true := by
  cases e <;> rfl

/-- The nodes among the children that are no blanks are read down to a number of layers. -/
def Within (levels : Nat) (cs : List Tree) : Prop :=
  ∀ t ∈ Tree.solid cs, ∀ e, t.Spells e → ∀ start, ofNode? levels ⟨start, t⟩ = some e

theorem within_of_heightOf {levels : Nat} {cs : List Tree} (h : Tree.heightOf cs ≤ levels) : Within levels cs :=
  fun _ ht _ he start => he.read start levels (Nat.le_trans (Tree.height_le_heightOf (List.mem_filter.mp ht).1) h)

/-- A node is read as a phrase if its layer is one. -/
theorem spells_of_layer (e : Phrase) {cs : List Tree}
    (h : ∀ start levels, Tree.heightOf cs ≤ levels →
      (Node.mk start (.node e.kind cs)).expr?.bind (ofExpr? (ofNode? levels)) = some e) : (Tree.node e.kind cs).Spells e := by
  refine ⟨⟨cs, rfl⟩, fun start levels hlevels => ?_⟩
  rw [Tree.height] at hlevels
  obtain ⟨levels, rfl⟩ : ∃ l, levels = l + 1 := ⟨levels - 1, by omega⟩
  exact h start levels (by omega)

variable {cs : List Tree}

theorem spells_ident {name : Text} (h : Tree.solid cs = [.leaf .id name]) : (Tree.node .ident cs).Spells (.ident name) := by
  refine spells_of_layer (.ident name) fun start levels _ => ?_
  have hname : (Node.mk start (.node .ident cs)).leafText? .id = some name := by
    rw [leafText?_eq _ (by decide)]
    exact congrArg (fun ts => Option.map _ (List.find? _ ts)) h
  show ofExpr? _ (.ident ((Node.mk start (.node .ident cs)).leafText? .id)) = _
  rw [hname]
  rfl

/-- The leaf of a piece. -/
def leafOf (x : Kind × Text) : Tree := .leaf x.1 x.2

/-- The value of an integer that was written, among leaves of other kinds. -/
theorem integer?_of_solid {n : Node} {i : Int} (hi : Fits i) (before after : List Tree)
    (h : Tree.solid n.tree.children = before ++ (integerPieces i).map leafOf ++ after)
    (hbefore : ∀ t ∈ before, t.kind ≠ .integer ∧ t.kind ≠ .minus) (hafter : ∀ t ∈ after, t.kind ≠ .minus) : n.integer? = some i := by
  obtain ⟨hlow, hhigh⟩ := hi
  have hmagnitude : Literal.magnitude? (Nat.toDigits 10 i.natAbs) = some i.natAbs :=
    Lexeme.magnitude?_toDigits (by unfold Literal.maxMagnitude; omega)
  have hfind (k : Kind) (hk : k = .integer ∨ k = .minus) : before.find? (fun t => t.isLeaf && decide (t.kind = k)) = none := by
    refine List.find?_eq_none.mpr fun t ht => ?_
    rcases hk with rfl | rfl
    · simp [(hbefore t ht).1]
    · simp [(hbefore t ht).2]
  have hminus : after.find? (fun t => t.isLeaf && decide (t.kind = .minus)) = none :=
    List.find?_eq_none.mpr fun t ht => by simp [hafter t ht]
  by_cases hneg : i < 0
  · rw [integerPieces, if_pos hneg] at h
    have hds : n.leafText? .integer = some (Nat.toDigits 10 i.natAbs) := by
      rw [leafText?_eq n (by decide), h, List.append_assoc, List.find?_append, hfind _ (.inl rfl)]
      rfl
    have hsign : (n.leaf? (· = .minus)).isSome = true := by
      rw [isSome_leaf?_eq n (by decide), h, List.append_assoc, List.find?_append, hfind _ (.inr rfl)]
      rfl
    rw [n.integer?_eq hds, hsign, Literal.integer?, hmagnitude]
    simp only [if_true, Option.some.injEq]
    omega
  · rw [integerPieces, if_neg hneg] at h
    have hds : n.leafText? .integer = some (Nat.toDigits 10 i.natAbs) := by
      rw [leafText?_eq n (by decide), h, List.append_assoc, List.find?_append, hfind _ (.inl rfl)]
      rfl
    have hsign : (n.leaf? (· = .minus)).isSome = false := by
      rw [isSome_leaf?_eq n (by decide), h, List.find?_append, List.find?_append, hfind _ (.inr rfl), hminus]
      rfl
    have hlt : i.natAbs < Literal.maxMagnitude := by unfold Literal.maxMagnitude; omega
    rw [n.integer?_eq hds, hsign, Literal.integer?, hmagnitude]
    simp only [Bool.false_eq_true, if_false, hlt, if_true, Option.some.injEq]
    omega

theorem spells_integer {i : Int} (hi : Fits i) (h : Tree.solid cs = (integerPieces i).map leafOf) :
    (Tree.node .integerLit cs).Spells (.integer i) := by
  refine spells_of_layer (.integer i) fun start levels _ => ?_
  have hvalue : (Node.mk start (.node .integerLit cs)).integer? = some i :=
    integer?_of_solid hi [] [] (by rw [List.nil_append, List.append_nil]; exact h)
      (fun _ ht => absurd ht List.not_mem_nil) fun _ ht => absurd ht List.not_mem_nil
  show ofExpr? _ (.literal (.integer (Node.mk start (.node .integerLit cs)).integer? _)) = _
  rw [hvalue]
  rfl

theorem spells_boolean {value : Bool} {t : Text} (h : Tree.solid cs = [.leaf (if value then .kwTrue else .kwFalse) t]) :
    (Tree.node .booleanLit cs).Spells (.boolean value) := by
  refine spells_of_layer (.boolean value) fun start levels _ => ?_
  have hvalue : ((Node.mk start (.node .booleanLit cs)).leaf? (· = .kwTrue)).isSome = value := by
    rw [isSome_leaf?_eq _ (by decide)]
    refine (congrArg (fun ts => Option.isSome (List.find? _ ts)) h).trans ?_
    cases value <;> rfl
  show some (Phrase.boolean ((Node.mk start (.node .booleanLit cs)).leaf? (· = .kwTrue)).isSome) = _
  rw [hvalue]

theorem spells_null : (Tree.node .nullLit cs).Spells .null := spells_of_layer .null fun _ _ _ => rfl

/-! ## Paths -/

theorem isFieldName_fieldKind (name : Text) : (fieldKind name).isFieldName = true := by
  have hall : ∀ k ∈ .pathField :: Lexeme.wordKinds, k.isFieldName = true := by decide
  exact hall _ (fieldKind_mem name)

/-- A field, with its dot or without. -/
theorem spellsSegment_field {name : Text} {before : List Tree} (h : Tree.solid cs = before ++ [leafOf (namePiece name)])
    (hbefore : ∀ t ∈ before, ∃ d, t = .leaf .dot d) : (Tree.node .fieldSegment cs).SpellsSegment (.field (some name) false) := by
  refine ⟨⟨_, _, rfl⟩, fun start => ?_⟩
  have hnodes : (Node.mk start (.node .fieldSegment cs)).nodes = [] := by
    refine List.map_eq_nil_iff.mp ((map_tree_nodes _).trans (List.filter_eq_nil_iff.mpr fun t ht => ?_))
    rw [show Tree.solid (Node.mk start (.node .fieldSegment cs)).tree.children = _ from h] at ht
    rcases List.mem_append.mp ht with ht | ht
    · obtain ⟨d, rfl⟩ := hbefore t ht
      simp [Tree.isLeaf]
    · rw [List.mem_singleton.mp ht]
      simp [leafOf, Tree.isLeaf]
  have hstring : (Node.mk start (.node .fieldSegment cs)).node? .stringLit = none := by rw [node?, hnodes]; rfl
  have hname : ((Node.mk start (.node .fieldSegment cs)).leaf? Kind.isFieldName).map Node.text = some name := by
    refine (leaf?_text_eq _ fun k hk => by rcases Kind.blank_cases hk with rfl | rfl | rfl | rfl <;> rfl).trans ?_
    rw [show Tree.solid (Node.mk start (.node .fieldSegment cs)).tree.children = _ from h, List.find?_append,
      List.find?_eq_none.mpr fun t ht => by obtain ⟨d, rfl⟩ := hbefore t ht; exact Bool.false_ne_true]
    simp [leafOf, namePiece, Tree.isLeaf, Tree.kind, isFieldName_fieldKind, Tree.text]
  simp only [segment?, Node.kind, Tree.kind, hstring, hname]

/-- An index in its brackets. -/
theorem spellsSegment_index {i : Int} (hi : Fits i) {o c : Text}
    (h : Tree.solid cs = .leaf .bracketOpen o :: ((integerPieces i).map leafOf ++ [.leaf .bracketClose c])) :
    (Tree.node .indexSegment cs).SpellsSegment (.index (some i)) := by
  refine ⟨⟨_, _, rfl⟩, fun start => ?_⟩
  have hvalue : (Node.mk start (.node .indexSegment cs)).integer? = some i := by
    refine integer?_of_solid hi [.leaf .bracketOpen o] [.leaf .bracketClose c] h (fun t ht => ?_) fun t ht => ?_
    · rw [List.mem_singleton.mp ht]
      exact ⟨Kind.noConfusion, Kind.noConfusion⟩
    · rw [List.mem_singleton.mp ht]
      exact Kind.noConfusion
  simp only [segment?, Node.kind, Tree.kind, hvalue]

/-- What stands after the root of a query: a path, or nothing if it has no segments. -/
inductive SpellsPath : List Tree → List Segment → Prop
  | nil : SpellsPath [] []
  | path {cs : List Tree} {path : List Segment} (h : List.Forall₂ Tree.SpellsSegment (Tree.solid cs) path) :
      SpellsPath [.node .path cs] path

/-- The segments of a path node. -/
theorem segments_eq {path : List Segment} (h : List.Forall₂ Tree.SpellsSegment (Tree.solid cs) path) (start : Nat) :
    (Node.mk start (.node .path cs)).segments = path := by
  have hnodes := map_tree_nodes (Node.mk start (.node .path cs))
  have hall : (Tree.solid cs).filter (!·.isLeaf) = Tree.solid cs := filter_isLeaf_eq_self h fun hx => hx.node
  rw [show Tree.solid (Node.mk start (.node .path cs)).tree.children = Tree.solid cs from rfl, hall] at hnodes
  rw [← hnodes, List.forall₂_map_left_iff] at h
  rw [segments]
  generalize (Node.mk start (.node .path cs)).nodes = ns at h
  clear hnodes hall
  induction h with
  | nil => rfl
  | cons hx _ ih => rw [List.filterMap_cons_some (hx.read _), ih]

/-- A query whose children, blanks apart, begin with what it starts from. -/
theorem path_eq {x : Tree} {rest : List Tree} {path : List Segment} {n : Node} (hn : n.tree = .node .query cs)
    (h : Tree.solid cs = x :: rest) (hx : x.isLeaf = true ∨ x.kind ≠ .path) (hpath : SpellsPath rest path) :
    (n.node? .path).elim [] segments = path := by
  have hsolid : n.solid.map (·.tree) = x :: rest := by rw [map_tree_solid, hn]; exact h
  obtain ⟨start, more, hs, hmore⟩ := exists_of_map_cons hsolid
  have hskip : (n.node? .path) = more.find? fun e => !e.isLeaf && e.kind = .path := by
    rw [node?_eq, hs]
    refine List.find?_cons_of_neg ?_
    rcases hx with hx | hx
    · cases x with
      | leaf k t => simp [Node.isLeaf]
      | node k cs => cases hx
    · simp [Node.kind, hx]
  cases hpath with
  | nil =>
    rw [hskip, List.map_eq_nil_iff.mp hmore]
    rfl
  | path hsegments =>
    obtain ⟨start', rfl⟩ := exists_of_map_singleton hmore
    rw [hskip]
    exact segments_eq hsegments start'

/-- A query that starts from the event or its metadata. -/
theorem queryRoot?_of_leaf {k : Kind} {t : Text} {rest : List Tree} (hk : k = .dot ∨ k = .percent) {n : Node}
    (hn : n.tree = .node .query cs) (h : Tree.solid cs = .leaf k t :: rest) :
    n.queryRoot? = if k = .dot then some .event else some .metadata := by
  have hsolid : n.solid.map (·.tree) = .leaf k t :: rest := by rw [map_tree_solid, hn]; exact h
  obtain ⟨start, more, hs, -⟩ := exists_of_map_cons hsolid
  rw [Shape.queryRoot?_eq hs (by rcases hk with rfl | rfl <;> rfl)]
  rfl

theorem spells_event {d : Text} {rest : List Tree} {path : List Segment} (h : Tree.solid cs = .leaf .dot d :: rest)
    (hpath : SpellsPath rest path) : (Tree.node .query cs).Spells (.event path) := by
  refine spells_of_layer (.event path) fun start levels _ => ?_
  show ofExpr? _ (.query (Node.mk start (.node .query cs)).queryRoot? _
    (((Node.mk start (.node .query cs)).node? .path).elim [] segments)) = _
  rw [queryRoot?_of_leaf (.inl rfl) rfl h, path_eq rfl h (.inl rfl) hpath]
  rfl

theorem spells_metadata {d : Text} {rest : List Tree} {path : List Segment} (h : Tree.solid cs = .leaf .percent d :: rest)
    (hpath : SpellsPath rest path) : (Tree.node .query cs).Spells (.metadata path) := by
  refine spells_of_layer (.metadata path) fun start levels _ => ?_
  show ofExpr? _ (.query (Node.mk start (.node .query cs)).queryRoot? _
    (((Node.mk start (.node .query cs)).node? .path).elim [] segments)) = _
  rw [queryRoot?_of_leaf (.inr rfl) rfl h, path_eq rfl h (.inl rfl) hpath]
  rfl

theorem spells_internal {x : Tree} {rest : List Tree} {root : Phrase} {path : List Segment} (h : Tree.solid cs = x :: rest)
    (hx : x.Spells root) (hpath : SpellsPath rest path) : (Tree.node .query cs).Spells (.internal root path) := by
  refine spells_of_layer (.internal root path) fun start levels hlevels => ?_
  obtain ⟨ds, rfl⟩ := hx.node
  have hsolid : (Node.mk start (.node .query cs)).solid.map (·.tree) = .node root.kind ds :: rest := (map_tree_solid _).trans h
  obtain ⟨start', more, hs, -⟩ := exists_of_map_cons hsolid
  have hexpr : (Node.mk start' (.node root.kind ds)).isExpr = true := root.isExpr_kind
  have hroot : (Node.mk start (.node .query cs)).queryRoot? = some (.value ⟨start', .node root.kind ds⟩) := by
    rw [Shape.queryRoot?_eq hs rfl, if_neg (show ¬ (Node.mk start' (.node root.kind ds)).isLeaf = true from Bool.false_ne_true),
      if_pos hexpr]
  have hne : root.kind ≠ .path := fun hk => by
    have hexpr := root.isExpr_kind
    rw [hk] at hexpr
    cases hexpr
  show ofExpr? _ (.query (Node.mk start (.node .query cs)).queryRoot? _
    (((Node.mk start (.node .query cs)).node? .path).elim [] segments)) = _
  rw [hroot, path_eq rfl h (.inr hne) hpath]
  show Option.map _ (ofNode? levels ⟨start', .node root.kind ds⟩) = _
  rw [within_of_heightOf hlevels _ (h ▸ List.mem_cons_self) root hx start']
  rfl

/-! ## Groups, signs and operations -/

/-- The one expression among the children is read. -/
theorem read_head_exprs {n : Node} {k : Kind} {x : Tree} {e : Phrase} {levels : Nat} (hn : n.tree = .node k cs)
    (hread : Within levels cs) (hx : x.Spells e) (h : (Tree.solid cs).filter (·.isExpr) = [x]) :
    ∃ m, n.exprs.head? = some m ∧ ofNode? levels m = some e := by
  have hexprs := n.map_tree_exprs
  rw [hn, show Tree.solid (Tree.node k cs).children = Tree.solid cs from rfl, h] at hexprs
  obtain ⟨start, hexprs⟩ := exists_of_map_singleton hexprs
  have hmem : x ∈ Tree.solid cs := (List.mem_filter.mp (h ▸ List.mem_singleton_self x)).1
  exact ⟨⟨start, x⟩, by rw [hexprs]; rfl, hread x hmem e hx start⟩

theorem isExpr_leaf (k : Kind) (t : Text) : (Tree.leaf k t).isExpr = false := rfl

theorem isExpr_of_spells {x : Tree} {e : Phrase} (h : x.Spells e) : x.isExpr = true := by
  obtain ⟨cs, rfl⟩ := h.node
  exact e.isExpr_kind

theorem spells_group {o c : Text} {x : Tree} {inner : Phrase} (h : Tree.solid cs = [.leaf .parenOpen o, x, .leaf .parenClose c])
    (hx : x.Spells inner) : (Tree.node .group cs).Spells (.group inner) := by
  refine spells_of_layer (.group inner) fun start levels hlevels => ?_
  have hfilter : (Tree.solid cs).filter (·.isExpr) = [x] := by
    rw [h]
    simp [isExpr_leaf, isExpr_of_spells hx]
  obtain ⟨m, hm, hinner⟩ := read_head_exprs (n := ⟨start, .node .group cs⟩) rfl (within_of_heightOf hlevels) hx hfilter
  show ofExpr? _ (.group (Node.mk start (.node .group cs)).exprs.head?) = _
  rw [hm]
  show Option.map _ (ofNode? levels m) = _
  rw [hinner]
  rfl

theorem spells_negation {b : Text} {x : Tree} {operand : Phrase} (h : Tree.solid cs = [.leaf .bang b, x]) (hx : x.Spells operand) :
    (Tree.node .unaryOp cs).Spells (.negation operand) := by
  refine spells_of_layer (.negation operand) fun start levels hlevels => ?_
  have hfilter : (Tree.solid cs).filter (·.isExpr) = [x] := by
    rw [h]
    simp [isExpr_leaf, isExpr_of_spells hx]
  obtain ⟨m, hm, hoperand⟩ := read_head_exprs (n := ⟨start, .node .unaryOp cs⟩) rfl (within_of_heightOf hlevels) hx hfilter
  show ofExpr? _ (.unary (Node.mk start (.node .unaryOp cs)).exprs.head?) = _
  rw [hm]
  show Option.map _ (ofNode? levels m) = _
  rw [hoperand]
  rfl

theorem operatorPiece_spec (op : BinaryOperator) : BinaryOperator.ofKind? (operatorPiece op).1 = some op ∧
    (operatorPiece op).1.isTrivia = false ∧ (operatorPiece op).1 ≠ .newline := by
  cases op <;> decide

theorem spells_binary {op : BinaryOperator} {x y : Tree} {lhs rhs : Phrase} (h : Tree.solid cs = [x, leafOf (operatorPiece op), y])
    (hx : x.Spells lhs) (hy : y.Spells rhs) : (Tree.node .binaryOp cs).Spells (.binary op lhs rhs) := by
  refine spells_of_layer (.binary op lhs rhs) fun start levels hlevels => ?_
  obtain ⟨hop, hsolid⟩ := operatorPiece_spec op
  have hread := within_of_heightOf hlevels
  have hl := hread x (h ▸ List.mem_cons_self) lhs hx
  have hr := hread y (h ▸ List.mem_cons_of_mem _ (List.mem_cons_of_mem _ List.mem_cons_self)) rhs hy
  obtain ⟨xs, rfl⟩ := hx.node
  obtain ⟨ys, rfl⟩ := hy.node
  have hmap : (Node.mk start (.node .binaryOp cs)).solid.map (·.tree) = _ := (map_tree_solid _).trans h
  obtain ⟨a, _, hs, hmore⟩ := exists_of_map_cons hmap
  obtain ⟨b, _, rfl, hlast⟩ := exists_of_map_cons hmore
  obtain ⟨c, rfl⟩ := exists_of_map_singleton hlast
  have hlexpr : lhs.kind.isExpr = true := lhs.isExpr_kind
  have hrexpr : rhs.kind.isExpr = true := rhs.isExpr_kind
  have hoperator : (Node.mk start (.node .binaryOp cs)).binaryOperator? = some (op, ⟨b, leafOf (operatorPiece op)⟩) := by
    rw [binaryOperator?, findSome?_leaves, hs]
    · simp [Node.isLeaf, leafOf, Node.kind, Tree.kind, hop]
    · intro e he
      rw [BinaryOperator.ofKind?_of_blank (kind_of_isBlank he)]
      rfl
  have hlhs : (Node.mk start (.node .binaryOp cs)).lhs? = some ⟨a, .node lhs.kind xs⟩ := by
    rw [lhs?, nodes_eq, hs]
    simp [Node.isLeaf, leafOf, Node.isExpr, Node.kind, Tree.kind, hlexpr, Option.filter]
  have hrhs : (Node.mk start (.node .binaryOp cs)).rhs? = some ⟨c, .node rhs.kind ys⟩ := by
    simp only [rhs?, hoperator]
    show (Node.mk start (.node .binaryOp cs)).exprAfter? (operatorPiece op).1 = _
    rw [exprAfter?_eq _ hsolid, hs]
    simp [Node.isLeaf, leafOf, Node.isExpr, Node.kind, Tree.kind, hrexpr]
  show ofExpr? _ (.binary ((Node.mk start (.node .binaryOp cs)).binaryOperator?.map _) (Node.mk start (.node .binaryOp cs)).lhs?
    (Node.mk start (.node .binaryOp cs)).rhs?) = _
  rw [hoperator, hlhs, hrhs]
  show (do return Phrase.binary op (← ofNode? levels ⟨a, _⟩) (← ofNode? levels ⟨c, _⟩)) = _
  rw [hl a, hr c]
  rfl

/-! ## Lists -/

/-- The nodes of a row of trees are read as phrases, in order; the others are leaves. -/
def SpellsItems (ts : List Tree) (es : List Phrase) : Prop := List.Forall₂ Tree.Spells (ts.filter (!·.isLeaf)) es

theorem SpellsItems.append {ts us : List Tree} {es fs : List Phrase} (h : SpellsItems ts es) (h' : SpellsItems us fs) :
    SpellsItems (ts ++ us) (es ++ fs) := by
  unfold SpellsItems at h h' ⊢
  rw [List.filter_append]
  exact List.rel_append h h'

theorem SpellsItems.leaf {k : Kind} {x : Text} : SpellsItems [.leaf k x] [] := .nil

theorem SpellsItems.single {t : Tree} {e : Phrase} (h : t.Spells e) : SpellsItems [t] [e] := by
  obtain ⟨cs, rfl⟩ := h.node
  exact .cons h .nil

theorem SpellsItems.exists_spells {ts : List Tree} {es : List Phrase} (h : SpellsItems ts es) {t : Tree} (ht : t ∈ ts)
    (hleaf : t.isLeaf = false) : ∃ e, t.Spells e := by
  have hmem : t ∈ ts.filter (!·.isLeaf) := List.mem_filter.mpr ⟨ht, by rw [hleaf]; rfl⟩
  unfold SpellsItems at h
  generalize ts.filter (!·.isLeaf) = us at h hmem
  induction h with
  | nil => cases hmem
  | cons he _ ih =>
    rcases List.mem_cons.mp hmem with rfl | hmem
    · exact ⟨_, he⟩
    · exact ih hmem

/-- The items of a list are read one by one. -/
theorem mapM_eq_some {levels : Nat} {ns : List Node} {ts : List Tree} {es : List Phrase} (hns : ns.map (·.tree) = ts.filter (!·.isLeaf))
    (hes : SpellsItems ts es) (hread : ∀ t ∈ ts, ∀ e, t.Spells e → ∀ start, ofNode? levels ⟨start, t⟩ = some e) :
    ns.mapM (ofNode? levels) = some es := by
  have hread' : ∀ t ∈ ts.filter (!·.isLeaf), ∀ e, t.Spells e → ∀ start, ofNode? levels ⟨start, t⟩ = some e := fun t ht =>
    hread t (List.mem_filter.mp ht).1
  unfold SpellsItems at hes
  generalize ts.filter (!·.isLeaf) = us at hns hes hread'
  induction hes generalizing ns with
  | nil => rw [List.map_eq_nil_iff.mp hns]; rfl
  | @cons t e us es he _ ih =>
    obtain ⟨start, more, rfl, hmore⟩ := exists_of_map_cons hns
    rw [List.mapM_cons, hread' t List.mem_cons_self e he start, ih hmore fun t ht => hread' t (List.mem_cons_of_mem _ ht)]
    rfl

theorem spells_array {es : List Phrase} (h : SpellsItems (Tree.solid cs) es) : (Tree.node .array cs).Spells (.array es) := by
  refine spells_of_layer (.array es) fun start levels hlevels => ?_
  have hexprs : (Node.mk start (.node .array cs)).exprs.map (·.tree) = (Tree.solid cs).filter (!·.isLeaf) := by
    refine (map_tree_exprs _).trans (List.filter_congr fun t ht => ?_)
    cases hleaf : t.isLeaf with
    | true =>
      cases t with
      | leaf k x => rfl
      | node k ds => cases hleaf
    | false =>
      obtain ⟨e, he⟩ := h.exists_spells ht hleaf
      exact isExpr_of_spells he
  show Option.map _ ((Node.mk start (.node .array cs)).exprs.mapM (ofNode? levels)) = _
  rw [mapM_eq_some hexprs h (within_of_heightOf hlevels)]
  rfl

/-- The arguments of a call are read one by one. -/
theorem arguments_eq {as : List Tree} {start : Nat} {n : Node} (hn : n.node? .argumentList = some ⟨start, .node .argumentList as⟩)
    {es : List Phrase} (h : SpellsItems (Tree.solid as) es) :
    n.arguments = (Node.mk start (.node .argumentList as)).nodes.map .positional := by
  simp only [arguments, hn]
  rw [← List.filterMap_eq_map]
  refine List.filterMap_congr fun a ha => ?_
  have hmem : a.tree ∈ (Node.mk start (.node .argumentList as)).nodes.map (·.tree) := List.mem_map_of_mem ha
  rw [map_tree_nodes] at hmem
  obtain ⟨hsolid, hleaf⟩ := List.mem_filter.mp hmem
  obtain ⟨e, he⟩ := h.exists_spells hsolid (by simpa using hleaf)
  have hexpr : a.isExpr = true := a.isExpr_eq.trans (isExpr_of_spells he)
  have hkind : a.kind ≠ .namedArgument := fun hk => by
    rw [isExpr, hk] at hexpr
    simp [Kind.isExpr] at hexpr
  simp [hkind, hexpr]

theorem spells_call {name : Text} {fallible : Bool} {b : Text} {as : List Tree} {es : List Phrase}
    (h : Tree.solid cs = .leaf .id name :: ((if fallible then [.leaf .bang b] else []) ++ [.node .argumentList as]))
    (has : SpellsItems (Tree.solid as) es) : (Tree.node .functionCall cs).Spells (.call name fallible es) := by
  refine spells_of_layer (.call name fallible es) fun start levels hlevels => ?_
  have hsolid : Tree.solid (Node.mk start (.node .functionCall cs)).tree.children = _ := h
  have hname : (Node.mk start (.node .functionCall cs)).leafText? .id = some name := by
    rw [leafText?_eq _ (by decide), hsolid]
    rfl
  have hfallible : ((Node.mk start (.node .functionCall cs)).leaf? (· = .bang)).isSome = fallible := by
    rw [isSome_leaf?_eq _ (by decide), hsolid]
    cases fallible <;> rfl
  have hnodes : (Node.mk start (.node .functionCall cs)).nodes.map (·.tree) = [.node .argumentList as] := by
    rw [map_tree_nodes, hsolid]
    cases fallible <;> rfl
  obtain ⟨start', hnodes⟩ := exists_of_map_singleton hnodes
  have hlist : (Node.mk start (.node .functionCall cs)).node? .argumentList = some ⟨start', .node .argumentList as⟩ := by
    rw [node?, hnodes]
    rfl
  have hclosure : (Node.mk start (.node .functionCall cs)).closure? = none := by
    rw [closure?, node?, hnodes]
    rfl
  have harguments := arguments_eq hlist has
  have hheight : Tree.heightOf as ≤ levels := by
    have hmem : Tree.node .argumentList as ∈ Tree.solid cs := h ▸ List.mem_cons_of_mem _ (List.mem_append_right _ List.mem_cons_self)
    have hle := Tree.height_le_heightOf (List.mem_filter.mp hmem).1
    rw [Tree.height] at hle
    omega
  have hread := mapM_eq_some (map_tree_nodes (Node.mk start' (.node .argumentList as))) has (within_of_heightOf hheight)
  show ofExpr? _ (.call ((Node.mk start (.node .functionCall cs)).leafText? .id)
    ((Node.mk start (.node .functionCall cs)).leaf? (· = .bang)).isSome (Node.mk start (.node .functionCall cs)).arguments
    (Node.mk start (.node .functionCall cs)).closure?) = _
  rw [hname, hfallible, hclosure, harguments]
  show Option.map _ (List.mapM (ofArgument? (ofNode? levels)) (List.map _ _)) = _
  rw [List.mapM_map]
  show Option.map _ (List.mapM (ofNode? levels) _) = _
  rw [hread]
  rfl

end Phrase

end Remap
