import Remap.Proofs.Completeness

/-!
# Chains of conditions

The typed view of an `if` pairs its conditions and blocks by position. In a source that parses without diagnostics the children
alternate, so the pairs found by position are the branches that were written. Every condition of such a source holds an
expression, with one exception: a pair of parentheses with nothing in it passes for a condition.
-/

namespace Remap

namespace Node

/-- Whether some `else` among placed trees is followed by a block right away. -/
def plainElse : List Node → Bool
  | e :: b :: rest => (e.isLeaf && e.kind = .kwElse && b.kind = .block) || plainElse (b :: rest)
  | _ => false

/-- The children of an `if` statement: a condition and a block, more such pairs, and perhaps one more block. -/
structure Alternates (nodes : List Node) (first : Node × Node) (more : List (Node × Node)) (last : Option Node) : Prop where
  nodes : nodes = (first :: more).flatMap (fun b => [b.1, b.2]) ++ last.toList
  branches : ∀ b ∈ first :: more, b.1.kind = .predicate ∧ b.2.kind = .block
  last : ∀ b ∈ last, b.kind = .block

end Node

open Node

/-- The pairs of conditions and blocks after the first, and the block without a condition. -/
theorem Branches.read {xs : List Tree} (h : Branches xs) {ns : List Node} (hns : ns.map (·.tree) = xs) :
    ∃ (more : List (Node × Node)) (last : Option Node),
      ns.filter (!·.isLeaf) = more.flatMap (fun b => [b.1, b.2]) ++ last.toList ∧
        (∀ b ∈ more, b.1.kind = .predicate ∧ b.2.kind = .block) ∧ (∀ b ∈ last, b.kind = .block) ∧
        last.isSome = plainElse ns := by
  induction h generalizing ns with
  | nil =>
    rw [List.map_eq_nil_iff.mp hns]
    exact ⟨[], none, rfl, fun _ hb => absurd hb List.not_mem_nil, nofun, rfl⟩
  | otherwise e b =>
    simp only [List.map_eq_cons_iff, List.map_eq_nil_iff] at hns
    obtain ⟨x, _, rfl, hx, y, _, rfl, hy, rfl⟩ := hns
    obtain ⟨hxleaf, hxkind, -⟩ := leaf_facts hx
    obtain ⟨hyleaf, hykind⟩ := node_facts hy
    refine ⟨[], some y, by simp [hxleaf, hyleaf], fun _ hb => absurd hb List.not_mem_nil, ?_, ?_⟩
    · simp [hykind]
    · simp [plainElse, hxleaf, hxkind, hykind]
  | @elseIf e i p b rest _ ih =>
    simp only [List.map_eq_cons_iff] at hns
    obtain ⟨w, _, rfl, hw, x, _, rfl, hx, y, _, rfl, hy, z, ns, rfl, hz, hns⟩ := hns
    obtain ⟨more, last, hnodes, hmore, hlast, helse⟩ := ih hns
    obtain ⟨hwleaf, hwkind, -⟩ := leaf_facts hw
    obtain ⟨hxleaf, hxkind, -⟩ := leaf_facts hx
    obtain ⟨hyleaf, hykind⟩ := node_facts hy
    obtain ⟨hzleaf, hzkind⟩ := node_facts hz
    refine ⟨(y, z) :: more, last, ?_, ?_, hlast, ?_⟩
    · simp [hwleaf, hxleaf, hyleaf, hzleaf, hnodes]
    · intro c hc
      rcases List.mem_cons.mp hc with rfl | hc
      · exact ⟨hykind, hzkind⟩
      · exact hmore c hc
    · cases ns with
      | nil => simpa [plainElse, hwleaf, hwkind, hxleaf, hxkind, hyleaf, hykind] using helse
      | cons v ns => simpa [plainElse, hwleaf, hwkind, hxleaf, hxkind, hyleaf, hykind, hzleaf] using helse

/-- The children of a node laid out as an `if` statement alternate, and a block is left over exactly if there is a plain
`else`. -/
theorem alternates_of_layout {n : Node} (h : Layout .ifStatement (n.solid.map (·.tree))) :
    ∃ first more last, Alternates n.nodes first more last ∧ last.isSome = plainElse n.solid := by
  obtain ⟨i, p, b, rest, hxs, hrest⟩ := h
  simp only [List.map_eq_cons_iff] at hxs
  obtain ⟨x, _, hsolid, hx, y, _, rfl, hy, z, ns, rfl, hz, hns⟩ := hxs
  obtain ⟨more, last, hnodes, hmore, hlast, helse⟩ := hrest.read hns
  obtain ⟨hxleaf, hxkind, -⟩ := leaf_facts hx
  obtain ⟨hyleaf, hykind⟩ := node_facts hy
  obtain ⟨hzleaf, hzkind⟩ := node_facts hz
  refine ⟨(y, z), more, last, ⟨?_, ?_, hlast⟩, ?_⟩
  · rw [nodes_eq, hsolid]
    simp [hxleaf, hyleaf, hzleaf, hnodes]
  · intro c hc
    rcases List.mem_cons.mp hc with rfl | hc
    · exact ⟨hykind, hzkind⟩
    · exact hmore c hc
  · rw [hsolid]
    cases ns with
    | nil => simpa [plainElse, hxleaf, hxkind, hyleaf, hykind] using helse
    | cons v ns => simpa [plainElse, hxleaf, hxkind, hyleaf, hykind, hzleaf] using helse

/-- Only an `if` statement is seen as a chain, with its conditions and its blocks. -/
theorem expr?_eq_ifChain {n : Node} {predicates blocks : List Node} (h : n.expr? = some (.ifChain predicates blocks)) :
    n.isLeaf = false ∧ n.kind = .ifStatement ∧ n.nodesOf .predicate = predicates ∧ n.nodesOf .block = blocks := by
  unfold expr? at h
  split at h
  · cases h
  · rename_i hleaf
    split at h <;> cases h
    rename_i hkind
    exact ⟨by simpa using hleaf, hkind, rfl, rfl⟩

/-- Pairs of nodes are found again by position, whatever follows the second of them. -/
theorem zip_branches (more : List (Node × Node)) (rest : List Node) :
    (more.map (·.1)).zip (more.map (·.2) ++ rest) = more := by
  induction more with
  | nil => rfl
  | cons b more ih => simp only [List.map_cons, List.cons_append, List.zip_cons_cons, ih]

/-- The conditions and the blocks of a row of branches. -/
theorem filter_branches {bs : List (Node × Node)} (h : ∀ b ∈ bs, b.1.kind = .predicate ∧ b.2.kind = .block) :
    (bs.flatMap fun b => [b.1, b.2]).filter (·.kind = .predicate) = bs.map (·.1) ∧
      (bs.flatMap fun b => [b.1, b.2]).filter (·.kind = .block) = bs.map (·.2) := by
  induction bs with
  | nil => exact ⟨rfl, rfl⟩
  | cons b bs ih =>
    obtain ⟨hpredicate, hblock⟩ := h b List.mem_cons_self
    obtain ⟨ihp, ihb⟩ := ih fun c hc => h c (List.mem_cons_of_mem _ hc)
    constructor
    · simp [hpredicate, hblock, ihp]
    · simp [hpredicate, hblock, ihb]

namespace Node.Alternates

variable {n : Node} {first : Node × Node} {more : List (Node × Node)} {last : Option Node}

theorem nodesOf_predicate (h : Alternates n.nodes first more last) : n.nodesOf .predicate = first.1 :: more.map (·.1) := by
  have hlast : last.toList.filter (·.kind = .predicate) = [] := by
    refine List.filter_eq_nil_iff.mpr fun b hb => ?_
    simp [h.last b (Option.mem_toList.mp hb)]
  rw [nodesOf, h.nodes, List.filter_append, (filter_branches h.branches).1, hlast, List.append_nil]
  rfl

theorem nodesOf_block (h : Alternates n.nodes first more last) :
    n.nodesOf .block = first.2 :: (more.map (·.2) ++ last.toList) := by
  have hlast : last.toList.filter (·.kind = .block) = last.toList := by
    refine List.filter_eq_self.mpr fun b hb => ?_
    simp [h.last b (Option.mem_toList.mp hb)]
  rw [nodesOf, h.nodes, List.filter_append, (filter_branches h.branches).2, hlast]
  rfl

end Node.Alternates

/-- What the typed view finds by position in a chain of branches. -/
theorem elseIfs_branches (first : Node × Node) (more : List (Node × Node)) (rest : List Node) :
    Expr.elseIfs (first.1 :: more.map (·.1)) (first.2 :: (more.map (·.2) ++ rest)) = more := by
  rw [Expr.elseIfs, List.zip_cons_cons, List.drop_succ_cons, List.drop_zero, zip_branches]

theorem otherwise?_branches (first : Node × Node) (more : List (Node × Node)) (last : Option Node) :
    Expr.otherwise? (first.1 :: more.map (·.1)) (first.2 :: (more.map (·.2) ++ last.toList)) = last := by
  have hlength : (first.1 :: more.map (·.1)).length = more.length + 1 := by simp
  rw [Expr.otherwise?, hlength, List.getElem?_cons_succ, List.getElem?_append_right (by simp)]
  cases last <;> simp

/-- A node laid out as a condition holds no expression exactly if it is an empty pair of parentheses. -/
theorem exprs_eq_nil_of_layout {n : Node} (h : Layout .predicate (n.solid.map (·.tree))) :
    n.exprs.getLast? = none ↔ n.solid.map (·.kind) = [.parenOpen, .parenClose] := by
  have hexprs : n.exprs = n.solid.filter (·.isExpr) := by
    rw [exprs, nodes_eq, List.filter_filter]
    congr 1
    funext e
    cases he : e.isExpr with
    | true => simp [isLeaf_of_isExpr he]
    | false => rfl
  rw [List.getLast?_eq_none_iff, hexprs, List.filter_eq_nil_iff]
  constructor
  · intro hnone
    rcases h with ⟨x, hx, hexpr⟩ | ⟨o, c, hxs⟩
    · obtain ⟨e, he, rfl⟩ := List.mem_map.mp hx
      exact absurd ((isExpr_eq e).trans hexpr) (hnone e he)
    · simp only [List.map_eq_cons_iff, List.map_eq_nil_iff] at hxs
      obtain ⟨x, _, hsolid, hx, y, _, rfl, hy, rfl⟩ := hxs
      simp [hsolid, (leaf_facts hx).2.1, (leaf_facts hy).2.1]
  · intro hkinds e he
    have hkind : e.kind = .parenOpen ∨ e.kind = .parenClose := by
      have hmem := List.mem_map_of_mem (f := fun e : Node => e.kind) he
      simpa [hkinds] using hmem
    rcases hkind with hk | hk <;> simp [isExpr, hk, Kind.isExpr]

/-- In the tree of a source that parses without diagnostics the children of every `if` statement alternate between conditions
and blocks, with at most one more block at the end. So the typed view finds the first branch first, the other branches in their
order, and the block without a condition exactly if an `else` is followed by a block. Every condition holds an expression unless
it is an empty pair of parentheses. -/
theorem parse_alternates (o : Options) (source : Text) (p : Parsed) (h : parse o source = .ok p) (hclean : p.diagnostics = [])
    (n : Node) (hn : p.root.Within n) :
    (∀ predicates blocks, n.expr? = some (.ifChain predicates blocks) →
      ∃ first more last, Alternates n.nodes first more last ∧
        predicates = first.1 :: more.map (·.1) ∧ blocks = first.2 :: (more.map (·.2) ++ last.toList) ∧
        Expr.elseIfs predicates blocks = more ∧ Expr.otherwise? predicates blocks = last ∧
        last.isSome = plainElse n.solid) ∧
    (n.isLeaf = false → n.kind = .predicate →
      (n.exprs.getLast? = none ↔ n.solid.map (·.kind) = [.parenOpen, .parenClose])) := by
  have hsound := sound_of_parse h hclean
  constructor
  · intro predicates blocks hexpr
    obtain ⟨hleaf, hkind, rfl, rfl⟩ := expr?_eq_ifChain hexpr
    have hlayout := hsound.layout hn hleaf
    rw [hkind] at hlayout
    obtain ⟨first, more, last, halternates, helse⟩ := alternates_of_layout hlayout
    rw [halternates.nodesOf_predicate, halternates.nodesOf_block]
    exact ⟨first, more, last, halternates, rfl, rfl, elseIfs_branches first more _, otherwise?_branches first more last, helse⟩
  · intro hleaf hkind
    have hlayout := hsound.layout hn hleaf
    rw [hkind] at hlayout
    exact exprs_eq_nil_of_layout hlayout

/-- Two branches and a block without a condition: the typed view finds all five parts. -/
theorem parse_alternates_three :
    ∃ p n predicates blocks first more last,
      parse {} ['i', 'f', ' ', 'a', '\x7b', '\x7d', 'e', 'l', 's', 'e', ' ', 'i', 'f', ' ', 'b', '\x7b', '\x7d', 'e', 'l', 's',
        'e', '\x7b', '\x7d'] = .ok p ∧ p.diagnostics = [] ∧ p.root.Within n ∧
      n.expr? = some (.ifChain predicates blocks) ∧ predicates.length = 2 ∧ blocks.length = 3 ∧
      Alternates n.nodes first more last ∧ Expr.elseIfs predicates blocks = more ∧ Expr.otherwise? predicates blocks = last := by
  have hok : (parse {} ['i', 'f', ' ', 'a', '\x7b', '\x7d', 'e', 'l', 's', 'e', ' ', 'i', 'f', ' ', 'b', '\x7b', '\x7d', 'e', 'l',
      's', 'e', '\x7b', '\x7d']).toOption.any (fun p => p.diagnostics.isEmpty && p.root.elements.any fun n =>
        !n.isLeaf && n.kind == .ifStatement && (n.nodesOf .predicate).length == 2 && (n.nodesOf .block).length == 3) = true := by
    decide +kernel
  cases hp : parse {} ['i', 'f', ' ', 'a', '\x7b', '\x7d', 'e', 'l', 's', 'e', ' ', 'i', 'f', ' ', 'b', '\x7b', '\x7d', 'e', 'l', 's',
      'e', '\x7b', '\x7d'] with
  | error f =>
    rw [hp] at hok
    cases hok
  | ok p =>
    rw [hp] at hok
    simp only [Except.toOption, Option.any_some, Bool.and_eq_true, List.isEmpty_iff, List.any_eq_true, Bool.not_eq_true',
      beq_iff_eq] at hok
    obtain ⟨hclean, n, hn, ⟨⟨hleaf, hkind⟩, hpredicates⟩, hblocks⟩ := hok
    have hwithin : p.root.Within n := .child .root hn
    have hexpr : n.expr? = some (.ifChain (n.nodesOf .predicate) (n.nodesOf .block)) := by simp [expr?, hleaf, hkind]
    obtain ⟨first, more, last, halternates, -, -, helse, hlast, -⟩ := (parse_alternates {} _ p hp hclean n hwithin).1 _ _ hexpr
    exact ⟨p, n, _, _, first, more, last, rfl, hclean, hwithin, hexpr, hpredicates, hblocks, halternates, helse, hlast⟩

/-- An empty pair of parentheses passes for a condition, and the condition is missing. -/
theorem parse_emptyCondition :
    ∃ p n, parse {} ['i', 'f', ' ', '(', ')', ' ', '\x7b', '1', '\x7d'] = .ok p ∧ p.diagnostics = [] ∧ p.root.Within n ∧
      n.isLeaf = false ∧ n.kind = .predicate ∧ n.exprs.getLast? = none := by
  have hok : (parse {} ['i', 'f', ' ', '(', ')', ' ', '\x7b', '1', '\x7d']).toOption.any (fun p =>
      p.diagnostics.isEmpty && p.root.elements.any fun s => s.elements.any fun n =>
        !n.isLeaf && n.kind == .predicate && n.exprs.getLast?.isNone) = true := by decide +kernel
  cases hp : parse {} ['i', 'f', ' ', '(', ')', ' ', '\x7b', '1', '\x7d'] with
  | error f =>
    rw [hp] at hok
    cases hok
  | ok p =>
    rw [hp] at hok
    simp only [Except.toOption, Option.any_some, Bool.and_eq_true, List.isEmpty_iff, List.any_eq_true, Bool.not_eq_true',
      beq_iff_eq, Option.isNone_iff_eq_none] at hok
    obtain ⟨hclean, s, hs, n, hn, ⟨hleaf, hkind⟩, hnone⟩ := hok
    exact ⟨p, n, rfl, hclean, .child (.child .root hs) hn, hleaf, hkind, hnone⟩

end Remap
