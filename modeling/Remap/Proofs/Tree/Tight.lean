import Remap.Proofs.Parser.Leaves
import Remap.Proofs.Tree.Complete

/-!
# Tight trees

A tree opens tightly if its first leaf is neither trivia nor a newline, and closes tightly if its last leaf is neither. A tree is
tight if every node in it opens and closes so, itself apart. Two kinds of nodes are eased: the parameters of a closure, and the
arguments of a call whose name is followed by a `!`, need only close tightly.
-/

namespace Remap

namespace Tree

/-- The first leaf is neither trivia nor a newline. -/
def Opens (t : Tree) : Prop := ∃ p ∈ t.leaves.head?, p.1.isTrivia = false ∧ p.1 ≠ .newline

/-- The last leaf is neither trivia nor a newline. -/
def Closes (t : Tree) : Prop := ∃ p ∈ t.leaves.getLast?, p.1.isTrivia = false ∧ p.1 ≠ .newline

/-- A node opens where its first child opens. -/
theorem Opens.node {c : Tree} (h : c.Opens) (k : Kind) (cs : List Tree) : (node k (c :: cs)).Opens := by
  obtain ⟨p, hp, hsolid⟩ := h
  refine ⟨p, ?_, hsolid⟩
  rw [leaves, leavesOf, List.head?_append]
  exact Option.mem_def.mpr (by rw [Option.mem_def.mp hp, Option.some_or])

/-- A node closes where its last child closes. -/
theorem Closes.node {c : Tree} (h : c.Closes) (k : Kind) (cs : List Tree) : (node k (cs ++ [c])).Closes := by
  obtain ⟨p, hp, hsolid⟩ := h
  refine ⟨p, ?_, hsolid⟩
  rw [leaves, leavesOf_append, leavesOf, leavesOf, List.append_nil, List.getLast?_append]
  exact Option.mem_def.mpr (by rw [Option.mem_def.mp hp, Option.some_or])

/-- The node that holds some trees, latest first, closes where the latest closes. -/
theorem Closes.of_head? {c : Tree} {built : List Tree} (h : c.Closes) (hc : c ∈ built.head?) (k : Kind) : (Tree.node k built.reverse).Closes := by
  obtain ⟨cs, rfl⟩ := List.head?_eq_some_iff.mp hc
  rw [List.reverse_cons]
  exact h.node k _

/-- The node that holds some trees, latest first, opens where the first opens. -/
theorem Opens.of_getLast? {c : Tree} {built : List Tree} (h : c.Opens) (hc : c ∈ built.getLast?) (k : Kind) :
    (Tree.node k built.reverse).Opens := by
  obtain ⟨cs, rfl⟩ := List.getLast?_eq_some_iff.mp hc
  rw [List.reverse_append]
  exact h.node k _

/-- A child that may begin with blanks: the parameters of a closure, or arguments next to a `!`. -/
def Eased (cs : List Tree) (c : Tree) : Prop := c.kind = .closureParams ∨ (c.kind = .argumentList ∧ ∃ x, .leaf .bang x ∈ cs)

/-- A child closes tightly, and opens tightly unless it is eased. -/
structure Trim (cs : List Tree) (c : Tree) : Prop where
  closes : c.Closes
  opens : Eased cs c ∨ c.Opens

theorem Trim.mono {cs ds : List Tree} {c : Tree} (h : Trim cs c) (hcs : ∀ x ∈ cs, x ∈ ds) : Trim ds c :=
  ⟨h.closes, h.opens.imp (.imp id fun ⟨hk, x, hx⟩ => ⟨hk, x, hcs _ hx⟩) id⟩

/-- Every node inside the tree is trim. -/
inductive Tight : Tree → Prop where
  | leaf (k : Kind) (x : Text) : Tight (.leaf k x)
  | node (k : Kind) {cs : List Tree} (trim : ∀ j ds, .node j ds ∈ cs → Trim cs (.node j ds)) (tight : ∀ c ∈ cs, Tight c) :
      Tight (.node k cs)

/-- The children of a tight node. -/
structure Neat (cs : List Tree) : Prop where
  trim : ∀ k ds, .node k ds ∈ cs → Trim cs (.node k ds)
  tight : ∀ c ∈ cs, c.Tight

namespace Neat

variable {cs ds : List Tree}

theorem node (h : Neat cs) (k : Kind) : (Tree.node k cs).Tight := .node k h.trim h.tight

theorem nil : Neat [] := ⟨nofun, nofun⟩

theorem append (hcs : Neat cs) (hds : Neat ds) : Neat (cs ++ ds) := by
  refine ⟨fun k es hes => ?_, fun c hc => (List.mem_append.mp hc).elim (hcs.tight c) (hds.tight c)⟩
  rcases List.mem_append.mp hes with hes | hes
  · exact (hcs.trim k es hes).mono fun x hx => List.mem_append_left _ hx
  · exact (hds.trim k es hes).mono fun x hx => List.mem_append_right _ hx

theorem reverse (h : Neat cs) : Neat cs.reverse :=
  ⟨fun k ds hds => (h.trim k ds (List.mem_reverse.mp hds)).mono fun _ hx => List.mem_reverse.mpr hx,
    fun c hc => h.tight c (List.mem_reverse.mp hc)⟩

/-- Leaves are neat. -/
theorem of_tokens (ts : List Token) : Neat (ts.map Token.leaf).reverse := by
  refine ⟨fun k ds hds => ?_, fun c hc => ?_⟩
  · obtain ⟨t, -, ht⟩ := List.mem_map.mp (List.mem_reverse.mp hds)
    cases ht
  · obtain ⟨t, -, rfl⟩ := List.mem_map.mp (List.mem_reverse.mp hc)
    exact .leaf _ _

/-- A tight node that is trim among its siblings. -/
theorem cons {k : Kind} {es : List Tree} (h : Neat cs) (htight : (Tree.node k es).Tight)
    (htrim : Trim (Tree.node k es :: cs) (Tree.node k es)) : Neat (Tree.node k es :: cs) := by
  refine ⟨fun j ds hds => ?_, fun c hc => ?_⟩
  · rcases List.mem_cons.mp hds with heq | hds
    · rw [heq]
      exact htrim
    · exact (h.trim j ds hds).mono fun x hx => List.mem_cons_of_mem _ hx
  · rcases List.mem_cons.mp hc with rfl | hc
    · exact htight
    · exact h.tight c hc

end Neat

theorem Tight.neat {t : Tree} (h : t.Tight) : Neat t.children := by
  cases h with
  | leaf => exact .nil
  | node _ trim tight => exact ⟨trim, tight⟩

/-- Every node inside a tight tree is trim among the children of its parent. -/
theorem Tight.trim_within {root parent c : Node} (h : root.tree.Tight) (hparent : root.Within parent) (hc : c ∈ parent.elements)
    (hleaf : c.isLeaf = false) : Trim parent.tree.children c.tree := by
  have hneat : Neat parent.tree.children := (hparent.inherit (fun t ht => ht.neat.tight) h).neat
  have hmem := Node.tree_mem_children hc
  obtain ⟨start, tree⟩ := c
  cases tree with
  | leaf => cases hleaf
  | node k ds => exact hneat.trim k ds hmem

end Tree

end Remap
