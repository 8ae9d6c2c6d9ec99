import Remap.Proofs.Text.Quoted
import Remap.Tree.Dump

/-!
# Outlines

The full dump of a tree is an outline of it: a line for every node and leaf, indented by depth. A line says its depth, its kind,
whether it is a leaf's and, if so, the text of the leaf. What lies below a node is what follows it up to the first line that is
not deeper. So an outline is the outline of one tree only.
-/

namespace Remap

/-! ## Names of kinds -/

/-- A name names one kind. -/
theorem Kind.ofName?_name (k : Kind) : Kind.ofName? k.name = some k := by
  cases k <;> decide +kernel

theorem Kind.name_injective {k l : Kind} (h : k.name = l.name) : k = l := by
  have hsome : some k = some l := by rw [← ofName?_name k, ← ofName?_name l, h]
  exact Option.some.inj hsome

/-- Names have no blanks or newlines in them, and there is no empty one. -/
theorem Kind.name_plain (k : Kind) : ' ' ∉ k.name.toList ∧ '\n' ∉ k.name.toList ∧ k.name.toList ≠ [] := by
  cases k <;> decide +kernel

namespace Dump

theorem str_injective {s t : String} (h : str s = str t) : s = t := String.toList_inj.mp h

/-! ## Lines -/

/-- What an outline says about a leaf. -/
def leafHeading (k : Kind) (t : Text) : Text := str k.name ++ ' ' :: t.quoted

/-- What it says about a leaf says which leaf it is. -/
theorem leafHeading_inj {k l : Kind} {s t : Text} (h : leafHeading k s = leafHeading l t) : k = l ∧ s = t := by
  obtain ⟨hname, hquoted⟩ := Text.append_mark_inj k.name_plain.1 l.name_plain.1 h
  exact ⟨Kind.name_injective (str_injective hname), Text.quoted_injective hquoted⟩

/-- What it says about a leaf it says about no node. -/
theorem leafHeading_ne (k l : Kind) (t : Text) : leafHeading k t ≠ str l.name := by
  intro h
  have hblank : ' ' ∈ leafHeading k t := by simp [leafHeading]
  rw [h] at hblank
  exact l.name_plain.1 hblank

/-- A line that is indented to a depth and no further. -/
def Indented (depth : Nat) (l : Text) : Prop := ∃ c s, c ≠ ' ' ∧ l = line depth (c :: s)

/-- What begins with the name of a kind is indented no further. -/
theorem indented_name (depth : Nat) (k : Kind) (s : Text) : Indented depth (line depth (str k.name ++ s)) := by
  obtain ⟨hblank, -, hne⟩ := k.name_plain
  cases hname : k.name.toList with
  | nil => exact absurd hname hne
  | cons c name =>
    refine ⟨c, name ++ s, ?_, by rw [str, hname]; rfl⟩
    rw [hname] at hblank
    exact (List.ne_of_not_mem_cons hblank).symm

theorem line_zero (t : Text) : line 0 t = t := rfl

theorem line_succ (depth : Nat) (t : Text) : line (depth + 1) t = ' ' :: ' ' :: line depth t := by
  rw [line, line, Nat.mul_add, Nat.mul_one, List.replicate_succ, List.replicate_succ]
  rfl

theorem line_inj {depth : Nat} {s t : Text} (h : line depth s = line depth t) : s = t := List.append_cancel_left h

/-- A line has one depth. -/
theorem Indented.depth_eq {d e : Nat} {l : Text} (hd : Indented d l) (he : Indented e l) : d = e := by
  obtain ⟨c, s, hc, rfl⟩ := hd
  obtain ⟨c', s', hc', h⟩ := he
  induction d generalizing e with
  | zero =>
    cases e with
    | zero => rfl
    | succ e =>
      rw [line_zero, line_succ] at h
      exact absurd (List.cons.inj h).1 hc
  | succ d ih =>
    cases e with
    | zero =>
      rw [line_zero, line_succ] at h
      exact absurd (List.cons.inj h).1.symm hc'
    | succ e =>
      rw [line_succ, line_succ] at h
      exact congrArg (· + 1) (ih (List.cons.inj (List.cons.inj h).2).2)

/-! ## Outlines -/

/-- What an outline shows: everything, but no spans. -/
def full : TreeOptions := { trivia := true, spans := false }

theorem tree_leaf (start depth : Nat) (k : Kind) (t : Text) :
    tree full start depth (.leaf k t) = [line depth (leafHeading k t)] := by
  simp [tree, full, spanIf, leafHeading]

theorem tree_node (start depth : Nat) (k : Kind) (cs : List Tree) :
    tree full start depth (.node k cs) = line depth (str k.name) :: trees full start (depth + 1) cs := by
  simp [tree, full, spanIf]

/-- The outline of a tree begins at the depth of the tree. -/
theorem tree_eq_cons (start depth : Nat) (t : Tree) : ∃ l ls, tree full start depth t = l :: ls ∧ Indented depth l := by
  cases t with
  | leaf k t => exact ⟨_, [], tree_leaf start depth k t, indented_name depth k _⟩
  | node k cs =>
    have hline := indented_name depth k []
    rw [List.append_nil] at hline
    exact ⟨_, _, tree_node start depth k cs, hline⟩

/-- What is left of an outline goes on above a depth, if it goes on. -/
def Above (depth : Nat) (ls : List Text) : Prop := ∀ l ∈ ls.head?, ∃ d < depth, Indented d l

theorem above_nil (depth : Nat) : Above depth [] := fun _ h => by cases h

/-- What follows a row of trees follows each of them. -/
theorem Above.trees {depth : Nat} {rest : List Text} (h : Above depth rest) (start : Nat) (ts : List Tree) :
    Above (depth + 1) (trees full start depth ts ++ rest) := by
  cases ts with
  | nil =>
    intro l hl
    obtain ⟨d, hd, hline⟩ := h l hl
    exact ⟨d, Nat.lt_succ_of_lt hd, hline⟩
  | cons t ts =>
    obtain ⟨l, ls, htree, hline⟩ := tree_eq_cons start depth t
    intro m hm
    rw [Dump.trees, htree] at hm
    obtain rfl : l = m := Option.some.inj hm
    exact ⟨depth, Nat.lt_succ_self depth, hline⟩

/-- What goes on above a row of trees does not begin with one. -/
theorem Above.ne_trees {depth : Nat} {rest : List Text} (h : Above depth rest) (start : Nat) (t : Tree) (ls : List Text) :
    rest ≠ tree full start depth t ++ ls := by
  rintro rfl
  obtain ⟨l, ls', htree, hline⟩ := tree_eq_cons start depth t
  obtain ⟨d, hd, hshallow⟩ := h l (by rw [htree]; rfl)
  exact Nat.ne_of_lt hd (hshallow.depth_eq hline)

mutual
/-- An outline and what follows it above: both say which they are. -/
theorem tree_append_inj (a b depth : Nat) {rest rest' : List Text} (h : Above (depth + 1) rest) (h' : Above (depth + 1) rest') :
    (t u : Tree) → tree full a depth t ++ rest = tree full b depth u ++ rest' → t = u ∧ rest = rest'
  | .leaf k s, .leaf l t, heq => by
    rw [tree_leaf, tree_leaf] at heq
    obtain ⟨hline, hrest⟩ := List.cons.inj heq
    obtain ⟨rfl, rfl⟩ := leafHeading_inj (line_inj hline)
    exact ⟨rfl, hrest⟩
  | .leaf k s, .node l ds, heq => by
    rw [tree_leaf, tree_node] at heq
    exact absurd (line_inj (List.cons.inj heq).1) (leafHeading_ne k l s)
  | .node k cs, .leaf l t, heq => by
    rw [tree_node, tree_leaf] at heq
    exact absurd (line_inj (List.cons.inj heq).1).symm (leafHeading_ne l k t)
  | .node k cs, .node l ds, heq => by
    rw [tree_node, tree_node] at heq
    obtain ⟨hline, hrest⟩ := List.cons.inj heq
    obtain ⟨rfl, rfl⟩ := trees_append_inj a b (depth + 1) h h' cs ds hrest
    exact ⟨by rw [Kind.name_injective (str_injective (line_inj hline))], rfl⟩
/-- The outlines of a row of trees and what follows them above. -/
theorem trees_append_inj (a b depth : Nat) {rest rest' : List Text} (h : Above depth rest) (h' : Above depth rest') :
    (ts us : List Tree) → trees full a depth ts ++ rest = trees full b depth us ++ rest' → ts = us ∧ rest = rest'
  | [], [], heq => ⟨rfl, heq⟩
  | [], u :: us, heq => by
    rw [trees, trees, List.append_assoc] at heq
    exact absurd heq (h.ne_trees b u _)
  | t :: ts, [], heq => by
    rw [trees, trees, List.append_assoc] at heq
    exact absurd heq.symm (h'.ne_trees a t _)
  | t :: ts, u :: us, heq => by
    rw [trees, trees, List.append_assoc, List.append_assoc] at heq
    obtain ⟨rfl, htail⟩ := tree_append_inj a b depth (h.trees _ ts) (h'.trees _ us) t u heq
    obtain ⟨rfl, hrest⟩ := trees_append_inj _ _ depth h h' ts us htail
    exact ⟨rfl, hrest⟩
end

/-! ## Outlines as texts -/

/-- A text on one line. -/
def Single (l : Text) : Prop := '\n' ∉ l

theorem single_line {t : Text} (depth : Nat) (h : Single t) : Single (line depth t) := by
  simpa [Single, line] using h

theorem single_leafHeading (k : Kind) (t : Text) : Single (leafHeading k t) := by
  have hname : '\n' ∉ str k.name := k.name_plain.2.1
  simp [Single, leafHeading, hname, Text.newline_notMem_quoted]

mutual
/-- An outline is made of single lines. -/
theorem single_of_mem_tree (start depth : Nat) : (t : Tree) → ∀ l ∈ tree full start depth t, Single l
  | .leaf k t, l, hl => by
    rw [tree_leaf] at hl
    obtain rfl := List.mem_singleton.mp hl
    exact single_line depth (single_leafHeading k t)
  | .node k cs, l, hl => by
    rw [tree_node] at hl
    obtain rfl | hl := List.mem_cons.mp hl
    · exact single_line depth k.name_plain.2.1
    · exact single_of_mem_trees start (depth + 1) cs l hl
theorem single_of_mem_trees (start depth : Nat) : (ts : List Tree) → ∀ l ∈ trees full start depth ts, Single l
  | [], _, hl => by cases hl
  | t :: ts, l, hl => by
    rw [trees] at hl
    obtain hl | hl := List.mem_append.mp hl
    · exact single_of_mem_tree start depth t l hl
    · exact single_of_mem_trees _ depth ts l hl
end

/-- Single lines can be told apart in the joined text. -/
theorem joined_inj {ls ms : List Text} (hls : ∀ l ∈ ls, Single l) (hms : ∀ l ∈ ms, Single l) (h : joined ls = joined ms) :
    ls = ms := by
  induction ls generalizing ms with
  | nil =>
    cases ms with
    | nil => rfl
    | cons m ms => simp [joined] at h
  | cons l ls ih =>
    cases ms with
    | nil => simp [joined] at h
    | cons m ms =>
      have hcut : l ++ '\n' :: joined ls = m ++ '\n' :: joined ms := by
        simpa [joined] using h
      obtain ⟨rfl, hrest⟩ := Text.append_mark_inj (hls l List.mem_cons_self) (hms m List.mem_cons_self) hcut
      rw [ih (fun x hx => hls x (List.mem_cons_of_mem l hx)) (fun x hx => hms x (List.mem_cons_of_mem l hx)) hrest]

/-- Trees with one outline are one tree. -/
theorem eq_of_outline {t u : Tree} (h : joined (tree full 0 0 t) = joined (tree full 0 0 u)) : t = u := by
  have hlines := joined_inj (single_of_mem_tree 0 0 t) (single_of_mem_tree 0 0 u) h
  have hrows : tree full 0 0 t ++ [] = tree full 0 0 u ++ [] := by rw [hlines]
  exact (tree_append_inj 0 0 0 (above_nil 1) (above_nil 1) t u hrows).1

end Dump

end Remap
