import Remap.Proofs.Parser.Leaves
import Remap.Proofs.Tree.Bare

/-!
# Statements in a row

A program holds statements with separators between them, and a block holds such a row between its braces. A separator is one or more
newlines, or a semicolon and perhaps newlines behind it. Newlines may stand before the first statement, and one separator may stand behind
the last. Trivia may stand anywhere.
-/

namespace Remap

namespace Tree

/-- A row of trees without its trivia. Newlines are kept. -/
def withoutTrivia (ts : List Tree) : List Tree := ts.filter (!·.isTrivia)

/-- Newlines and nothing else. -/
def Newlines (ts : List Tree) : Prop := ∀ t ∈ ts, ∃ text, t = .leaf .newline text

/-- What separates statements: one or more newlines, or a semicolon and perhaps newlines. -/
inductive Separator : List Tree → Prop where
  | newlines {ts : List Tree} (some : ts ≠ []) (newlines : Newlines ts) : Separator ts
  | semicolon (text : Text) {ts : List Tree} (newlines : Newlines ts) : Separator (.leaf .semicolon text :: ts)

/-- Statements, which are nodes of expressions, with a separator behind each, which may lack behind the last. -/
inductive Statements : List Tree → Prop where
  | nil : Statements []
  | last {k : Kind} (expr : k.isExpr = true) (cs : List Tree) : Statements [.node k cs]
  | cons {k : Kind} (expr : k.isExpr = true) (cs : List Tree) {between rest : List Tree} (separator : Separator between)
      (statements : Statements rest) : Statements (.node k cs :: (between ++ rest))

/-- Newlines, and then statements. -/
def Sequence (ts : List Tree) : Prop := ∃ lead rest, ts = lead ++ rest ∧ Newlines lead ∧ Statements rest

/-- What may come right behind a statement. -/
def Remainder (ts : List Tree) : Prop := ∀ {k : Kind}, k.isExpr = true → ∀ cs : List Tree, Sequence (.node k cs :: ts)

/-- A sequence of statements between two braces. -/
def Braces (ts : List Tree) : Prop :=
  ∃ opening inner closing, ts = .leaf .braceOpen opening :: (inner ++ [.leaf .braceClose closing]) ∧ Sequence inner

/-- The children of a program are a sequence of statements, and so are those of a block between its braces. -/
structure Sequenced (k : Kind) (cs : List Tree) : Prop where
  program : k = .program → Sequence (withoutTrivia cs)
  block : k = .block → Braces (withoutTrivia cs)

/-- All programs and blocks within the tree hold sequences of statements. -/
inductive Parted : Tree → Prop where
  | leaf (k : Kind) (text : Text) : Parted (.leaf k text)
  | node {k : Kind} {cs : List Tree} (sequenced : Sequenced k cs) (parted : ∀ c ∈ cs, Parted c) : Parted (.node k cs)

section

variable {ts us : List Tree}

theorem withoutTrivia_append : withoutTrivia (ts ++ us) = withoutTrivia ts ++ withoutTrivia us := List.filter_append ..

/-- Trivia only. -/
theorem withoutTrivia_leaves {ts : List Token} (h : ∀ t ∈ ts, t.kind.isTrivia = true) : withoutTrivia (ts.map Token.leaf) = [] := by
  refine List.filter_eq_nil_iff.mpr fun x hx => ?_
  obtain ⟨t, ht, rfl⟩ := List.mem_map.mp hx
  simp [Token.leaf, isTrivia, h t ht]

theorem Newlines.nil : Newlines [] := nofun

theorem Newlines.append (hts : Newlines ts) (hus : Newlines us) : Newlines (ts ++ us) :=
  fun t ht => (List.mem_append.mp ht).elim (hts t) (hus t)

/-- More newlines may follow a separator. -/
theorem Separator.append (hts : Separator ts) (hus : Newlines us) : Separator (ts ++ us) := by
  cases hts with
  | newlines hsome hnewlines => exact .newlines (fun hnil => hsome (List.append_eq_nil_iff.mp hnil).1) (hnewlines.append hus)
  | semicolon text hnewlines => exact .semicolon text (hnewlines.append hus)

/-- More newlines may come first. -/
theorem Sequence.after (hts : Newlines ts) (hus : Sequence us) : Sequence (ts ++ us) := by
  obtain ⟨lead, rest, rfl, hlead, hrest⟩ := hus
  exact ⟨ts ++ lead, rest, by rw [List.append_assoc], hts.append hlead, hrest⟩

/-- A statement and a separator before other statements. -/
theorem Sequence.cons {k : Kind} (hk : k.isExpr = true) (cs : List Tree) (hts : Separator ts) (hus : Sequence us) :
    Sequence (.node k cs :: (ts ++ us)) := by
  obtain ⟨lead, rest, rfl, hlead, hrest⟩ := hus
  refine ⟨[], _, rfl, .nil, ?_⟩
  rw [← List.append_assoc]
  exact .cons hk cs (hts.append hlead) hrest

theorem Sequence.single {k : Kind} (hk : k.isExpr = true) (cs : List Tree) : Sequence [.node k cs] := ⟨[], _, rfl, .nil, .last hk cs⟩

theorem Sequence.nil : Sequence [] := ⟨[], [], rfl, .nil, .nil⟩

theorem parted_leaf (t : Token) : Parted t.leaf := .leaf _ _

/-- A node that is neither a program nor a block. -/
theorem parted_node {k : Kind} (hk : k ≠ .program ∧ k ≠ .block) (h : ∀ c ∈ ts, c.Parted) : Parted (.node k ts) :=
  .node ⟨(absurd · hk.1), (absurd · hk.2)⟩ h

end

theorem Parted.children {t : Tree} (h : t.Parted) : ∀ c ∈ t.children, c.Parted := by
  cases h with
  | leaf => exact nofun
  | node _ hparted => exact hparted

/-- Each node within a tree whose sequences are in order. -/
theorem Parted.sequenced {root n : Node} (h : root.tree.Parted) (hn : root.Within n) (hleaf : n.isLeaf = false) :
    Sequenced n.kind n.tree.children := by
  have hparted : n.tree.Parted := hn.inherit (fun _ => Parted.children) h
  obtain ⟨start, tree⟩ := n
  cases hparted with
  | leaf => cases hleaf
  | node hsequenced => exact hsequenced

end Tree

end Remap
