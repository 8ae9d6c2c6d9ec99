import Remap.Proofs.Token.Runs
import Remap.Proofs.Tree.Joined

/-!
# Trees over lexemes

A row of trees covers a row of lexemes if every string among them is whole: it is all that a string literal holds, or it is somewhere
in an error, which holds nothing but whole lexemes and has no nodes inside. What is no string is a leaf. From this it can be read off
where the strings of the source are in the tree, and what the string literals of the tree are in the source.
-/

namespace Remap

open Lexeme (pieces isString)

namespace Tree

/-- A part of a string: a leaf, or a template that holds leaves. -/
def isPart : Tree → Bool
  | .leaf _ _ => true
  | .node k cs => k = .template && cs.all isLeaf

theorem isPart_of_isLeaf {t : Tree} (h : t.isLeaf = true) : t.isPart = true := by
  cases t with
  | leaf k text => rfl
  | node k cs => cases h

/-- What is inside a part of a string is one, too. -/
theorem isPart_child {k : Kind} {cs : List Tree} {c : Tree} (h : (node k cs).isPart = true) (hc : c ∈ cs) : c.isPart = true := by
  rw [isPart, Bool.and_eq_true] at h
  exact isPart_of_isLeaf (List.all_eq_true.mp h.2 c hc)

/-- A row of trees covers a row of lexemes, and keeps strings whole. -/
inductive Covers : List Tree → List Lexeme → Prop where
  | nil : Covers [] []
  | leaf {l : Lexeme} {ts : List Tree} {ls : List Lexeme} (plain : l.isString = false) (more : Covers ts ls) :
      Covers (.leaf l.regular l.text :: ts) (l :: ls)
  | string {l : Lexeme} {cs ts : List Tree} {ls : List Lexeme} (string : l.isString = true) (leaves : leavesOf cs = l.pieces)
      (parts : ∀ c ∈ cs, c.isPart = true) (more : Covers ts ls) : Covers (.node .stringLit cs :: ts) (l :: ls)
  | error {ks : List Lexeme} {cs ts : List Tree} {ls : List Lexeme} (leaves : leavesOf cs = ks.flatMap pieces)
      (flat : ∀ c ∈ cs, c.isLeaf = true) (more : Covers ts ls) : Covers (.node .error cs :: ts) (ks ++ ls)
  | node {k : Kind} {ks : List Lexeme} {cs ts : List Tree} {ls : List Lexeme} (kind : k ≠ .stringLit ∧ k ≠ .error) (inside : Covers cs ks)
      (more : Covers ts ls) : Covers (.node k cs :: ts) (ks ++ ls)

namespace Covers

variable {ts us : List Tree} {ls ms : List Lexeme}

theorem append (h : Covers ts ls) (h' : Covers us ms) : Covers (ts ++ us) (ls ++ ms) := by
  induction h with
  | nil => exact h'
  | leaf plain _ ih => exact .leaf plain ih
  | string string leaves parts _ ih => exact .string string leaves parts ih
  | error leaves flat _ ih =>
    rw [List.append_assoc]
    exact .error leaves flat ih
  | node kind inside _ _ ih =>
    rw [List.append_assoc]
    exact .node kind inside ih

/-- The leaves are the pieces of the lexemes. -/
theorem leaves (h : Covers ts ls) : leavesOf ts = ls.flatMap pieces := by
  induction h with
  | nil => rfl
  | leaf plain _ ih => rw [leavesOf, Tree.leaves, ih, List.flatMap_cons, Lexeme.pieces_of_not_isString plain]
  | string string leaves parts _ ih => rw [leavesOf, Tree.leaves, ih, List.flatMap_cons, leaves]
  | error leaves flat _ ih => rw [leavesOf, Tree.leaves, ih, List.flatMap_append, leaves]
  | node kind inside _ ihInside ih => rw [leavesOf, Tree.leaves, ih, List.flatMap_append, ihInside]

/-- Two rows one behind the other cover two rows one behind the other. -/
theorem split (h : Covers (ts ++ us) ls) : ∃ ks ms, ls = ks ++ ms ∧ Covers ts ks ∧ Covers us ms := by
  induction ts generalizing ls with
  | nil => exact ⟨[], ls, rfl, .nil, h⟩
  | cons t ts ih =>
    cases h with
    | leaf plain more =>
      obtain ⟨ks, ms, rfl, hks, hms⟩ := ih more
      exact ⟨_ :: ks, ms, rfl, .leaf plain hks, hms⟩
    | string quoted leaves parts more =>
      obtain ⟨ks, ms, rfl, hks, hms⟩ := ih more
      exact ⟨_ :: ks, ms, rfl, .string quoted leaves parts hks, hms⟩
    | error leaves flat more =>
      obtain ⟨ks, ms, rfl, hks, hms⟩ := ih more
      exact ⟨_ ++ ks, ms, (List.append_assoc _ _ _).symm, .error leaves flat hks, hms⟩
    | node kind inside more =>
      obtain ⟨ks, ms, rfl, hks, hms⟩ := ih more
      exact ⟨_ ++ ks, ms, (List.append_assoc _ _ _).symm, .node kind inside hks, hms⟩

/-- A row becomes a node. -/
theorem in_node {k : Kind} (hk : k ≠ .stringLit ∧ k ≠ .error) (h : Covers ts ls) : Covers [.node k ts] ls := by
  have hnode : Covers [.node k ts] (ls ++ []) := .node hk h .nil
  rwa [List.append_nil] at hnode

/-- Leaves of whole lexemes become an error. -/
theorem in_error (leaves : leavesOf ts = ls.flatMap pieces) (flat : ∀ t ∈ ts, t.isLeaf = true) : Covers [.node .error ts] ls := by
  have herror : Covers [.node .error ts] (ls ++ []) := .error leaves flat .nil
  rwa [List.append_nil] at herror

/-- Tokens that are whole lexemes and no strings, as leaves. -/
theorem of_tokens {ts : List Token} (hls : ∀ l ∈ ls, l.isString = false) (hts : ts.map Token.piece = ls.flatMap pieces) :
    Covers (ts.map Token.leaf) ls := by
  induction ls generalizing ts with
  | nil =>
    rw [List.map_eq_nil_iff.mp hts]
    exact .nil
  | cons l ls ih =>
    obtain ⟨hl, hls⟩ := List.forall_mem_cons.mp hls
    rw [List.flatMap_cons, Lexeme.pieces_of_not_isString hl, List.singleton_append] at hts
    obtain ⟨t, us, rfl, ht, hus⟩ := List.map_eq_cons_iff.mp hts
    obtain ⟨hkind, htext⟩ := Prod.mk.inj ht
    rw [List.map_cons, Token.leaf, hkind, htext]
    exact .leaf hl (ih hls hus)

end Covers

/-! ## Where strings are in a tree -/

/-- A string, with the pieces that come before it and behind it, is all that a string literal of a tree holds, or it is in an error. -/
inductive Keeps (root : Tree) (xs : List (Kind × Text)) (l : Lexeme) (ys : List (Kind × Text)) : Prop where
  | literal {cs : List Tree} (amid : root.Amid xs (.node .stringLit cs) ys) (leaves : leavesOf cs = l.pieces)
  | error {before us vs after : List (Kind × Text)} {cs : List Tree} (amid : root.Amid before (.node .error cs) after)
      (leaves : leavesOf cs = us ++ l.pieces ++ vs) (front : before ++ us = xs) (back : vs ++ after = ys)

/-- A row of trees is amid some leaves. -/
def AmidRow (root : Tree) (xs : List (Kind × Text)) (ts : List Tree) (ys : List (Kind × Text)) : Prop :=
  ∀ us t vs, ts = us ++ t :: vs → root.Amid (xs ++ leavesOf us) t (leavesOf vs ++ ys)

namespace AmidRow

variable {root t : Tree} {ts : List Tree} {xs ys : List (Kind × Text)}

theorem single : AmidRow root [] [root] [] := by
  intro us t vs h
  obtain ⟨rfl, rfl, rfl⟩ : us = [] ∧ t = root ∧ vs = [] := by simpa [List.append_eq_singleton_iff, eq_comm] using h
  exact .root

theorem children {k : Kind} (h : root.Amid xs (.node k ts) ys) : AmidRow root xs ts ys := by
  rintro us t vs rfl
  exact .child h

theorem first (h : AmidRow root xs (t :: ts) ys) : root.Amid xs t (leavesOf ts ++ ys) := by
  have hfirst := h [] t ts rfl
  rwa [leavesOf, List.append_nil] at hfirst

theorem rest (h : AmidRow root xs (t :: ts) ys) : AmidRow root (xs ++ t.leaves) ts ys := by
  rintro us u vs rfl
  have hrest := h (t :: us) u vs rfl
  rwa [leavesOf, ← List.append_assoc] at hrest

end AmidRow

/-- In a row of trees every string of the row of lexemes that it covers is kept whole. By induction on the row, and in a node that is no
string literal and no error on the row of its children. -/
theorem Covers.keeps {root : Tree} {ts : List Tree} {ls : List Lexeme} (h : Covers ts ls) {xs ys : List (Kind × Text)}
    (hrow : AmidRow root xs ts ys) {before after : List Lexeme} {l : Lexeme} (hls : ls = before ++ l :: after) (hl : l.isString = true) :
    Keeps root (xs ++ before.flatMap pieces) l (after.flatMap pieces ++ ys) := by
  induction h generalizing xs ys before after with
  | nil => cases before <;> cases hls
  | @leaf m ts ls plain more ih =>
    rcases cases_of_append_cons (show [m] ++ ls = _ from hls) with ⟨us, hone, -⟩ | ⟨us, rfl, hrest⟩
    · obtain ⟨-, rfl, -⟩ : before = [] ∧ m = l ∧ us = [] := by simpa [List.append_eq_cons_iff, eq_comm] using hone
      cases plain.symm.trans hl
    · have hkeeps := ih hrow.rest hrest
      rwa [Tree.leaves, ← Lexeme.pieces_of_not_isString plain, List.append_assoc] at hkeeps
  | @string m cs ts ls quoted leaves parts more ih =>
    rcases cases_of_append_cons (show [m] ++ ls = _ from hls) with ⟨us, hone, rfl⟩ | ⟨us, rfl, hrest⟩
    · obtain ⟨rfl, rfl, rfl⟩ : before = [] ∧ m = l ∧ us = [] := by simpa [List.append_eq_cons_iff, eq_comm] using hone
      have hamid := hrow.first
      rw [more.leaves] at hamid
      exact .literal (by rwa [List.flatMap_nil, List.append_nil]) leaves
    · have hkeeps := ih hrow.rest hrest
      rwa [Tree.leaves, leaves, List.append_assoc] at hkeeps
  | @error ks cs ts ls leaves flat more ih =>
    rcases cases_of_append_cons hls with ⟨us, rfl, rfl⟩ | ⟨us, rfl, hrest⟩
    · have hamid := hrow.first
      rw [more.leaves] at hamid
      have hleaves : leavesOf cs = before.flatMap pieces ++ l.pieces ++ us.flatMap pieces := by
        rw [leaves, List.flatMap_append, List.flatMap_cons, List.append_assoc]
      exact .error hamid hleaves rfl (by rw [List.flatMap_append, List.append_assoc])
    · have hkeeps := ih hrow.rest hrest
      rwa [Tree.leaves, leaves, List.append_assoc, ← List.flatMap_append] at hkeeps
  | @node j ks cs ts ls kind inside more ihInside ih =>
    rcases cases_of_append_cons hls with ⟨us, rfl, rfl⟩ | ⟨us, rfl, hrest⟩
    · have hamid := hrow.first
      rw [more.leaves] at hamid
      have hinside := ihInside (.children hamid) rfl
      rwa [← List.append_assoc, ← List.flatMap_append] at hinside
    · have hkeeps := ih hrow.rest hrest
      rwa [Tree.leaves, inside.leaves, List.append_assoc, ← List.flatMap_append] at hkeeps

/-! ## What the nodes of a tree cover -/

/-- A tree that is amid some leaves covers lexemes amid others of which these are the pieces. -/
def Fills (ls : List Lexeme) (xs : List (Kind × Text)) (t : Tree) (ys : List (Kind × Text)) : Prop :=
  ∃ before ks after, ls = before ++ (ks ++ after) ∧ Covers [t] ks ∧ before.flatMap pieces = xs ∧ after.flatMap pieces = ys

/-- So does a child of such a tree, unless it is a part of a string. -/
theorem Fills.child {ls : List Lexeme} {xs ys : List (Kind × Text)} {k : Kind} {us vs : List Tree} {c : Tree}
    (h : Fills ls xs (.node k (us ++ c :: vs)) ys) : c.isPart = true ∨ Fills ls (xs ++ leavesOf us) c (leavesOf vs ++ ys) := by
  obtain ⟨before, ks, after, rfl, hcovers, rfl, rfl⟩ := h
  have hc : c ∈ us ++ c :: vs := List.mem_append_right us List.mem_cons_self
  cases hcovers with
  | string quoted leaves parts more => exact .inl (parts c hc)
  | error leaves flat more => exact .inl (isPart_of_isLeaf (flat c hc))
  | @node _ ks _ _ rest kind inside more =>
    cases more
    obtain ⟨k₁, m, rfl, hus, hm⟩ := inside.split
    obtain ⟨k₂, k₃, rfl, hone, hvs⟩ := Covers.split (show Covers ([c] ++ vs) m from hm)
    refine .inr ⟨before ++ k₁, k₂, k₃ ++ after, by simp only [List.append_assoc, List.append_nil], hone, ?_, ?_⟩
    · rw [List.flatMap_append, hus.leaves]
    · rw [List.flatMap_append, hvs.leaves]

/-- Every node of a tree that covers lexemes covers some of them, unless it is a part of a string. -/
theorem Covers.fills {root : Tree} {ls : List Lexeme} (h : Covers [root] ls) {xs ys : List (Kind × Text)} {t : Tree}
    (ht : root.Amid xs t ys) : t.isPart = true ∨ Fills ls xs t ys := by
  induction ht with
  | root => exact .inr ⟨[], ls, [], by simp, h, rfl, rfl⟩
  | child _ ih =>
    rcases ih with hpart | hfills
    · exact .inl (isPart_child hpart (List.mem_append_right _ List.mem_cons_self))
    · exact hfills.child

/-- A string literal holds one string. -/
theorem Covers.string_of_amid {root : Tree} {ls : List Lexeme} (h : Covers [root] ls) {xs ys : List (Kind × Text)} {cs : List Tree}
    (ht : root.Amid xs (.node .stringLit cs) ys) :
    ∃ before l after, ls = before ++ l :: after ∧ l.isString = true ∧ leavesOf cs = l.pieces ∧ before.flatMap pieces = xs ∧
      after.flatMap pieces = ys := by
  rcases h.fills ht with hpart | ⟨before, ks, after, rfl, hcovers, hxs, hys⟩
  · cases hpart
  · cases hcovers with
    | @string l _ _ _ quoted leaves parts more =>
      cases more
      exact ⟨before, l, after, rfl, quoted, leaves, hxs, hys⟩
    | node kind inside more => exact absurd rfl kind.1

end Tree

end Remap
