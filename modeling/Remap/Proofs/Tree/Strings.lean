import Remap.Proofs.Tree.Spelled

/-!
# Strings in trees

The parts of a string follow from the children of its node, blanks apart: text, escapes and templates between two quotes.
-/

namespace Remap

/-- A row of children, blanks apart, that stands for parts of a string. -/
inductive Tree.SpellsParts : List Tree → List StringPart → Prop
  | nil : SpellsParts [] []
  | text {ts : List Tree} {parts : List StringPart} (t : Text) (h : SpellsParts ts parts) :
      SpellsParts (.leaf .strText t :: ts) (StringPart.prepend t parts)
  | escape {ts : List Tree} {parts : List StringPart} (t : Text) (h : SpellsParts ts parts) :
      SpellsParts (.leaf .escape t :: ts) (StringPart.prepend (Literal.decodeEscape t) parts)
  | template {ts cs : List Tree} {parts : List StringPart} {name : Text} (h : SpellsParts ts parts)
      (hname : ∀ start, (Node.mk start (.node .template cs)).leafText? .id = some name) :
      SpellsParts (.node .template cs :: ts) (.template name :: parts)

/-- The children of a string that has parts, and both its quotes. -/
def Tree.SpellsString (cs : List Tree) (parts : List StringPart) : Prop :=
  ∃ q e ts, Tree.solid cs = .leaf .doubleQuote q :: (ts ++ [.leaf .doubleQuote e]) ∧ SpellsParts ts parts

namespace Node

open Tree (SpellsParts SpellsString)

variable {ns : List Node} {ts cs : List Tree} {parts : List StringPart}

theorem partsOf_cons_leaf {n : Node} {k : Kind} {t : Text} (h : n.tree = .leaf k t) (htext : k ≠ .strText) (hescape : k ≠ .escape)
    (ns : List Node) : partsOf (n :: ns) = partsOf ns := by
  rw [partsOf, h]
  cases k <;> first | rfl | exact absurd rfl htext | exact absurd rfl hescape

/-- Blanks are no part of a string. -/
theorem partsOf_solidOf (ns : List Node) : partsOf (solidOf ns) = partsOf ns := by
  induction ns with
  | nil => rfl
  | cons n ns ih =>
    by_cases hblank : n.tree.isBlank = true
    · obtain ⟨k, t, htree⟩ : ∃ k t, n.tree = .leaf k t := by
        cases htree : n.tree with
        | leaf k t => exact ⟨k, t, rfl⟩
        | node k cs =>
          rw [htree] at hblank
          cases hblank
      have hk := kind_of_isBlank hblank
      rw [kind, htree] at hk
      rw [solidOf_cons_blank ns hblank, ih, partsOf_cons_leaf htree]
      · exact (Kind.ne_of_blank hk (by decide))
      · exact (Kind.ne_of_blank hk (by decide))
    · rw [solidOf_cons_solid ns (Bool.eq_false_iff.mpr hblank), partsOf, partsOf, ih]

/-- The parts that children stand for, up to a quote. -/
theorem partsOf_of_spells (h : SpellsParts ts parts) {e : Text} (hns : ns.map (·.tree) = ts ++ [.leaf .doubleQuote e]) :
    partsOf ns = parts := by
  induction h generalizing ns with
  | nil =>
    obtain ⟨start, rfl⟩ := exists_of_map_singleton hns
    rfl
  | text t _ ih | escape t _ ih =>
    obtain ⟨start, more, rfl, hmore⟩ := exists_of_map_cons hns
    rw [partsOf, ih hmore]
  | template _ hname ih =>
    obtain ⟨start, more, rfl, hmore⟩ := exists_of_map_cons hns
    rw [partsOf, ih hmore, hname]
    rfl

theorem isQuote_of_spells (h : SpellsParts ts parts) : ∀ t ∈ ts, Shape.isQuote t = false := by
  induction h with
  | nil => exact fun t ht => absurd ht List.not_mem_nil
  | text _ _ ih | escape _ _ ih | template _ _ ih =>
    intro t ht
    rcases List.mem_cons.mp ht with rfl | ht
    · rfl
    · exact ih t ht

/-- A string that has parts is a literal of these parts. -/
theorem expr?_of_spellsString (h : SpellsString cs parts) (start : Nat) :
    (Node.mk start (.node .stringLit cs)).expr? = some (.literal (.string parts true)) := by
  obtain ⟨q, e, ts, hsolid, hts⟩ := h
  have hterminated : (Node.mk start (.node .stringLit cs)).isTerminated = true :=
    (Shape.stringLit (isQuote_of_spells hts)).complete start cs hsolid
  have hparts : (Node.mk start (.node .stringLit cs)).stringParts = parts := by
    have hmap : (Node.mk start (.node .stringLit cs)).solid.map (·.tree) = _ := (map_tree_solid _).trans hsolid
    obtain ⟨start', more, hmore, hrest⟩ := exists_of_map_cons hmap
    rw [stringParts, ← partsOf_solidOf, show solidOf _ = _ from hmore, partsOf_cons_leaf rfl (by decide) (by decide)]
    exact partsOf_of_spells hts hrest
  show some (Expr.literal (.string (Node.mk start (.node .stringLit cs)).stringParts
    (Node.mk start (.node .stringLit cs)).isTerminated)) = _
  rw [hterminated, hparts]

end Node

end Remap
