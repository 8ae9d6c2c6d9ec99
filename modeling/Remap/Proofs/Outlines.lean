import Remap.Proofs.Lossless
import Remap.Proofs.Tree.Outline

/-!
# The full dump is faithful

The dump of a tree with its trivia shows all there is: from it the tree can be told, and from the tree the source. So two sources
with one full dump are one source, parsed to one tree.
-/

namespace Remap

/-- Sources whose trees are dumped alike, trivia included, are one source, and their trees are one tree, however each of them was
parsed. -/
theorem eq_of_dumpTree {o₁ o₂ : Options} {s₁ s₂ : Text} {p₁ p₂ : Parsed} (h₁ : parse o₁ s₁ = .ok p₁) (h₂ : parse o₂ s₂ = .ok p₂)
    (h : p₁.dumpTree { trivia := true, spans := false } = p₂.dumpTree { trivia := true, spans := false }) :
    s₁ = s₂ ∧ p₁.tree = p₂.tree := by
  have htree : p₁.tree = p₂.tree := Dump.eq_of_outline h
  refine ⟨?_, htree⟩
  calc s₁ = p₁.tree.text := (leaves_parse o₁ s₁ p₁ h₁).2.symm
    _ = p₂.tree.text := by rw [htree]
    _ = s₂ := (leaves_parse o₂ s₂ p₂ h₂).2

/-- A string over two lines, with a quote and a backslash in it and a comment behind it, parsed under two limits. -/
theorem eq_of_dumpTree_string :
    ∃ p₁ p₂, parse {} "a = \"b\n \\\"\\\\\" # c".toList = .ok p₁ ∧ parse { limit := 4 } "a = \"b\n \\\"\\\\\" # c".toList = .ok p₂ ∧
      p₁.dumpTree { trivia := true, spans := false } = p₂.dumpTree { trivia := true, spans := false } ∧ p₁.tree = p₂.tree := by
  have hboth : (parse {} "a = \"b\n \\\"\\\\\" # c".toList).toOption.any (fun p₁ =>
      (parse { limit := 4 } "a = \"b\n \\\"\\\\\" # c".toList).toOption.any fun p₂ =>
        p₁.dumpTree { trivia := true, spans := false } = p₂.dumpTree { trivia := true, spans := false }) = true := by
    decide +kernel
  obtain ⟨p₁, hp₁, hrest⟩ := exists_of_any_parse hboth
  obtain ⟨p₂, hp₂, hdump⟩ := exists_of_any_parse hrest
  exact ⟨p₁, p₂, hp₁, hp₂, of_decide_eq_true hdump, (eq_of_dumpTree hp₁ hp₂ (of_decide_eq_true hdump)).2⟩

end Remap
