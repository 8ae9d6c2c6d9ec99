import Remap.Proofs.Completeness
import Remap.Proofs.Lossless
import Remap.Proofs.Parser.Sequence

/-!
# What separates statements

In a source that parses without diagnostics the statements of a program, and those of a block, are told apart by newlines, or by one
semicolon and perhaps newlines behind it. Nothing else stands between them, before the first and behind the last.
-/

namespace Remap

open Tree (withoutTrivia)

/-- A source that is parsed without diagnostics, whatever the options. Its tree is a program. Trivia apart, the children of each program
are newlines, and then expressions with a separator behind each, which may lack behind the last; a separator is one or more newlines, or a
semicolon and perhaps newlines. The same stands between the braces of each block. -/
theorem parse_separated {o : Options} {source : Text} {p : Parsed} (hp : parse o source = .ok p) (hclean : p.diagnostics = []) :
    (∃ cs, p.tree = .node .program cs) ∧
    ∀ {n : Node}, p.root.Within n → n.isLeaf = false →
      (n.kind = .program → Tree.Sequence (withoutTrivia n.tree.children)) ∧
      (n.kind = .block → ∃ opening inner closing, withoutTrivia n.tree.children =
        .leaf .braceOpen opening :: (inner ++ [.leaf .braceClose closing]) ∧ Tree.Sequence inner) := by
  obtain ⟨-, t, hrun, hsilent, hholds⟩ := silent_of_parse hp hclean
  have hsteady : (Parser.State.start (scan source o.checkPatterns).tokens o.limit o.fuel).Steady :=
    ⟨fun _ => ⟨rfl, rfl⟩, fun _ ht => absurd ht List.not_mem_nil⟩
  obtain ⟨cs, hbuilt, hparted⟩ := Parser.parted_program _ _ _ _ hsteady () t hrun hsilent
  have htree : p.tree = .node .program cs := by
    rw [hholds.built] at hbuilt
    exact List.singleton_inj.mp hbuilt
  have hroot : p.root.tree.Parted := by
    rw [show p.root.tree = p.tree from rfl, htree]
    exact hparted
  refine ⟨⟨cs, htree⟩, fun hn hleaf => ?_⟩
  have hsequenced := hroot.sequenced hn hleaf
  exact ⟨hsequenced.program, hsequenced.block⟩

/-- A block with all kinds of separators in it: newlines before its first statement, a comment, a semicolon with newlines, and a
semicolon behind its last statement. -/
theorem parse_separated_block :
    ∃ p n, parse {} "a; if b \x7b\n\nc # d\ne;\n\n\x7b f; \x7d; \x7d\n".toList = .ok p ∧ p.diagnostics = [] ∧ p.root.Within n ∧ n.kind = .block ∧
      (∃ opening inner closing, withoutTrivia n.tree.children =
        .leaf .braceOpen opening :: (inner ++ [.leaf .braceClose closing]) ∧ Tree.Sequence inner) ∧
      (withoutTrivia n.tree.children).map (·.kind) = [.braceOpen, .newline, .newline, .ident, .newline, .ident, .semicolon, .newline,
        .newline, .block, .semicolon, .braceClose] := by
  have hok : (parse {} "a; if b \x7b\n\nc # d\ne;\n\n\x7b f; \x7d; \x7d\n".toList).toOption.any (fun p => p.diagnostics.isEmpty &&
      p.root.nodes.any fun statement => statement.nodes.any fun block => !block.isLeaf && block.kind = .block &&
        (withoutTrivia block.tree.children).map (·.kind) = [.braceOpen, .newline, .newline, .ident, .newline, .ident, .semicolon,
          .newline, .newline, .block, .semicolon, .braceClose]) = true := by decide +kernel
  obtain ⟨p, hp, htest⟩ := exists_of_any_parse hok
  simp only [Bool.and_eq_true, List.isEmpty_iff, List.any_eq_true, Bool.not_eq_true', decide_eq_true_eq] at htest
  obtain ⟨hclean, statement, hstatement, block, hblock, ⟨hleaf, hkind⟩, hrow⟩ := htest
  have hwithin : p.root.Within block := .child (.child .root (List.mem_filter.mp hstatement).1) (List.mem_filter.mp hblock).1
  exact ⟨p, block, hp, hclean, hwithin, hkind, ((parse_separated hp hclean).2 hwithin hleaf).2 hkind, hrow⟩

end Remap
