import Remap.Program
import Remap.Proofs.Parser.Leaves
import Remap.Proofs.Token.Tiling

/-!
# Trees are lossless

The leaves of the tree of a parsed source are its tokens, so the tree holds the source whole, however broken the source is.
-/

namespace Remap

mutual
/-- The text a tree covers is what its leaves spell out. -/
theorem Tree.text_eq_spelled : (t : Tree) → t.text = spelled t.leaves
  | .leaf k t => by simp [Tree.text, Tree.leaves]
  | .node _ cs => by
    rw [Tree.text, Tree.leaves]
    exact Tree.textOf_eq_spelled cs
/-- The text a row of trees covers is what its leaves spell out. -/
theorem Tree.textOf_eq_spelled : (ts : List Tree) → Tree.textOf ts = spelled (Tree.leavesOf ts)
  | [] => rfl
  | t :: ts => by
    rw [Tree.textOf, Tree.leavesOf, spelled_append, Tree.text_eq_spelled t, Tree.textOf_eq_spelled ts]
end

/-- A test that a parsed source passes is passed by what it is parsed to. -/
theorem exists_of_any_parse {o : Options} {source : Text} {test : Parsed → Bool} (h : (parse o source).toOption.any test = true) :
    ∃ p, parse o source = .ok p ∧ test p = true := by
  cases hp : parse o source with
  | error f => rw [hp] at h; cases h
  | ok p => exact ⟨p, rfl, by rw [hp] at h; exact h⟩

theorem leaves_of_parse {o : Options} {source : Text} {p : Parsed} (h : parse o source = .ok p) :
    p.tree.leaves = (scan source o.checkPatterns).tokens.map Token.piece := by
  simp only [parse] at h
  split at h
  · cases h
  · rename_i r hr
    split at h
    · cases h
    · rename_i hfuel
      cases h
      exact Parser.leaves_parseTokens hr (by simpa using hfuel)

/-- The leaves of a parsed source, read from left to right, are its tokens with their kinds and texts: none is lost,
repeated or moved. So the text of the tree is the source. -/
theorem leaves_parse (o : Options) (source : Text) (p : Parsed) (h : parse o source = .ok p) :
    p.tree.leaves = (scan source o.checkPatterns).tokens.map Token.piece ∧ p.tree.text = source := by
  refine ⟨leaves_of_parse h, ?_⟩
  rw [Tree.text_eq_spelled, leaves_of_parse h]
  exact spelled_scan source o.checkPatterns

/-- A source with a group that is never closed, a newline inside it and a stray bracket: its tree still holds the six tokens
in their order. -/
theorem leaves_parse_unclosed :
    ∃ p, parse {} ['(', 'a', '\n', ']', ' ', '1'] = .ok p ∧
      p.tree.leaves = [(.parenOpen, ['(']), (.id, ['a']), (.newline, ['\n']), (.bracketClose, [']']),
        (.whitespace, [' ']), (.integer, ['1'])] ∧
      p.tree.text = ['(', 'a', '\n', ']', ' ', '1'] := by
  have hok : (parse {} ['(', 'a', '\n', ']', ' ', '1']).toOption.isSome = true := by decide +kernel
  cases hp : parse {} ['(', 'a', '\n', ']', ' ', '1'] with
  | error f =>
    rw [hp] at hok
    cases hok
  | ok p =>
    obtain ⟨hleaves, htext⟩ := leaves_parse {} _ p hp
    exact ⟨p, rfl, hleaves.trans (by decide +kernel), htext⟩

end Remap
