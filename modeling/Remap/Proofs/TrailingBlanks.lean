import Remap.Proofs.Concatenation
import Remap.Proofs.Parser.Padding
import Remap.Proofs.Tree.Dump

/-!
# Blanks at the end

A program without diagnostics has the same dump with blanks behind it. It has no diagnostics then either, unless it ends with the block of a
plain `else`, perhaps as the value of an assignment or another statement. That is the only way for a statement to end without a look at what
comes next, so that blanks behind it are taken for a second statement on the same line.
-/

namespace Remap

namespace Parser

variable {j : Seam .error} {u u' : State}

/-- Blanks make no difference to the bare form of the program. -/
theorem Padded.bare_resultOf (h : Padded j u u') : (resultOf u').tree.bare = (resultOf u).tree.bare := by
  obtain ⟨held, hheld, hheld'⟩ := h.held
  have hblank {ts : List Token} (hts : ∀ t ∈ ts, t.kind.isTrivia = true) : Tree.bareOf (ts.map Token.leaf) = [] := by
    rw [Tree.bareOf_eq, List.map_eq_nil_iff, List.filter_eq_nil_iff]
    intro t ht
    obtain ⟨x, hx, rfl⟩ := List.mem_map.mp ht
    simp [Token.leaf, Tree.isTrivia, hts x hx]
  show (Tree.node .program u'.skip.drain.top.built.reverse).bare = (Tree.node .program u.skip.drain.top.built.reverse).bare
  rw [State.skip_of_nil h.unread.1, State.skip_of_nil h.unread.2, Tree.bare, Tree.bare]
  simp only [State.drain_eq, List.reverse_append, List.reverse_reverse, Tree.bareOf_append, hheld, hheld', h.built, List.map_append,
    hblank j.tail_trivia, hblank j.gap_trivia]

/-- The tree of a program shows whether its statements end with a plain `else`. -/
theorem closesElse_resultOf (hnil : u.unread = []) : (resultOf u).tree.closesElse = u.drain.closesElse := by
  have hnode := State.closesElse_node (k := .program) rfl u.skip.drain
  rw [State.skip_of_nil hnil] at hnode
  rw [← hnode]
  show (Tree.node .program u.skip.drain.top.built.reverse).closesElse = _
  rw [State.skip_of_nil hnil]

end Parser

/-- A source that parses without diagnostics under some limit parses under that limit with blanks behind it, with the same dump without
spans. There are no diagnostics exactly if there are no blanks or the source does not end with the block of a plain `else`. -/
theorem parse_padded (limit : Nat) (checkPatterns : Bool) (source blanks : Text) (p : Parsed) (hblanks : ∀ c ∈ blanks, c = ' ' ∨ c = '\t')
    (hp : parse { limit, checkPatterns } source = .ok p) (hclean : p.diagnostics = []) :
    ∃ q, parse { limit, checkPatterns } (source ++ blanks) = .ok q ∧ q.dump false = p.dump false ∧
      (q.diagnostics = [] ↔ blanks = [] ∨ p.tree.closesElse = false) := by
  by_cases hnil : blanks = []
  · subst hnil
    rw [List.append_nil]
    exact ⟨p, hp, rfl, iff_of_true hclean (.inl rfl)⟩
  have hspaces : blanks.all Lexeme.isSpace = true := by
    refine List.all_eq_true.mpr fun c hc => ?_
    rcases hblanks c hc with rfl | rfl <;> rfl
  obtain ⟨hscan, n, u, hrun, hsilent, htree⟩ := Parser.statements_of_parse hp hclean
  obtain ⟨hpadded, front, j, hfirm, hgap, htokens, hrest⟩ := scan_padded hscan hnil hspaces
  rw [htokens] at hrun
  have hfronts := Parser.fronts_of_scan hscan hfirm htokens
  have hpads := Parser.pads_programStatements hgap n _ _ u (Parser.beside_opened hfronts limit) (Parser.steady_opened _ _ _) rfl hrun hsilent
  rcases hpads with hstuck | ⟨_, w, hgives, hw⟩
  · exact absurd hstuck (Parser.not_gives_statements_stuck _ _ _)
  rw [← hrest] at hgives
  refine ⟨_, Parser.parse_of_statements hgives, Parsed.dump_congr (hw.bare_resultOf.trans (congrArg Tree.bare htree.symm)), ?_⟩
  rw [htree, Parser.closesElse_resultOf hw.unread.1, ← hw.reports]
  show ((scan (source ++ blanks) checkPatterns).diagnostics ++ w.reports.reverse).sortByPosition.locate _ = [] ↔ _
  rw [hpadded, List.nil_append]
  constructor
  · exact fun hlocated => .inr (List.reverse_eq_nil_iff.mp (eq_nil_of_located hlocated))
  · intro h
    rw [h.resolve_left hnil]
    simp [Diagnostics.sortByPosition, Diagnostics.locate]

/-- A chain of branches that ends with a condition, and a space and a tab behind it. -/
theorem parse_padded_branches :
    ∃ p q, parse {} "if a \x7b1\x7d else if b \x7b2\x7d".toList = .ok p ∧ p.diagnostics = [] ∧
      parse {} ("if a \x7b1\x7d else if b \x7b2\x7d".toList ++ [' ', '\t']) = .ok q ∧ q.dump false = p.dump false ∧ q.diagnostics = [] := by
  have hclean : (parse {} "if a \x7b1\x7d else if b \x7b2\x7d".toList).toOption.any
      (fun p => p.diagnostics.isEmpty && !p.tree.closesElse) = true := by
    decide +kernel
  cases hp : parse {} "if a \x7b1\x7d else if b \x7b2\x7d".toList with
  | error f => rw [hp] at hclean; cases hclean
  | ok p =>
    rw [hp] at hclean
    simp only [Except.toOption, Option.any_some, Bool.and_eq_true, List.isEmpty_iff, Bool.not_eq_true'] at hclean
    obtain ⟨q, hq, hdump, hdiagnostics⟩ := parse_padded 256 false _ [' ', '\t'] p (by simp) hp hclean.1
    exact ⟨p, q, rfl, hclean.1, hq, hdump, hdiagnostics.mpr (.inr hclean.2)⟩

/-- A blank after a last plain `else` is taken for a second statement on the same line, which is missing: the source parses
without it, and with it there is a report. -/
theorem parse_blank_after_else :
    (parse {} ['i', 'f', ' ', 'a', ' ', '\x7b', '1', '\x7d', ' ', 'e', 'l', 's', 'e', ' ', '\x7b', '2', '\x7d']).toOption.map
        (·.diagnostics.isEmpty) = some true ∧
      (parse {} (['i', 'f', ' ', 'a', ' ', '\x7b', '1', '\x7d', ' ', 'e', 'l', 's', 'e', ' ', '\x7b', '2', '\x7d'] ++ [' '])).toOption.map
        (·.diagnostics.isEmpty) = some false := by
  decide +kernel

end Remap
