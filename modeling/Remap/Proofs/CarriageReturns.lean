import Remap.Proofs.Concatenation
import Remap.Proofs.Token.LineEnds

/-!
# Sources with carriage returns

A program without diagnostics has none with a carriage return before every newline, and it has as many statements then. The
exception are strings with an escaped newline in them: what is escaped there is the carriage return.
-/

namespace Remap

/-- As many statements are seen as there are. -/
theorem Tree.length_statementsOf {v : Glimpse} {ts us : List Tree} (h : seenOf v us = seenOf v ts) :
    (statementsOf us).length = (statementsOf ts).length := by
  have hseen (rs : List Tree) : (statementsOf (seenOf v rs)).length = (statementsOf rs).length := by
    have hexpr : isExpr ∘ seen v = isExpr := by
      funext t
      cases t <;> rfl
    rw [seenOf_eq, statementsOf, List.filter_map, hexpr, List.length_map]
    rfl
  rw [← hseen, h, hseen]

theorem Parsed.length_statements (p : Parsed) : p.statements.length = (Tree.statementsOf p.tree.children).length := by
  rw [← List.length_map, statements, Node.statementsOf_children]
  rfl

namespace Parser

variable {v : Glimpse} {tokens more : List Token} {limit n : Nat}

/-- Two rows of tokens that look the same, at the start of the node of the program. -/
theorem echoes_opened (h : more.map (Token.seen v) = tokens.map (Token.seen v)) (limit : Nat) (fuel : Option Nat) :
    Echoes v [] (opened tokens limit fuel) (opened more limit fuel) where
  unread := h
  held := rfl
  label _ := rfl
  built := rfl
  labelled hne := absurd rfl hne
  leaf _ ht := by cases ht
  delimiters := rfl
  separating := rfl
  depth := Nat.le_refl _
  room := Nat.le_refl _
  overflowed := rfl
  fuel := rfl
  exhausted := rfl

/-- Where one row of tokens is read silently, so is another one that looks the same, and as many statements are found. -/
theorem gives_alike {u : State} (h : more.map (Token.seen v) = tokens.map (Token.seen v))
    (hrun : programStatements.run (runRule n) (opened tokens limit none) = .ok ((), u)) (hsilent : u.Silent) :
    ∃ u', Gives programStatements (opened more limit none) (.ok ((), u')) ∧ u'.reports = [] ∧
      (Tree.statementsOf (resultOf u').tree.children).length = (Tree.statementsOf (resultOf u).tree.children).length := by
  rcases repeats_rule n (.statements none) [] _ _ (echoes_opened h limit none) (steady_opened _ _ _) () u hrun hsilent with
    ⟨u', hrun', hrepeated⟩ | hstuck
  · refine ⟨u', .of_run hrun', hrepeated.reports, ?_⟩
    have hbuilt := hrepeated.echoes.built
    rw [List.append_nil] at hbuilt
    rw [statementsOf_resultOf, statementsOf_resultOf, List.length_reverse, List.length_reverse]
    exact Tree.length_statementsOf hbuilt
  · exact absurd (.of_stuck hstuck) (not_gives_statements_stuck more limit none)

end Parser

/-- A source without carriage returns and without escaped newlines that parses without diagnostics under some limit parses without
diagnostics under that limit with a carriage return before every newline, too, and has as many statements. -/
theorem parse_crlf (limit : Nat) (source : Text) (p : Parsed) (hp : parse { limit } source = .ok p) (hclean : p.diagnostics = [])
    (hreturn : '\r' ∉ source) (hescape : ∀ t ∈ (scan source false).tokens, t.kind = .escape → t.text ≠ ['\\', '\n']) :
    ∃ q, parse { limit } source.crlf = .ok q ∧ q.diagnostics = [] ∧ q.statements.length = p.statements.length := by
  obtain ⟨hscan, n, u, hrun, hsilent, htree⟩ := Parser.statements_of_parse hp hclean
  obtain ⟨hscan', htokens⟩ := scan_crlf hscan hreturn hescape
  obtain ⟨u', hgives, hreports, hlength⟩ := Parser.gives_alike htokens hrun hsilent
  refine ⟨_, Parser.parse_of_statements hgives, ?_, ?_⟩
  · show ((scan source.crlf false).diagnostics ++ u'.reports.reverse).sortByPosition.locate _ = []
    rw [hscan', hreports]
    simp [Diagnostics.sortByPosition, Diagnostics.locate]
  · rw [Parsed.length_statements, Parsed.length_statements, htree]
    exact hlength

/-- A comment, a call over several lines, a raw string that spans lines and blanks before a newline. -/
theorem parse_crlf_lines :
    ∃ p q, parse {} "x = f(1,\n  s'a\nb') # c\n\n.y = \"d\\n\" \n".toList = .ok p ∧ p.diagnostics = [] ∧
      parse {} (Text.crlf "x = f(1,\n  s'a\nb') # c\n\n.y = \"d\\n\" \n".toList) = .ok q ∧ q.diagnostics = [] ∧
      q.statements.length = p.statements.length ∧ p.statements.length = 2 := by
  have hfirst : (parse {} "x = f(1,\n  s'a\nb') # c\n\n.y = \"d\\n\" \n".toList).toOption.any
      (fun p => p.diagnostics.isEmpty && p.statements.length == 2) = true := by decide +kernel
  cases hp : parse {} "x = f(1,\n  s'a\nb') # c\n\n.y = \"d\\n\" \n".toList with
  | error f => rw [hp] at hfirst; cases hfirst
  | ok p =>
    rw [hp] at hfirst
    simp only [Except.toOption, Option.any_some, Bool.and_eq_true, List.isEmpty_iff, beq_iff_eq] at hfirst
    obtain ⟨q, hq, hclean, hlength⟩ := parse_crlf 256 _ p hp hfirst.1 (by decide) (by decide +kernel)
    exact ⟨p, q, rfl, hfirst.1, hq, hclean, hlength, hfirst.2⟩

/-- A string that goes on behind an escaped newline is broken by a carriage return before that newline. -/
theorem parse_escaped_crlf :
    (∃ p, parse {} "\"a\\\nb\"".toList = .ok p ∧ p.diagnostics = [] ∧ p.statements.length = 1) ∧ '\r' ∉ "\"a\\\nb\"".toList ∧
      ∀ q, parse {} (Text.crlf "\"a\\\nb\"".toList) = .ok q → q.diagnostics ≠ [] := by
  refine ⟨?_, by decide, fun q hq hclean => ?_⟩
  · have hparse : (parse {} "\"a\\\nb\"".toList).toOption.any (fun p => p.diagnostics.isEmpty && p.statements.length == 1) = true := by
      decide +kernel
    cases hp : parse {} "\"a\\\nb\"".toList with
    | error f => rw [hp] at hparse; cases hparse
    | ok p =>
      rw [hp] at hparse
      simp only [Except.toOption, Option.any_some, Bool.and_eq_true, List.isEmpty_iff, beq_iff_eq] at hparse
      exact ⟨p, rfl, hparse⟩
  · have hproblems : (scan (Text.crlf "\"a\\\nb\"".toList) false).diagnostics.isEmpty = false := by decide +kernel
    rw [(Parser.statements_of_parse hq hclean).1] at hproblems
    cases hproblems

end Remap
