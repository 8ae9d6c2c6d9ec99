import Remap.Proofs.Completeness
import Remap.Proofs.Parser.Crossing
import Remap.Proofs.Tree.Levels

/-!
# Programs one after the other

Two programs without diagnostics can be joined by a newline: there are none in the joined program, and its statements are those
of the first and then those of the second. Nothing of the first reaches across the newline: no lexeme, no open delimiter, no
nesting, and no trivia that was held back.
-/

namespace Remap

/-! ## Statements -/

/-- The trees of the statements in a row of trees. -/
def Tree.statementsOf (ts : List Tree) : List Tree := ts.filter Tree.isExpr

theorem Tree.statementsOf_reverse (ts : List Tree) : statementsOf ts.reverse = (statementsOf ts).reverse := List.filter_reverse ..

theorem Tree.statementsOf_append (ts us : List Tree) : statementsOf (ts ++ us) = statementsOf ts ++ statementsOf us :=
  List.filter_append ..

/-- Leaves are no statements. -/
theorem Tree.statementsOf_leaves (ts : List Token) : statementsOf (ts.map Token.leaf) = [] := by
  refine List.filter_eq_nil_iff.mpr fun t ht => ?_
  obtain ⟨x, -, rfl⟩ := List.mem_map.mp ht
  exact Bool.false_ne_true

/-- Nor are blanks. -/
theorem Tree.statementsOf_solid (ts : List Tree) : statementsOf (solid ts) = statementsOf ts := by
  rw [solid, statementsOf, List.filter_filter]
  refine List.filter_congr fun t _ => ?_
  cases t with
  | leaf k text => rfl
  | node k cs => exact Bool.and_true _

/-- The trees of the expressions among the children of a node. -/
theorem Node.statementsOf_children (n : Node) : n.exprs.map (·.tree) = Tree.statementsOf n.tree.children := by
  rw [Node.map_tree_exprs]
  exact Tree.statementsOf_solid _

/-- The dumps of these expressions without spans depend on their trees only. -/
theorem Node.map_dump_exprs {n : Node} {levels : Nat} (hlevels : n.height ≤ levels) :
    n.exprs.map (Dump.expr levels false 1) =
      (Tree.statementsOf n.tree.children).map fun t => Dump.expr t.height false 1 ⟨0, t⟩ := by
  rw [← Node.statementsOf_children, List.map_map]
  refine List.map_congr_left fun m hm => ?_
  rw [Dump.expr_levels (Nat.le_of_lt (Nat.lt_of_lt_of_le (Node.height_of_mem_exprs hm) hlevels))]
  exact Dump.respects_expr m.height 1 m ⟨0, m.tree⟩ rfl

namespace Parsed

/-- The dumps of the statements without spans, as they stand in the dump of the program. -/
def statementDumps (p : Parsed) : List (List Text) := p.statements.map (Dump.expr p.tree.height false 1)

/-- They depend on the trees of the statements only. -/
theorem statementDumps_eq (p : Parsed) :
    p.statementDumps = (Tree.statementsOf p.tree.children).map fun t => Dump.expr t.height false 1 ⟨0, t⟩ :=
  Node.map_dump_exprs (Nat.le_refl _)

end Parsed

namespace Parser

/-- The tokens of a source without lexical problems, with something after it that stops them, can be read up to that. -/
theorem fronts_of_scan {source : Text} {checkPatterns : Bool} (h : (scan source checkPatterns).diagnostics = []) {front : List Token}
    {stop : Kind} {j : Seam stop} (hfirm : Firm front) (htokens : (scan source checkPatterns).tokens = front ++ j.tail) : Fronts j front := by
  have htidy := tidy_scan h
  rw [htokens] at htidy
  exact ⟨hfirm, htidy.whole, htidy.braced⟩

/-- Both runs begin at the start of the first row. -/
theorem beside_opened {front : List Token} {stop : Kind} {j : Seam stop} (h : Fronts j front) (limit : Nat) :
    Beside j (opened (front ++ j.tail) limit none) (opened (front ++ j.rest) limit none) :=
  ⟨rfl, .inl ⟨front, h, rfl, rfl⟩⟩

/-- A source parses without diagnostics if its tokens and its statements are read without any. -/
theorem parse_of_statements {limit : Nat} {checkPatterns : Bool} {source : Text} {u : State}
    (h : Gives programStatements (opened (scan source checkPatterns).tokens limit none) (.ok ((), u))) :
    parse { limit, checkPatterns } source =
      .ok ⟨(resultOf u).tree, ((scan source checkPatterns).diagnostics ++ (resultOf u).diagnostics).sortByPosition.locate source⟩ := by
  have hfuel : u.exhausted = false := by
    obtain ⟨-, n, hrun⟩ := h
    exact (respected_unbounded.run hrun ⟨rfl, rfl⟩).fuelled
  have hexhausted : (resultOf u).exhausted = false := hfuel
  simp only [parse, parseTokens_of_statements h, hexhausted, Bool.false_eq_true, if_false]

/-- The children of a program after a state are those built so far, and leaves. -/
theorem statementsOf_resultOf (u : State) : Tree.statementsOf (resultOf u).tree.children = (Tree.statementsOf u.top.built).reverse := by
  show Tree.statementsOf u.skip.drain.top.built.reverse = _
  rw [State.drain_eq, State.skip_eq]
  rw [Tree.statementsOf_reverse, Tree.statementsOf_append, ← List.map_reverse, Tree.statementsOf_leaves, List.nil_append]

/-- Reading the newline adds leaves only. -/
theorem Crossed.statementsOf_built {j : Seam .newline} {u v : State} (h : Crossed j u v) :
    Tree.statementsOf v.top.built = Tree.statementsOf u.top.built ∧ v.reports = u.reports := by
  obtain ⟨_, ⟨-, held, -, rfl⟩, rfl⟩ := h
  refine ⟨?_, rfl⟩
  show Tree.statementsOf ([j.stop].map Token.leaf ++ (((held ++ j.gap).map Token.leaf).reverse ++ u.top.built)) = _
  rw [Tree.statementsOf_append, Tree.statementsOf_append, ← List.map_reverse, Tree.statementsOf_leaves, Tree.statementsOf_leaves,
    List.nil_append, List.nil_append]

/-- Where the second row was read after other trees, the statements are those among the trees and then those of the row. -/
theorem Echoes.statementsOf_resultOf {pre : List Tree} {w w' : State} (h : Echoes .whole pre w w') :
    Tree.statementsOf (resultOf w').tree.children =
      (Tree.statementsOf pre).reverse ++ Tree.statementsOf (resultOf w).tree.children := by
  rw [Parser.statementsOf_resultOf, Parser.statementsOf_resultOf, h.built_eq, Tree.statementsOf_append, List.reverse_append]

/-- The statements of two rows of tokens that are joined. -/
theorem gives_joined {n m limit : Nat} {front more : List Token} {j : Seam .newline} {u w : State} (hfronts : Fronts j front)
    (hmore : j.after.map Token.core = more.map Token.core)
    (hrun : programStatements.run (runRule n) (opened (front ++ j.tail) limit none) = .ok ((), u)) (hsilent : u.Silent)
    (hrun' : programStatements.run (runRule m) (opened more limit none) = .ok ((), w)) (hsilent' : w.Silent) :
    ∃ w', Gives programStatements (opened (front ++ j.rest) limit none) (.ok ((), w')) ∧ w'.reports = [] ∧
      Tree.statementsOf (resultOf w').tree.children =
        Tree.statementsOf (resultOf u).tree.children ++ Tree.statementsOf (resultOf w).tree.children := by
  rcases crosses_programStatements (fun k (hk : k ∈ (none : Option Kind)) => nomatch hk) n (beside_opened hfronts limit) (steady_opened _ _ _) hrun hsilent with hstuck | ⟨v, hv, hresumes⟩
  · exact absurd hstuck (not_gives_statements_stuck _ _ _)
  obtain ⟨hbuilt, hreports⟩ := hv.statementsOf_built
  have hechoes := hv.echoes hrun hsilent hmore
  rcases gives_of_resumes hresumes hechoes (steady_opened _ _ _) hrun' hsilent' with hstuck | ⟨w', hgives, hw⟩
  · exact absurd hstuck (not_gives_statements_stuck _ _ _)
  refine ⟨w', hgives, hw.reports.trans (hreports.trans hsilent.reports), ?_⟩
  rw [hw.echoes.statementsOf_resultOf, hbuilt, Parser.statementsOf_resultOf u]

/-- The statements of a source that parses without diagnostics are read silently. -/
theorem statements_of_parse {limit : Nat} {checkPatterns : Bool} {source : Text} {p : Parsed}
    (h : parse { limit, checkPatterns } source = .ok p) (hclean : p.diagnostics = []) :
    (scan source checkPatterns).diagnostics = [] ∧
      ∃ n u, programStatements.run (runRule n) (opened (scan source checkPatterns).tokens limit none) = .ok ((), u) ∧ u.Silent ∧
        p.tree = (resultOf u).tree := by
  obtain ⟨hscan, t, hrun, hsilent, hholds⟩ := silent_of_parse h hclean
  refine ⟨hscan, ?_⟩
  obtain ⟨tree, hfinish⟩ := finish_program hrun
  obtain ⟨n, u, hstatements, hresult⟩ := statements_of_parseTokens (parseTokens_eq_ok.mpr ⟨t, hrun, hfinish⟩)
  have htree : tree = p.tree := by
    have hbuilt := (State.holds_of_finish hfinish).built
    rw [hholds.built] at hbuilt
    exact (List.singleton_inj.mp hbuilt).symm
  have hreports : u.reports = [] := by
    have hdiagnostics := congrArg Result.diagnostics hresult
    rw [hsilent.reports] at hdiagnostics
    exact List.reverse_eq_nil_iff.mp hdiagnostics.symm
  have hexhausted := congrArg Result.exhausted hresult
  exact ⟨n, u, hstatements, ⟨hreports, hexhausted.symm.trans hsilent.fuelled⟩, htree.symm.trans (congrArg Result.tree hresult)⟩

end Parser

/-- Two sources that parse without diagnostics under some limit can be joined by a newline: the joined source parses under
that limit without diagnostics, and the dumps of its statements are those of the first and then those of the second. -/
theorem parse_joined (limit : Nat) (checkPatterns : Bool) (source more : Text) (p q : Parsed)
    (hp : parse { limit, checkPatterns } source = .ok p) (hclean : p.diagnostics = [])
    (hq : parse { limit, checkPatterns } more = .ok q) (hclean' : q.diagnostics = []) :
    ∃ r, parse { limit, checkPatterns } (source ++ '\n' :: more) = .ok r ∧ r.diagnostics = [] ∧
      r.statementDumps = p.statementDumps ++ q.statementDumps := by
  obtain ⟨hscan, n, u, hrun, hsilent, htree⟩ := Parser.statements_of_parse hp hclean
  obtain ⟨hscan', m, w, hrun', hsilent', htree'⟩ := Parser.statements_of_parse hq hclean'
  obtain ⟨hjoined, front, j, hfirm, htokens, hrest, hafter⟩ := scan_joined hscan hscan'
  rw [htokens] at hrun
  obtain ⟨w', hgives, hreports, hstatements⟩ :=
    Parser.gives_joined (Parser.fronts_of_scan hscan hfirm htokens) hafter hrun hsilent hrun' hsilent'
  rw [← hrest] at hgives
  refine ⟨_, Parser.parse_of_statements hgives, ?_, ?_⟩
  · show ((scan (source ++ '\n' :: more) checkPatterns).diagnostics ++ w'.reports.reverse).sortByPosition.locate _ = []
    rw [hjoined, hreports]
    simp [Diagnostics.sortByPosition, Diagnostics.locate]
  · rw [Parsed.statementDumps_eq, Parsed.statementDumps_eq, Parsed.statementDumps_eq, htree, htree']
    show (Tree.statementsOf (Parser.resultOf w').tree.children).map _ = _
    rw [hstatements, List.map_append]

/-- A chain of branches that ends without a newline, and after it an assignment and a comment. -/
theorem parse_joined_branches :
    ∃ p q r, parse {} "if a \x7b1\x7d else \x7b2\x7d".toList = .ok p ∧ p.diagnostics = [] ∧
      parse {} ".b = 3 # c".toList = .ok q ∧ q.diagnostics = [] ∧ q.statements.length = 1 ∧
      parse {} ("if a \x7b1\x7d else \x7b2\x7d".toList ++ '\n' :: ".b = 3 # c".toList) = .ok r ∧ r.diagnostics = [] ∧
      r.statementDumps = p.statementDumps ++ q.statementDumps := by
  have hfirst : (parse {} "if a \x7b1\x7d else \x7b2\x7d".toList).toOption.any (·.diagnostics.isEmpty) = true := by decide +kernel
  have hsecond : (parse {} ".b = 3 # c".toList).toOption.any (fun q => q.diagnostics.isEmpty && q.statements.length == 1) = true := by
    decide +kernel
  cases hp : parse {} "if a \x7b1\x7d else \x7b2\x7d".toList with
  | error f => rw [hp] at hfirst; cases hfirst
  | ok p =>
    cases hq : parse {} ".b = 3 # c".toList with
    | error f => rw [hq] at hsecond; cases hsecond
    | ok q =>
      rw [hp] at hfirst
      rw [hq] at hsecond
      simp only [Except.toOption, Option.any_some, Bool.and_eq_true, List.isEmpty_iff, beq_iff_eq] at hfirst hsecond
      obtain ⟨r, hr, hclean, hdumps⟩ := parse_joined 256 false _ _ p q hp hfirst hq hsecond.1
      exact ⟨p, q, r, rfl, hfirst, rfl, hsecond.1, hsecond.2, hr, hclean, hdumps⟩

end Remap
