import Remap.Proofs.Parser.Leading

/-!
# Statements in a block

Statements mean the same inside a block. A program without diagnostics, on lines of its own between braces, is a program without
diagnostics whose one statement is a block, and the statements of the block are those of the program. The block takes two levels
of nesting: one for the statement that it is, and one for the term.
-/

namespace Remap

namespace Parser

/-- Blanks make no difference to whether an object is opened. -/
theorem isObject_append {blanks ts : List Token} (h : ∀ t ∈ blanks, t.kind.isTrivia = true ∨ t.kind = .newline) :
    Lookahead.isObject (blanks ++ ts) = Lookahead.isObject ts := by
  have hsignificant : Lookahead.significant true (blanks ++ ts) = Lookahead.significant true ts :=
    List.dropWhile_append_of_pos fun t ht => by simpa using h t ht
  unfold Lookahead.isObject
  rw [hsignificant]

/-- A brace, a row of statements with a newline before it, and after it a newline and the closing brace. -/
theorem Enclosed.of_statements {n limit : Nat} {front gap after : List Token} {j : Seam .newline} {brace newline x : Token} {u : State}
    {signed : Bool} (hfronts : Fronts j front) (hend : j.after = [x]) (hx : x.kind = .braceClose) (htidy : Tidy signed (front ++ j.rest))
    (hrun : programStatements.run (runRule n) (opened (front ++ j.tail) limit none) = .ok ((), u)) (hsilent : u.Silent)
    (hsome : Tree.statementsOf u.top.built ≠ []) (hbrace : brace.kind = .braceOpen) (hgap : ∀ t ∈ gap, t.kind.isTrivia = true)
    (hnewline : newline.kind = .newline) (hafter : after.map Token.core = (front ++ j.rest).map Token.core) :
    Enclosed (brace :: (gap ++ newline :: after)) limit .braceOpen .block fun cs =>
      Tree.statementsOf cs = Tree.statementsOf (resultOf u).tree.children := by
  obtain ⟨w, hw, hsilent', hunread, hstatements⟩ := gives_closed hfronts hend hx hrun hsilent
  have hopens : Lookahead.opensObject.holds (brace :: (gap ++ newline :: after)) = false := by
    obtain ⟨-, m, hrun'⟩ := hw
    have hsome' : Tree.statementsOf w.laid ≠ [] := by
      rw [hstatements]
      exact fun hnil => hsome (List.reverse_eq_nil_iff.mp hnil)
    have hobject : Lookahead.isObject (front ++ j.rest) = false :=
      isObject_of_statements (s := opened (front ++ j.rest) limit none) htidy rfl rfl (steady_opened _ _ _) () w hrun' hsilent' hsome'
    rw [← hobject, ← Lookahead.isObject_map (front ++ j.rest), ← map_unplaced (v := .whole) hafter, Lookahead.isObject_map,
      List.append_cons]
    refine isObject_append fun t ht => (List.mem_append.mp ht).imp (hgap t) fun ht => ?_
    rw [List.mem_singleton.mp ht]
    exact hnewline
  rw [statementsOf_resultOf, ← hstatements]
  exact .block ⟨brace, _, rfl, hbrace⟩ hopens fun s hs => leads_block hs hbrace hgap hnewline hafter hw hsilent' hunread hx

end Parser

/-- Where one mark is scanned, there is one token. -/
theorem scan_brace (checkPatterns : Bool) :
    (scan ['\x7b'] checkPatterns).diagnostics = [] ∧ (∃ t, (scan ['\x7b'] checkPatterns).tokens = [t] ∧ t.kind = .braceOpen) ∧
      (scan ['\x7d'] checkPatterns).diagnostics = [] ∧
      (scan ['\x7d'] checkPatterns).tokens.map Token.core = [(.braceClose, ['\x7d'], false)] := by
  cases checkPatterns <;> exact ⟨by decide +kernel, ⟨⟨.braceOpen, ['\x7b'], 0, false⟩, by decide +kernel, rfl⟩, by decide +kernel, by decide +kernel⟩

/-- A source that parses under some limit without diagnostics, to at least one statement, can be put in braces on lines of its
own. Under a limit greater by two the result parses without diagnostics to one statement. That is a block, and the dumps of the
statements in it are those of the statements of the source. -/
theorem parse_enclosed (limit : Nat) (checkPatterns : Bool) (source : Text) (p : Parsed)
    (hp : parse { limit, checkPatterns } source = .ok p) (hclean : p.diagnostics = []) (hsome : p.statements ≠ []) :
    ∃ r block statements, parse { limit := limit + 2, checkPatterns } ("\x7b\n".toList ++ source ++ "\n\x7d".toList) = .ok r ∧
      r.diagnostics = [] ∧ r.statements = [block] ∧ block.expr? = some (.block statements) ∧
      statements.map (Dump.expr r.tree.height false 1) = p.statementDumps := by
  obtain ⟨hscan, n, u, hrun, hsilent, htree⟩ := Parser.statements_of_parse hp hclean
  obtain ⟨hopen, ⟨brace, hbrace, hkind⟩, hclose, hcore⟩ := scan_brace checkPatterns
  -- the closing brace is joined to the source, and then all of it to the opening brace
  obtain ⟨hscan', front, j, hfirm, htokens, hrest, hafter⟩ := scan_joined hscan hclose
  obtain ⟨hscan'', front', j', hfirm', htokens', hrest', hafter'⟩ := scan_joined hopen hscan'
  rw [hcore] at hafter
  obtain ⟨x, xs, hend, hx, hxs⟩ := List.map_eq_cons_iff.mp hafter
  obtain rfl := List.map_eq_nil_iff.mp hxs
  have hfront : front' = [brace] := by
    rw [hbrace] at htokens'
    rcases List.append_eq_singleton_iff.mp htokens'.symm with ⟨-, htail⟩ | ⟨hfront, -⟩
    · have htrivia := j'.tail_trivia brace (htail ▸ List.mem_singleton_self _)
      rw [hkind] at htrivia
      cases htrivia
    · exact hfront
  rw [hfront, Seam.rest_eq] at hrest'
  rw [htokens] at hrun
  rw [hrest] at hafter'
  have hbuilt : Tree.statementsOf u.top.built ≠ [] := by
    intro hnil
    have htrees : p.statements.map (·.tree) = [] := by
      rw [Parsed.statements, Node.statementsOf_children]
      show Tree.statementsOf p.tree.children = []
      rw [htree, Parser.statementsOf_resultOf, hnil, List.reverse_nil]
    exact hsome (List.map_eq_nil_iff.mp htrees)
  have hblock := Parser.Enclosed.of_statements (Parser.fronts_of_scan hscan hfirm htokens) hend (congrArg Prod.fst hx)
    (hrest ▸ tidy_scan hscan') hrun hsilent hbuilt hkind j'.gap_trivia j'.stop_kind hafter'
  have hsource : "\x7b\n".toList ++ source ++ "\n\x7d".toList = ['\x7b'] ++ '\n' :: (source ++ '\n' :: ['\x7d']) := by simp
  rw [← List.singleton_append, ← hrest'] at hblock
  rw [hsource]
  obtain ⟨r, block, cs, hr, hclean', hone, hnode, hheight, hstatements⟩ := hblock.parse hscan''
  refine ⟨r, block, block.exprs, hr, hclean', hone, ?_, ?_⟩
  · obtain ⟨offset, tree⟩ := block
    cases hnode
    rfl
  · rw [Node.map_dump_exprs hheight, Parsed.statementDumps_eq, hnode, htree]
    exact congrArg _ hstatements

/-- A string on a line of its own, an assignment, and a block, with a comment at the end. -/
theorem parse_enclosed_lines :
    ∃ p r block statements, parse { limit := 9 } "\"a\"\n.b = \x7b 1 \x7d # c".toList = .ok p ∧ p.diagnostics = [] ∧
      p.statements.length = 2 ∧
      parse { limit := 11 } ("\x7b\n".toList ++ "\"a\"\n.b = \x7b 1 \x7d # c".toList ++ "\n\x7d".toList) = .ok r ∧
      r.diagnostics = [] ∧ r.statements = [block] ∧ block.expr? = some (.block statements) ∧
      statements.map (Dump.expr r.tree.height false 1) = p.statementDumps := by
  have hreads : (parse { limit := 9 } "\"a\"\n.b = \x7b 1 \x7d # c".toList).toOption.any
      (fun p => p.diagnostics.isEmpty && p.statements.length == 2) = true := by decide +kernel
  cases hp : parse { limit := 9 } "\"a\"\n.b = \x7b 1 \x7d # c".toList with
  | error f => rw [hp] at hreads; cases hreads
  | ok p =>
    rw [hp] at hreads
    simp only [Except.toOption, Option.any_some, Bool.and_eq_true, List.isEmpty_iff, beq_iff_eq] at hreads
    obtain ⟨hclean, hlength⟩ := hreads
    have hsome : p.statements ≠ [] := fun hnil => by rw [hnil] at hlength; cases hlength
    obtain ⟨r, block, statements, hr, hclean', hone, hblock, hdumps⟩ := parse_enclosed 9 false _ p hp hclean hsome
    exact ⟨p, r, block, statements, rfl, hclean, hlength, hr, hclean', hone, hblock, hdumps⟩

end Remap
