import Remap.Proofs.Concatenation
import Remap.Proofs.Parser.InStep
import Remap.Proofs.Tree.Dump

/-!
# Layout makes no difference

Where blanks and comments stand between the tokens of a source, and how long they are, makes no difference to what the source
means: with one space in place of each run of them it has the same dump and the same kinds of diagnostics, in the same order.
-/

namespace Remap

open Parser.State (Paired)

namespace Diagnostics

/-- Two rows of diagnostics that agree one by one, at offsets that meet, are sorted the same way. -/
theorem map_problem_sorted {w : Layouts} {ds ds' : Diagnostics} (h : List.Forall₂ (Parser.Agree w) ds ds') (source source' : Text) :
    (ds'.sortByPosition.locate source').map (·.problem) = (ds.sortByPosition.locate source).map (·.problem) := by
  have hproblem (es : Diagnostics) (text : Text) : (es.locate text).map (·.problem) = es.map (·.problem) := by
    rw [locate, List.map_map]
    rfl
  obtain ⟨hlength, hzip⟩ := List.forall₂_iff_zip.mp h
  have hagree : ∀ x ∈ ds.zip ds', Parser.Agree w x.1 x.2 := fun x hx => hzip hx
  -- both rows are sorted as the row of pairs is
  have hfst := List.map_mergeSort (l := ds.zip ds') (f := Prod.fst) (r := fun x y => decide (x.1.span.start ≤ y.1.span.start))
    (s := fun a b : Diagnostic => decide (a.span.start ≤ b.span.start)) fun _ _ _ _ => rfl
  have hsnd := List.map_mergeSort (l := ds.zip ds') (f := Prod.snd) (r := fun x y => decide (x.1.span.start ≤ y.1.span.start))
    (s := fun a b : Diagnostic => decide (a.span.start ≤ b.span.start)) fun x hx y hy => by
      have hlt := (hagree y hy).2.lt_iff (hagree x hx).2
      exact decide_eq_decide.mpr (by omega)
  rw [List.map_fst_zip (Nat.le_of_eq hlength)] at hfst
  rw [List.map_snd_zip (Nat.le_of_eq hlength.symm)] at hsnd
  rw [hproblem, hproblem, sortByPosition, sortByPosition, ← hfst, ← hsnd, List.map_map, List.map_map]
  exact List.map_congr_left fun x hx => (hagree x (List.mem_mergeSort.mp hx)).1

end Diagnostics

namespace Parser

variable {w : Layouts} {limit : Nat}

/-- Both layouts at the start of the node of the program. -/
theorem paired_opened (w : Layouts) (limit : Nat) :
    Paired w (opened (Token.place 0 none w.first) limit none) (opened (Token.place 0 none w.second) limit none) := by
  have hstart := paired_start w limit
  have hopen (s : State) : (act (.openNode .program)).run (runRule 0) s = .ok ((), s.pushed (some .program)) :=
    Routine.run_single _ _
  exact hstart.after (hopen _) (.single (State.perform_openNode _ _)) (hstart.toAlongside.pushed hstart.front _)

/-- The statements of a program are read in step from two layouts. -/
theorem inStep_programStatements (w : Layouts) (limit n : Nat) :
    InStep n programStatements (opened (Token.place 0 none w.first) limit none) (opened (Token.place 0 none w.second) limit none)
      fun _ => Paired w :=
  inStep_rule rfl (paired_opened w limit) fun _ hover => Bool.noConfusion hover

/-- Programs that were read in step differ in trivia only. -/
theorem State.Paired.bare_resultOf {u u' : State} (h : Paired w u u') : (resultOf u').tree.bare = (resultOf u).tree.bare := by
  have hbuilt := h.toAlongside.skip.drain.top.built.bare
  show (Tree.node .program u'.skip.drain.top.built.reverse).bare = (Tree.node .program u.skip.drain.top.built.reverse).bare
  rw [Tree.bare, Tree.bare, Tree.bareOf_reverse, Tree.bareOf_reverse, hbuilt]

end Parser

/-- A source without stray characters that is empty or ends in a token other than a blank, a comment or a newline parses, and so
does the source with one space in place of every run of blanks and comments. Without spans the dumps of the two are the same,
and so are the kinds of their diagnostics. -/
theorem parse_squeezed (limit : Nat) (checkPatterns : Bool) (source : Text)
    (hgarbage : ∀ t ∈ (scan source checkPatterns).tokens, t.kind ≠ .garbage)
    (hlast : ∀ t, (scan source checkPatterns).tokens.getLast? = some t → t.kind ≠ .whitespace ∧ t.kind ≠ .comment ∧ t.kind ≠ .newline) :
    ∃ p q, parse { limit, checkPatterns } source = .ok p ∧ parse { limit, checkPatterns } (squeezed source) = .ok q ∧
      q.dump false = p.dump false ∧ q.diagnostics.map (·.problem) = p.diagnostics.map (·.problem) := by
  obtain ⟨w, hleft, hright, hscan⟩ := exists_layouts hgarbage
  rcases Parser.parseTokens_cases (scan source checkPatterns).tokens limit none with ⟨r, hr, -⟩ | ⟨-, hfalls⟩
  · obtain ⟨n, u, hrun, -⟩ := Parser.statements_of_parseTokens hr
    have hinStep := Parser.inStep_programStatements w limit n
    rw [← w.lefts_eq, ← w.rights_eq, hleft, hright] at hinStep
    obtain ⟨u', hgives, hpaired⟩ := hinStep () u hrun
    have hlexical : List.Forall₂ (Parser.Agree w) (scan source checkPatterns).diagnostics
        (scan (squeezed source) checkPatterns).diagnostics := by
      refine hscan.imp fun d d' h => ?_
      obtain ⟨hproblem, k, k', hmeets, hstart, hstart'⟩ := h
      rw [Nat.zero_add] at hstart hstart'
      exact ⟨hproblem, by rw [hstart, hstart']; exact hmeets⟩
    have hreported : List.Forall₂ (Parser.Agree w) (Parser.resultOf u).diagnostics (Parser.resultOf u').diagnostics :=
      List.rel_reverse hpaired.reports
    exact ⟨_, _, Parser.parse_of_statements (.of_run hrun), Parser.parse_of_statements hgives,
      Parsed.dump_congr hpaired.bare_resultOf, Diagnostics.map_problem_sorted (List.rel_append hlexical hreported) _ _⟩
  · obtain ⟨t, ht, hkind⟩ := hfalls.getLast
    have hmem : t ∈ (scan source checkPatterns).tokens := List.mem_of_getLast? ht
    obtain ⟨hwhitespace, hcomment, hnewline⟩ := hlast t ht
    have hgarbage := hgarbage t hmem
    revert hkind hwhitespace hcomment hnewline hgarbage
    cases t.kind <;> simp [Kind.isTrivia]

/-- Blanks and comments around what is in doubt of being one call, one path or two words. -/
theorem parse_squeezed_comments :
    ∃ p q, parse {} "x  = f  (1 , a . b)\t# c\n  y [0]".toList = .ok p ∧ parse {} (squeezed "x  = f  (1 , a . b)\t# c\n  y [0]".toList) = .ok q ∧
      q.dump false = p.dump false ∧ q.diagnostics.map (·.problem) = p.diagnostics.map (·.problem) :=
  parse_squeezed 256 false "x  = f  (1 , a . b)\t# c\n  y [0]".toList (by decide +kernel)
    (fun t ht => by
      have hkind : (scan "x  = f  (1 , a . b)\t# c\n  y [0]".toList false).tokens.getLast?.map Token.kind = some .bracketClose := by
        decide +kernel
      rw [ht] at hkind
      rw [Option.some.inj hkind]
      decide)

end Remap
