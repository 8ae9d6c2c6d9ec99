import Remap.Proofs.Lossless
import Remap.Proofs.Parser.Aligned.Grammar
import Remap.Proofs.RaisedLimit

/-!
# Strings are read as wholes

To the parser a string is a run of tokens, some of them of kinds that it uses elsewhere as well. Still it never stops in the middle of one:
the run is all that one string literal of the tree holds, or it is inside one error. So no diagnostic is about a token that stands only
inside of strings, and whatever a diagnostic says was found has a name.
-/

namespace Remap

open Lexeme (pieces isString)
open Tree (Covers leavesOf)

theorem Lexeme.eq_nil_of_pieces {ls : List Lexeme} (h : ls.flatMap pieces = []) : ls = [] := by
  cases ls with
  | nil => rfl
  | cons l ls => exact absurd (List.append_eq_nil_iff.mp h).1 l.pieces_ne_nil

/-- A parse starts before the first lexeme. -/
theorem Parser.State.Aligned.start (source : Text) (limit : Nat) (fuel : Option Nat) :
    (State.start (tokensOf source) limit fuel).Aligned source (Lexeme.ofText source) where
  reading := State.reading_start _ _ _
  suffix := List.suffix_rfl
  reports _ hd := absurd hd List.not_mem_nil
  cut := ⟨[], [], Lexeme.ofText source, rfl, .nil, .of_unheld rfl (Token.map_piece_place 0 none ((Lexeme.ofText source).flatMap pieces))⟩

/-- The tree of a source that is parsed covers its lexemes, and what the diagnostics say was found is there. -/
theorem covers_of_parse {o : Options} {source : Text} {p : Parsed} (h : parse o source = .ok p) :
    Covers [p.tree] (Lexeme.ofText source) ∧ ∀ d ∈ p.diagnostics, d.Names (tokensOf source) := by
  obtain ⟨r, hr, hexhausted, rfl⟩ := parse_eq_ok h
  obtain ⟨t, hrun, hfinish⟩ := Parser.parseTokens_eq_ok.mp hr
  have hholds := Parser.State.holds_of_finish hfinish
  have hfuel : t.exhausted = false := hholds.exhausted ▸ hexhausted
  have haligned := (Parser.aligns_program source _ _ _ (.start source o.limit o.fuel) trivial (.start _ _ _) () t hrun hfuel).2
  obtain ⟨hunread, hheld⟩ := Parser.nothing_left hrun hfuel
  refine ⟨?_, fun d hd => ?_⟩
  · obtain ⟨cs, hs, ms, hrow, hcovers, hleft⟩ := haligned.cut
    obtain rfl := Lexeme.eq_nil_of_pieces (hleft.held.symm.trans (congrArg _ hheld))
    obtain rfl := Lexeme.eq_nil_of_pieces (hleft.unread.symm.trans (congrArg _ hunread))
    rw [Parser.State.trees, hholds.built] at hcovers
    rw [hrow, List.append_nil, List.append_nil]
    exact hcovers
  · obtain ⟨e, he, rfl⟩ := List.mem_map.mp hd
    rcases List.mem_append.mp (List.mem_mergeSort.mp he) with he | he
    · intro k hk
      cases (Lexeme.lexical_problemsOf _ _ _ _ e he).found.symm.trans hk
    · rw [hholds.reports, List.mem_reverse] at he
      exact haligned.reports e he

/-- A source that is parsed, whatever the options. Of every string in it, closed or not, the tokens are all that one string literal of the
tree holds, or they are inside one error; and every string literal holds all tokens of one string, and no other ones. And where a
diagnostic says which kind of token was found, there is a token of that kind, and the kind has a name in messages. -/
theorem parse_strings {o : Options} {source : Text} {p : Parsed} (hp : parse o source = .ok p) :
    (∀ before l after, Lexeme.ofText source = before ++ l :: after → l.isString = true →
      p.tree.Keeps (before.flatMap pieces) l (after.flatMap pieces)) ∧
    (∀ xs cs ys, p.tree.Amid xs (.node .stringLit cs) ys →
      ∃ before l after, Lexeme.ofText source = before ++ l :: after ∧ l.isString = true ∧ leavesOf cs = l.pieces ∧
        before.flatMap pieces = xs ∧ after.flatMap pieces = ys) ∧
    ∀ d ∈ p.diagnostics, ∀ k, (d.detail = some (.found k) ∨ ∃ e, d.detail = some (.expectedFound e k)) →
      k.describe ≠ "end of input" ∧ ∃ t ∈ (scan source o.checkPatterns).tokens, t.kind = k ∧ t.span = d.span := by
  obtain ⟨hcovers, hnames⟩ := covers_of_parse hp
  refine ⟨fun before l after hlexemes hl => ?_, fun xs cs ys hamid => hcovers.string_of_amid hamid, fun d hd k hk => ?_⟩
  · simpa using hcovers.keeps .single hlexemes hl
  · refine hnames d hd k ?_
    rcases hk with hk | ⟨e, hk⟩
    · rw [hk]
      rfl
    · rw [hk]
      rfl

/-- Three strings: a second one right behind the first, with a template and a bracket in it, which is skipped over as an error; and one that
is not closed. -/
theorem parse_strings_adjacent :
    ∃ p, parse {} "\"a\"\"\x7b\x7b b \x7d\x7d(\"\n\"c".toList = .ok p ∧
      p.tree.Keeps [(.doubleQuote, ['"']), (.strText, ['a']), (.doubleQuote, ['"'])]
        ⟨.stringLiteral, "\"\x7b\x7b b \x7d\x7d(\"".toList⟩ [(.newline, ['\n']), (.doubleQuote, ['"']), (.strText, ['c'])] ∧
      (∃ xs cs ys before l after, p.tree.Amid xs (.node .stringLit cs) ys ∧
        Lexeme.ofText "\"a\"\"\x7b\x7b b \x7d\x7d(\"\n\"c".toList = before ++ l :: after ∧ leavesOf cs = l.pieces) ∧
      ∃ d ∈ p.diagnostics, d.detail = some (.found .doubleQuote) ∧
        ∃ t ∈ (scan "\"a\"\"\x7b\x7b b \x7d\x7d(\"\n\"c".toList false).tokens, t.kind = .doubleQuote ∧ t.span = d.span := by
  have hok : (parse {} "\"a\"\"\x7b\x7b b \x7d\x7d(\"\n\"c".toList).toOption.any (fun p =>
      p.tree.children.any fun c => c.kind = .stringLit && !c.isLeaf) = true := by decide +kernel
  have hreported : (Parser.parseTokens (scan "\"a\"\"\x7b\x7b b \x7d\x7d(\"\n\"c".toList false).tokens 256 none).toOption.any (fun r =>
      r.diagnostics.any fun d => d.detail = some (.found .doubleQuote)) = true := by decide +kernel
  have hlexemes : Lexeme.ofText "\"a\"\"\x7b\x7b b \x7d\x7d(\"\n\"c".toList =
      [⟨.stringLiteral, "\"a\"".toList⟩] ++ ⟨.stringLiteral, "\"\x7b\x7b b \x7d\x7d(\"".toList⟩ ::
        [⟨.newline, ['\n']⟩, ⟨.unterminatedString, "\"c".toList⟩] := by decide +kernel
  have hfirst : [(⟨.stringLiteral, "\"a\"".toList⟩ : Lexeme)].flatMap pieces =
      [(.doubleQuote, ['"']), (.strText, ['a']), (.doubleQuote, ['"'])] := by decide +kernel
  have hlast : [(⟨.newline, ['\n']⟩ : Lexeme), ⟨.unterminatedString, "\"c".toList⟩].flatMap pieces =
      [(.newline, ['\n']), (.doubleQuote, ['"']), (.strText, ['c'])] := by decide +kernel
  obtain ⟨p, hp, htest⟩ := exists_of_any_parse hok
  obtain ⟨r, hr, -, hresult⟩ := parse_eq_ok hp
  rw [hr] at hreported
  obtain ⟨d, hd, hfound⟩ := List.any_eq_true.mp hreported
  rw [decide_eq_true_eq] at hfound
  have hmem : d.locate "\"a\"\"\x7b\x7b b \x7d\x7d(\"\n\"c".toList ∈ p.diagnostics := by
    rw [hresult]
    exact List.mem_map_of_mem (List.mem_mergeSort.mpr (List.mem_append_right _ hd))
  obtain ⟨hkept, hliterals, hnamed⟩ := parse_strings hp
  have hsecond := hkept _ _ _ hlexemes rfl
  rw [hfirst, hlast] at hsecond
  refine ⟨p, hp, hsecond, ?_, _, hmem, hfound, (hnamed _ hmem .doubleQuote (.inl hfound)).2⟩
  simp only [List.any_eq_true, Bool.and_eq_true, decide_eq_true_eq, Bool.not_eq_true'] at htest
  obtain ⟨c, hc, hkind, hleaf⟩ := htest
  cases c with
  | leaf k text => cases hleaf
  | node k cs =>
    obtain rfl : k = .stringLit := hkind
    obtain ⟨us, vs, hchildren⟩ := List.append_of_mem hc
    have hroot : p.tree.Amid [] p.tree [] := .root
    have hamid := hroot.of_children hchildren
    obtain ⟨before, l, after, hsplit, -, hleaves, -⟩ := hliterals _ _ _ hamid
    exact ⟨_, cs, _, before, l, after, hamid, hsplit, hleaves⟩

end Remap
