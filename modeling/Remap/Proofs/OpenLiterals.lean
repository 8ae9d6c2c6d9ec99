import Remap.Proofs.Locations
import Remap.Proofs.Parser.Reported
import Remap.Proofs.Token.Unclosed

/-!
# Literals that are left open

A literal whose closing mark is missing takes the rest of its line. The scanner says so, and the parser only passes it on. Where a
literal begins, what follows tells whether it is left open: read in pairs from the left, a mark that stands alone must come before
anything that ends the literal. A newline ends a string unless it is behind a backslash, it ends a timestamp in any case, and a raw
string or a regex never.
-/

namespace Remap

open Lexeme

/-- A problem is among the diagnostics, from an offset on. -/
def Reported (ds : Diagnostics) (p : Problem) (offset : Nat) : Prop := ∃ d ∈ ds, d.problem = p ∧ d.span.start = offset

theorem Problem.isLexical_of_isUnclosed {p : Problem} (h : p.isUnclosed = true) : p.isLexical = true := by
  revert h
  cases p <;> decide

/-- The parser passes on what the scanner says about literals that are left open, and adds nothing. -/
theorem exists_unclosed_iff {o : Options} {source : Text} {p : Parsed} (hp : parse o source = .ok p) {problem : Problem}
    (h : problem.isUnclosed = true) (span : Span) :
    (∃ d ∈ p.diagnostics, d.problem = problem ∧ d.span = span) ↔
      ∃ d ∈ (scan source o.checkPatterns).diagnostics, d.problem = problem ∧ d.span = span := by
  obtain ⟨r, hr, -, rfl⟩ := parse_eq_ok hp
  obtain ⟨t, hrun, hfinish⟩ := Parser.parseTokens_eq_ok.mp hr
  have hreports := (Parser.State.holds_of_finish hfinish).reports
  constructor
  · rintro ⟨_, hd, rfl, rfl⟩
    obtain ⟨e, he, rfl⟩ := List.mem_map.mp hd
    rcases List.mem_append.mp (List.mem_mergeSort.mp he) with he | he
    · exact ⟨e, he, rfl, rfl⟩
    · rw [hreports, List.mem_reverse] at he
      have hlexical : e.problem.isLexical = true := Problem.isLexical_of_isUnclosed h
      rw [Parser.isLexical_program rfl hrun e he] at hlexical
      cases hlexical
  · rintro ⟨d, hd, rfl, rfl⟩
    exact ⟨d.locate source, List.mem_map_of_mem (List.mem_mergeSort.mpr (List.mem_append_left _ hd)), rfl, rfl⟩

/-- A literal that is quoted in some way is reported exactly if no mark that closes it comes before what ends it. -/
theorem reported_iff_not_closes {source : Text} (checkPatterns : Bool) {ls ms : List Lexeme} {opener body : Text} {q : Quoting} {a b : Kind}
    {p : Problem} (hopens : Opens opener q a b p) (h : Lexeme.ofText source = ls ++ ms) (hms : ms.flatMap text = opener ++ body)
    {ends : Text → Prop} (hends : ∀ u ∈ units body, q.Breaks u ↔ ends u) :
    Reported (scan source checkPatterns).diagnostics p (Text.bytes (ls.flatMap text)) ↔ ¬ Closes q.mark ends body := by
  have hmark : q.mark ≠ '\\' := by cases hopens <;> decide
  rw [Reported, reported_iff checkPatterns hopens h hms, closing_eq_none_iff hmark, Closes.congr hends]

/-- In every source. A literal that is reported not to be closed holds no newline, and a newline follows it or nothing. A literal that
begins between lexemes is reported exactly if no closing mark stands alone before what ends it: for a string that is a newline that
stands alone, for a timestamp every newline, for a raw string or a regex nothing. And what is parsed has the same reports of that
kind. -/
theorem unclosed_literals (source : Text) (checkPatterns : Bool) :
    (∀ d ∈ (scan source checkPatterns).diagnostics, d.problem.isUnclosed = true →
      ∃ before text after, source = before ++ (text ++ after) ∧ d.span = .ofSize before.bytes text.bytes ∧ '\n' ∉ text ∧
        (after = [] ∨ ∃ rest, after = '\n' :: rest)) ∧
    (∀ ls ms body, Lexeme.ofText source = ls ++ ms →
      (ms.flatMap text = '"' :: body →
        (Reported (scan source checkPatterns).diagnostics .unterminatedString (Text.bytes (ls.flatMap text)) ↔
          ¬ Closes '"' (· = ['\n']) body)) ∧
      (ms.flatMap text = 't' :: '\'' :: body →
        (Reported (scan source checkPatterns).diagnostics .unterminatedTimestamp (Text.bytes (ls.flatMap text)) ↔
          ¬ Closes '\'' ('\n' ∈ ·) body)) ∧
      (ms.flatMap text = 's' :: '\'' :: body →
        (Reported (scan source checkPatterns).diagnostics .unterminatedRawString (Text.bytes (ls.flatMap text)) ↔
          ¬ Closes '\'' (fun _ => False) body)) ∧
      (ms.flatMap text = 'r' :: '\'' :: body →
        (Reported (scan source checkPatterns).diagnostics .unterminatedRegex (Text.bytes (ls.flatMap text)) ↔
          ¬ Closes '\'' (fun _ => False) body))) ∧
    ∀ o p, o.checkPatterns = checkPatterns → parse o source = .ok p → ∀ problem : Problem, problem.isUnclosed = true → ∀ span,
      (∃ d ∈ p.diagnostics, d.problem = problem ∧ d.span = span) ↔
        ∃ d ∈ (scan source checkPatterns).diagnostics, d.problem = problem ∧ d.span = span := by
  have hraw (u : Text) : Quoting.raw.Breaks u ↔ False := by simp [Quoting.Breaks, Quoting.raw]
  refine ⟨fun d hd hunclosed => exists_of_unclosed hd hunclosed, fun ls ms body h => ⟨fun hms => ?_, fun hms => ?_, fun hms => ?_,
    fun hms => ?_⟩, fun o p ho hp problem hunclosed span => ho ▸ exists_unclosed_iff hp hunclosed span⟩
  · exact reported_iff_not_closes checkPatterns .string h hms fun u _ => by simp [Quoting.Breaks, Quoting.string]
  · refine reported_iff_not_closes checkPatterns .timestamp h hms fun u hu => ?_
    obtain ⟨c, rfl⟩ | ⟨c, rfl⟩ := unit_cases hu <;> simp [Quoting.Breaks, Quoting.timestamp, eq_comm]
  · exact reported_iff_not_closes checkPatterns .rawString h hms fun u _ => hraw u
  · exact reported_iff_not_closes checkPatterns .regex h hms fun u _ => hraw u

/-- A string that goes on behind an escaped newline and is not closed on the next line, and a raw string that is closed on its second
line. -/
theorem unclosed_literals_escaped :
    Reported (scan "\"a\\\nb\ns'c\n'".toList false).diagnostics .unterminatedString 0 ∧
      ¬ Closes '"' (· = ['\n']) "a\\\nb\ns'c\n'".toList ∧ Closes '\'' (fun _ => False) "c\n'".toList ∧
      ¬ Reported (scan "\"a\\\nb\ns'c\n'".toList false).diagnostics .unterminatedRawString 6 := by
  obtain ⟨-, hopen, -⟩ := unclosed_literals "\"a\\\nb\ns'c\n'".toList false
  have hreported : Reported (scan "\"a\\\nb\ns'c\n'".toList false).diagnostics .unterminatedString 0 := by
    unfold Reported
    decide +kernel
  have hcloses : Closes '\'' (fun _ => False) "c\n'".toList := ⟨[['c'], ['\n']], [], by decide, fun _ _ => not_false⟩
  have hsplit : Lexeme.ofText "\"a\\\nb\ns'c\n'".toList =
      [⟨.unterminatedString, "\"a\\".toList⟩, ⟨.newline, ['\n']⟩, ⟨.id, ['b']⟩, ⟨.newline, ['\n']⟩] ++
        [⟨.rawString, "s'c\n'".toList⟩] := by decide +kernel
  refine ⟨hreported, ((hopen [] _ _ rfl).1 (flatMap_text_ofText _)).mp hreported, hcloses, fun hraw => ?_⟩
  exact ((hopen _ _ "c\n'".toList hsplit).2.2.1 (by decide)).mp hraw hcloses

end Remap
