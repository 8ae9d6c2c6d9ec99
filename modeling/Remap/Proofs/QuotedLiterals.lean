import Remap.Proofs.Integers
import Remap.Proofs.Parser.Reads.Programs
import Remap.Proofs.Token.Quoted

/-!
# Raw strings, regexes and timestamps are read as they were written

Any text without a newline can be written as a timestamp: with a backslash before every quote mark and every backslash. In a raw
string or a regex a backslash before a quote mark is all there is to escape, so not every text can be written; the ones that can are
those in which no odd run of backslashes comes before a quote mark or the end. What is written comes back as the value of the literal.

A timestamp that was not written in this way has the value its body spells out from left to right, whatever escapes are in it and
whether or not it is closed.
-/

namespace Remap

open Lexeme (Introduces)
open Literal (Encloses EvenRuns decode guarded isGuarded quoted)

/-- A source is scanned as one token of a kind, and nothing is wrong with it. -/
def ScansAs (source : Text) (checkPatterns : Bool) (k : Kind) : Prop :=
  (scan source checkPatterns).tokens = [⟨k, source, 0, false⟩] ∧ (scan source checkPatterns).diagnostics = []

/-- The kind of literal that a token between quote marks becomes. -/
def Kind.quotedLit : Kind → Kind
  | .rawString => .rawStringLit
  | .regex => .regexLit
  | _ => .timestampLit

/-- What a token between quote marks stands for. -/
def Expr.ofQuoted (k : Kind) (t : Text) : Expr :=
  .literal <| match k with
    | .rawString => .rawString (some (Literal.rawValue t))
    | .regex => .regex (some (Literal.rawValue t))
    | _ => .timestamp (some (Literal.timestampValue t))

@[simp] theorem Expr.ofQuoted_rawString (t : Text) : ofQuoted .rawString t = .literal (.rawString (some (Literal.rawValue t))) := rfl

@[simp] theorem Expr.ofQuoted_regex (t : Text) : ofQuoted .regex t = .literal (.regex (some (Literal.rawValue t))) := rfl

@[simp] theorem Expr.ofQuoted_timestamp (t : Text) : ofQuoted .timestamp t = .literal (.timestamp (some (Literal.timestampValue t))) :=
  rfl

/-- A source is a literal of a kind that stands for an expression: every literal of the kind that it is parsed to does, and there is one,
the only statement of a program about which nothing is reported, unless the parser may not consume enough or nest deep enough. -/
structure Denotes (o : Options) (source : Text) (k : Kind) (e : Expr) : Prop where
  every : ∀ p, parse o source = .ok p → ∀ n, p.root.Within n → n.kind = k → n.isLeaf = false → n.expr? = some e
  one : o.fuel = none → 2 ≤ o.limit →
    ∃ p n, parse o source = .ok p ∧ p.diagnostics = [] ∧ p.statements = [n] ∧ n.kind = k ∧ n.expr? = some e

section Literals

variable {c : Char} {q : Lexeme.Quoting} {a b : Kind}

theorem expr?_of_quoted (hintroduces : Introduces c q a b) {n : Node} (hk : n.kind = a.quotedLit) (hleaf : n.isLeaf = false) {t : Text}
    (htext : n.leafText? a = some t) : n.expr? = some (.ofQuoted a t) := by
  cases hintroduces <;> simp only [Node.expr?, hleaf, hk, Kind.quotedLit, htext] <;> rfl

/-- A literal between quote marks is a leaf of the source, and stands for what the leaf does. -/
theorem exists_leaf_of_quoted (hintroduces : Introduces c q a b) {o : Options} {source : Text} {p : Parsed} (h : parse o source = .ok p)
    {n : Node} (hn : p.root.Within n) (hk : n.kind = a.quotedLit) (hleaf : n.isLeaf = false) :
    ∃ l, n.elements = [l] ∧ l.isLeaf = true ∧ l.kind = a ∧ n.expr? = some (.ofQuoted a l.text) ∧
      ∃ t ∈ (scan source o.checkPatterns).tokens, t.kind = a ∧ t.text = l.text := by
  have hbrief := brief_of_parse h hn hleaf
  have htokens : n.kind.literalTokens = [a] := by rw [hk]; cases hintroduces <;> rfl
  have hnumber : a ≠ .integer ∧ a ≠ .float := by cases hintroduces <;> decide
  obtain ⟨text, hcs⟩ := (hbrief.literal (by rw [htokens]; exact List.cons_ne_nil _ _)).sole htokens hnumber
  have hrow : n.elements = [⟨n.start, .leaf a text⟩] := by
    rw [Node.elements, hcs]
    rfl
  have hleaves : n.leaves = [⟨n.start, .leaf a text⟩] := by
    rw [Node.leaves, hrow]
    rfl
  have hleaf? : n.leaf? (· = a) = some ⟨n.start, .leaf a text⟩ :=
    Node.leaf?_of_unique (hleaves ▸ List.mem_singleton_self _) (decide_eq_true rfl) (by rw [hleaves]; exact List.countP_le_length)
  have htext : n.leafText? a = some text := congrArg (Option.map Node.text) hleaf?
  refine ⟨_, hrow, rfl, rfl, expr?_of_quoted hintroduces hk hleaf htext, ?_⟩
  exact mem_tokens_of_leaf h hn (hleaves ▸ List.mem_singleton_self _)

/-- A token between quote marks is read as a literal. -/
theorem reads_quoted (hintroduces : Introduces c q a b) {n m : Nat} {s : Parser.State} {adjacent : Bool} {x : Text}
    {qs : List (Kind × Text)} {r : List Tree} (h : s.Before m adjacent ((a, x) :: qs) r) :
    Parser.Reads n Parser.literal s m qs (Parser.YieldsTree a.quotedLit
      (fun t => ∃ cs, t = .node a.quotedLit cs ∧ Tree.solid cs = [.leaf a x]) r) := by
  cases hintroduces <;> refine .peek h.faces (Parser.sharp_cons (by decide) _ _) fun t ht => ?_ <;>
    exact Parser.reads_simpleLiteral ht (by decide) (by decide) fun cs hcs => ⟨cs, rfl, hcs⟩

/-- A source that is scanned as a literal between quote marks is one. -/
theorem denotes_of_scansAs (hintroduces : Introduces c q a b) {o : Options} {source : Text}
    (h : ScansAs source o.checkPatterns a) : Denotes o source a.quotedLit (.ofQuoted a source) := by
  refine ⟨fun p hp n hn hk hleaf => ?_, fun hfuel hlimit => ?_⟩
  · obtain ⟨l, -, -, -, hexpr, t, ht, -, htext⟩ := exists_leaf_of_quoted hintroduces hp hn hk hleaf
    rw [h.1] at ht
    rw [hexpr, ← htext, List.mem_singleton.mp ht]
  · have hfirst : KindSet.arithmeticFirst.contains a = true := by cases hintroduces <;> decide
    have hkind : a ≠ .bang ∧ a.quotedLit ≠ .noop ∧ a.quotedLit.isExpr = true := by cases hintroduces <;> decide
    have hsolid : a.isTrivia = false ∧ a ≠ .newline := by cases hintroduces <;> decide
    have hterm (l : Nat) (s : Parser.State) (hs : s.Before 0 false [(a, source)] []) :
        Parser.Reads l (Parser.termFrom (Parser.firstKind [(a, source)])) s 0 [] (Parser.YieldsTree a.quotedLit
          (fun t => ∃ cs, t = .node a.quotedLit cs ∧ Tree.solid cs = [.leaf a source]) []) := by
      have hliteral : Parser.termFrom (Parser.firstKind [(a, source)]) = Parser.literal := by cases hintroduces <;> rfl
      rw [hliteral]
      exact reads_quoted hintroduces hs
    have htokens : (scan source o.checkPatterns).tokens = Token.place 0 none [(a, source)] := h.1
    obtain ⟨p, ⟨start, tree⟩, hparse, hdiagnostics, hstatements, cs, rfl, hcs⟩ :=
      parse_term htokens h.2 hfuel hlimit hfirst hkind.1 (.single hsolid) hkind.2.1
        (fun t ⟨_, ht, _⟩ => ht ▸ hkind.2.2) hterm
    refine ⟨p, _, hparse, hdiagnostics, hstatements, rfl, expr?_of_quoted hintroduces rfl rfl ?_⟩
    rw [Node.leafText?_eq _ hsolid]
    show Option.map Tree.text (List.find? _ (Tree.solid cs)) = _
    rw [hcs, List.find?_cons_of_pos (by simp [Tree.isLeaf, Tree.kind])]
    rfl

end Literals

/-- Raw strings, and regexes that are not looked into, hold exactly the texts in which every run of backslashes is even that comes before
a quote mark or the end. Such a text, with a backslash before every quote mark, is scanned as one token about which nothing is
reported, and no other text is; what is read from it is the text. -/
theorem parse_raw_literals (v : Text) :
    (∀ checkPatterns, ScansAs (quoted 's' (guarded (· = '\'') v)) checkPatterns .rawString ↔ EvenRuns v) ∧
      (ScansAs (quoted 'r' (guarded (· = '\'') v)) false .regex ↔ EvenRuns v) ∧
      (EvenRuns v → ∀ o : Options,
        Denotes o (quoted 's' (guarded (· = '\'') v)) .rawStringLit (.literal (.rawString (some v))) ∧
        (o.checkPatterns = false → Denotes o (quoted 'r' (guarded (· = '\'') v)) .regexLit (.literal (.regex (some v))))) := by
  have hscans {c : Char} {a b : Kind} (hintroduces : Introduces c .raw a b) (checkPatterns : Bool)
      (hproblems : Lexeme.problems checkPatterns 0 none ⟨a, quoted c (guarded (· = '\'') v)⟩ = []) :
      ScansAs (quoted c (guarded (· = '\'') v)) checkPatterns a ↔ EvenRuns v :=
    (Lexeme.scan_quoted_iff hintroduces _ checkPatterns).trans ((and_iff_left hproblems).trans (Lexeme.closing_raw_iff v))
  have hraw (checkPatterns : Bool) := hscans .rawString checkPatterns rfl
  have hregex := hscans .regex false rfl
  refine ⟨hraw, hregex, fun hv o => ?_⟩
  have hvalue (letter : Char) := Literal.rawValue_quoted ((Literal.escaped_guarded_iff v).mpr hv) letter
  refine ⟨?_, fun hcheck => ?_⟩
  · have hdenotes := denotes_of_scansAs .rawString ((hraw o.checkPatterns).mpr hv)
    rwa [Expr.ofQuoted_rawString, hvalue] at hdenotes
  · have hdenotes : Denotes o _ _ _ := denotes_of_scansAs .regex (hcheck ▸ hregex.mpr hv)
    rwa [Expr.ofQuoted_regex, hvalue] at hdenotes

/-- Two backslashes, a quote mark and the end of a line can be written; a single backslash before the end cannot. -/
theorem parse_raw_literals_backslashes :
    (∃ p n, parse {} ['s', '\'', '\\', '\\', '\\', '\'', '\n', '\''] = .ok p ∧ p.diagnostics = [] ∧ p.statements = [n] ∧
        n.expr? = some (.literal (.rawString (some ['\\', '\\', '\'', '\n'])))) ∧
      (∃ p n, parse {} ['r', '\'', '\\', '\\', '\\', '\'', '\n', '\''] = .ok p ∧ p.diagnostics = [] ∧ p.statements = [n] ∧
        n.expr? = some (.literal (.regex (some ['\\', '\\', '\'', '\n'])))) ∧
      ¬ ScansAs ['s', '\'', '\\', '\''] true .rawString := by
  obtain ⟨-, -, hread⟩ := parse_raw_literals ['\\', '\\', '\'', '\n']
  obtain ⟨hraw, hregex⟩ := hread (by decide +kernel) {}
  obtain ⟨p, n, hparse, hdiagnostics, hstatements, -, hexpr⟩ := hraw.one rfl (by decide)
  obtain ⟨p', n', hparse', hdiagnostics', hstatements', -, hexpr'⟩ := (hregex rfl).one rfl (by decide)
  refine ⟨⟨p, n, hparse, hdiagnostics, hstatements, hexpr⟩, ⟨p', n', hparse', hdiagnostics', hstatements', hexpr'⟩, ?_⟩
  exact mt ((parse_raw_literals ['\\']).1 true).mp (by decide +kernel)

/-- A text without newlines can be written as a timestamp, with a backslash before every quote mark and every backslash: it is scanned as
one token about which nothing is reported, and is read back. Whatever timestamp is scanned or parsed, closed or not, has the value that
its body spells out from left to right. -/
theorem parse_timestamps (o : Options) :
    (∀ v : Text, '\n' ∉ v → (∀ checkPatterns, ScansAs (quoted 't' (guarded isGuarded v)) checkPatterns .timestamp) ∧
        Denotes o (quoted 't' (guarded isGuarded v)) .timestampLit (.literal (.timestamp (some v)))) ∧
      (∀ source checkPatterns, ∀ t ∈ (scan source checkPatterns).tokens, t.kind = .timestamp →
        ∃ rest body, t.text = 't' :: '\'' :: rest ∧ Encloses rest body ∧ Literal.timestampValue t.text = decode body) ∧
      (∀ source p, parse o source = .ok p → ∀ n, p.root.Within n → n.kind = .timestampLit → n.isLeaf = false →
        ∃ l rest body, n.elements = [l] ∧ l.isLeaf = true ∧ l.kind = .timestamp ∧ l.text = 't' :: '\'' :: rest ∧ Encloses rest body ∧
          n.expr? = some (.literal (.timestamp (some (decode body))))) := by
  refine ⟨fun v hv => ?_, fun source checkPatterns t ht hkind => ?_, fun source p hp n hn hk hleaf => ?_⟩
  · have hscans (checkPatterns : Bool) : ScansAs (quoted 't' (guarded isGuarded v)) checkPatterns .timestamp :=
      (Lexeme.scan_quoted_iff .timestamp _ checkPatterns).mpr
        ⟨Lexeme.closing_timestamp hv, Lexeme.timestampProblems_guarded v _⟩
    have hdenotes := denotes_of_scansAs .timestamp (hscans o.checkPatterns)
    rw [Expr.ofQuoted_timestamp, Literal.timestampValue_quoted] at hdenotes
    exact ⟨hscans, hdenotes⟩
  · obtain ⟨rest, body, htext, hbody⟩ := Lexeme.encloses_of_mem_scan .timestamp ht hkind
    exact ⟨rest, body, htext, hbody, htext ▸ Literal.timestampValue_eq hbody 't'⟩
  · obtain ⟨l, hrow, hl, hkind, hexpr, t, ht, hkind', htext⟩ := exists_leaf_of_quoted .timestamp hp hn hk hleaf
    obtain ⟨rest, body, htext', hbody⟩ := Lexeme.encloses_of_mem_scan .timestamp ht hkind'
    refine ⟨l, rest, body, hrow, hl, hkind, htext ▸ htext', hbody, ?_⟩
    rw [hexpr, ← htext, htext', Expr.ofQuoted_timestamp, Literal.timestampValue_eq hbody]

/-- A timestamp with backslashes before a quote mark and before the end, and one that is not closed and has an escape that is unknown. -/
theorem parse_timestamps_backslashes :
    (∃ p n, parse {} ['t', '\'', '\\', '\\', '\\', '\'', '\\', '\\', '\''] = .ok p ∧ p.diagnostics = [] ∧ p.statements = [n] ∧
        n.expr? = some (.literal (.timestamp (some ['\\', '\'', '\\'])))) ∧
      ∃ p n, parse {} ['t', '\'', '\\', '\'', '\\', 'a', '\\'] = .ok p ∧ p.root.Within n ∧
        n.expr? = some (.literal (.timestamp (some ['\'', '\\', 'a', '\\']))) := by
  obtain ⟨hwritten, -, hparsed⟩ := parse_timestamps {}
  obtain ⟨-, hdenotes⟩ := hwritten ['\\', '\'', '\\'] (by decide)
  obtain ⟨p, n, hparse, hdiagnostics, hstatements, -, hexpr⟩ := hdenotes.one rfl (by decide)
  refine ⟨⟨p, n, hparse, hdiagnostics, hstatements, hexpr⟩, ?_⟩
  have hok : (parse {} ['t', '\'', '\\', '\'', '\\', 'a', '\\']).toOption.any (fun p => p.root.elements.any fun n =>
      n.kind = .timestampLit && !n.isLeaf && n.elements.map Node.text = [['t', '\'', '\\', '\'', '\\', 'a', '\\']]) = true := by
    decide +kernel
  obtain ⟨p, hp, htest⟩ := exists_of_any_parse hok
  simp only [List.any_eq_true, Bool.and_eq_true, decide_eq_true_eq, Bool.not_eq_true'] at htest
  obtain ⟨n, hn, ⟨hkind, hleaf⟩, htexts⟩ := htest
  have hwithin : p.root.Within n := .child .root hn
  obtain ⟨l, rest, body, hrow, -, -, htext, hbody, hexpr⟩ := hparsed _ p hp n hwithin hkind hleaf
  rw [hrow, List.map_singleton, htext] at htexts
  cases htexts
  rw [← hbody.untilQuote_eq] at hexpr
  exact ⟨p, n, hp, hwithin, hexpr⟩

end Remap
