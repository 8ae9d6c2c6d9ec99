import Mathlib.Algebra.Group.Nat.Even
import Remap.Proofs.Token.Origins
import Remap.Proofs.Token.Squeeze

/-!
# Literals between single quote marks

Raw strings, regexes and timestamps are a letter and a body between quote marks. Within the body a backslash is taken together with
the character after it, whatever that is, so the body ends at the first quote mark that no backslash takes (`Escaped`). What the
literal stands for is read off the body by replacing escapes, one kind after the other, wherever they occur; it has to be shown that
this never pairs a backslash with a character it was not taken with.
-/

namespace Remap

namespace Literal

/-! ## Bodies -/

/-- A text without a quote mark that no backslash takes. The flag says whether a backslash is left at its end with nothing to take. -/
inductive Escaped : Bool → Text → Prop where
  | nil : Escaped false []
  | stray : Escaped true ['\\']
  | escape (c : Char) {stray : Bool} {t : Text} (h : Escaped stray t) : Escaped stray ('\\' :: c :: t)
  | plain {c : Char} (hslash : c ≠ '\\') (hquote : c ≠ '\'') {stray : Bool} {t : Text} (h : Escaped stray t) : Escaped stray (c :: t)

/-- What a literal has after its opening mark, and its body: all of it but the closing mark, if it is closed. -/
inductive Encloses : Text → Text → Prop where
  | closed {body : Text} (h : Escaped false body) : Encloses (body ++ ['\'']) body
  | unclosed {stray : Bool} {body : Text} (h : Escaped stray body) : Encloses body body

/-- A literal with its letter and its marks. -/
def quoted (letter : Char) (body : Text) : Text := letter :: '\'' :: (body ++ ['\''])

/-- The text with a backslash put before certain characters. -/
def guarded (p : Char → Bool) (v : Text) : Text := v.flatMap fun c => if p c then ['\\', c] else [c]

variable {c : Char} {t : Text}

namespace Escaped

variable {stray : Bool}

theorem head?_ne (h : Escaped stray t) : t.head? ≠ some '\'' := by
  cases h with
  | nil => exact nofun
  | stray => decide
  | escape c h => simp
  | plain hslash hquote h => simpa using hquote

theorem untilQuote_eq (h : Escaped stray t) : untilQuote t = t := by
  induction h with
  | nil => rfl
  | stray => rfl
  | escape c h ih => rw [untilQuote, ih]
  | plain hslash hquote h ih =>
    rw [untilQuote, if_neg hquote, ih]
    exact fun _ _ h _ => hslash h

theorem untilQuote_append (h : Escaped false t) : untilQuote (t ++ ['\'']) = t := by
  generalize hstray : false = stray at h
  induction h with
  | nil => rfl
  | stray => cases hstray
  | escape c h ih => rw [List.cons_append, List.cons_append, untilQuote, ih hstray]
  | plain hslash hquote h ih =>
    rw [List.cons_append, untilQuote, if_neg hquote, ih hstray]
    exact fun _ _ h _ => hslash h

end Escaped

theorem escaped_escape {stray : Bool} : Escaped stray ('\\' :: c :: t) ↔ Escaped stray t := by
  refine ⟨fun h => ?_, .escape c⟩
  cases h with
  | escape c h => exact h
  | plain hslash _ _ => exact absurd rfl hslash

theorem escaped_plain {stray : Bool} (hslash : c ≠ '\\') (hquote : c ≠ '\'') : Escaped stray (c :: t) ↔ Escaped stray t := by
  refine ⟨fun h => ?_, .plain hslash hquote⟩
  cases h with
  | stray => exact absurd rfl hslash
  | escape c h => exact absurd rfl hslash
  | plain _ _ h => exact h

/-- The body of a literal is found. -/
theorem Encloses.untilQuote_eq {rest body : Text} (h : Encloses rest body) : untilQuote rest = body := by
  cases h with
  | closed h => exact h.untilQuote_append
  | unclosed h => exact h.untilQuote_eq

/-! ## Replacing escapes -/

theorem unescapeQuotes_cons (h : c = '\\' → t.head? ≠ some '\'') : unescapeQuotes (c :: t) = c :: unescapeQuotes t := by
  rw [unescapeQuotes]
  rintro rest hc rfl
  exact h hc rfl

theorem unescapeBackslashes_cons (h : c = '\\' → t.head? ≠ some '\\') :
    unescapeBackslashes (c :: t) = c :: unescapeBackslashes t := by
  rw [unescapeBackslashes]
  rintro rest hc rfl
  exact h hc rfl

/-- The text that a body stands for where quote marks and backslashes can be escaped, read from left to right. A backslash before any
other character stays. -/
def decode : Text → Text
  | [] => []
  | '\\' :: '\'' :: rest => '\'' :: decode rest
  | '\\' :: '\\' :: rest => '\\' :: decode rest
  | c :: rest => c :: decode rest

theorem decode_cons (h : c = '\\' → t.head? ≠ some '\'' ∧ t.head? ≠ some '\\') : decode (c :: t) = c :: decode t := by
  rw [decode]
  · rintro rest hc rfl
    exact (h hc).1 rfl
  · rintro rest hc rfl
    exact (h hc).2 rfl

/-- In a body, replacing first the escapes of quote marks everywhere and then those of backslashes is reading from left to right. -/
theorem Escaped.unescape_eq_decode {stray : Bool} (h : Escaped stray t) : unescapeBackslashes (unescapeQuotes t) = decode t := by
  induction h with
  | nil => rfl
  | stray => rfl
  | @escape c _ t h ih =>
    by_cases hquote : c = '\''
    · subst hquote
      rw [unescapeQuotes, unescapeBackslashes_cons (by simp), ih, decode]
    · -- What comes after the escape begins with no quote mark, so its second character is not paired with it.
      rw [unescapeQuotes_cons (by simpa using hquote), unescapeQuotes_cons fun _ => h.head?_ne]
      by_cases hslash : c = '\\'
      · subst hslash
        rw [unescapeBackslashes, ih, decode]
      · have hslash' {u : Text} : (c :: u).head? ≠ some '\\' := by simpa using hslash
        rw [unescapeBackslashes_cons fun _ => hslash', unescapeBackslashes_cons fun h => absurd h hslash, ih,
          decode_cons fun _ => ⟨by simpa using hquote, hslash'⟩, decode_cons fun h => absurd h hslash]
  | plain hslash hquote h ih =>
    rw [unescapeQuotes_cons fun h => absurd h hslash, unescapeBackslashes_cons fun h => absurd h hslash, ih,
      decode_cons fun h => absurd h hslash]

/-! ## Guarding characters -/

section Guarded

variable {p : Char → Bool} {v : Text}

theorem guarded_cons_of_pos (h : p c = true) : guarded p (c :: v) = '\\' :: c :: guarded p v := by
  simp [guarded, h]

theorem guarded_cons_of_neg (h : p c = false) : guarded p (c :: v) = c :: guarded p v := by
  simp [guarded, h]

/-- A guarded text begins with no character that is guarded. -/
theorem head?_guarded (hc : p c = true) (hslash : c ≠ '\\') : (guarded p v).head? ≠ some c := by
  cases v with
  | nil => exact nofun
  | cons d v =>
    cases hd : p d with
    | true => simpa [guarded_cons_of_pos hd] using hslash.symm
    | false =>
      rw [guarded_cons_of_neg hd]
      rintro hdc
      rw [Option.some.inj hdc, hc] at hd
      cases hd

theorem mem_guarded {d : Char} (hslash : d ≠ '\\') : d ∈ guarded p v ↔ d ∈ v := by
  induction v with
  | nil => rfl
  | cons c v ih =>
    cases hc : p c with
    | true => simp [guarded_cons_of_pos hc, hslash, ih]
    | false => simp [guarded_cons_of_neg hc, ih]

/-- Quote marks that were guarded come back. -/
theorem unescapeQuotes_guarded (v : Text) : unescapeQuotes (guarded (· = '\'') v) = v := by
  induction v with
  | nil => rfl
  | cons c v ih =>
    by_cases hc : c = '\''
    · subst hc
      rw [guarded_cons_of_pos rfl, unescapeQuotes, ih]
    · rw [guarded_cons_of_neg (by simpa using hc), unescapeQuotes_cons fun _ => head?_guarded rfl (by decide), ih]

/-- Whether a character is a quote mark or a backslash. -/
def isGuarded (c : Char) : Bool := c = '\'' || c = '\\'

/-- Where backslashes are guarded as well as quote marks, every one of them takes what it was put before. -/
theorem escaped_guarded (v : Text) : Escaped false (guarded isGuarded v) := by
  induction v with
  | nil => exact .nil
  | cons c v ih =>
    cases hc : isGuarded c with
    | true => exact guarded_cons_of_pos hc ▸ ih.escape c
    | false =>
      obtain ⟨hquote, hslash⟩ : c ≠ '\'' ∧ c ≠ '\\' := by simpa [isGuarded] using hc
      exact guarded_cons_of_neg hc ▸ ih.plain hslash hquote

/-- Quote marks and backslashes that were guarded come back. -/
theorem decode_guarded (v : Text) : decode (guarded isGuarded v) = v := by
  induction v with
  | nil => rfl
  | cons c v ih =>
    cases hc : isGuarded c with
    | true =>
      have hcases : c = '\'' ∨ c = '\\' := by simpa [isGuarded] using hc
      rw [guarded_cons_of_pos hc]
      rcases hcases with rfl | rfl <;> rw [decode, ih]
    | false =>
      have hslash : c ≠ '\\' := by
        rintro rfl
        cases hc
      rw [guarded_cons_of_neg hc, decode_cons fun h => absurd h hslash, ih]

end Guarded

/-- The value of a timestamp, closed or not, is its body read from left to right. -/
theorem timestampValue_eq {rest body : Text} (h : Encloses rest body) (letter : Char) :
    timestampValue (letter :: '\'' :: rest) = decode body := by
  show unescapeBackslashes (unescapeQuotes (untilQuote rest)) = decode body
  rw [h.untilQuote_eq]
  cases h with
  | closed h => exact h.unescape_eq_decode
  | unclosed h => exact h.unescape_eq_decode

/-- A timestamp that was written has the value that was written. -/
theorem timestampValue_quoted (letter : Char) (v : Text) : timestampValue (quoted letter (guarded isGuarded v)) = v :=
  (timestampValue_eq (.closed (escaped_guarded v)) letter).trans (decode_guarded v)

/-- A raw string that was written has the value that was written, if it is one. -/
theorem rawValue_quoted {v : Text} (h : Escaped false (guarded (· = '\'') v)) (letter : Char) :
    rawValue (quoted letter (guarded (· = '\'') v)) = v := by
  show unescapeQuotes (untilQuote (guarded (· = '\'') v ++ ['\''])) = v
  rw [h.untilQuote_append, unescapeQuotes_guarded]

/-! ## Runs of backslashes -/

/-- Every maximal run of backslashes that a quote mark follows, or nothing, has even length. -/
def EvenRuns (v : Text) : Prop :=
  ∀ before n after, v = before ++ (List.replicate n '\\' ++ after) → before.getLast? ≠ some '\\' →
    (after = [] ∨ after.head? = some '\'') → Even n

theorem evenRuns_nil : EvenRuns [] := by
  intro before n after h _ _
  obtain ⟨-, h⟩ := List.append_eq_nil_iff.mp h.symm
  obtain ⟨h, -⟩ := List.append_eq_nil_iff.mp h
  obtain rfl : n = 0 := by simpa using h
  decide

theorem getLast?_cons_ne (hc : c ≠ '\\') (h : t.getLast? ≠ some '\\') : (c :: t).getLast? ≠ some '\\' := by
  cases t with
  | nil => simpa using hc
  | cons d t => rwa [List.getLast?_cons_cons]

theorem getLast?_of_cons (h : (c :: t).getLast? ≠ some '\\') : t.getLast? ≠ some '\\' := by
  cases t with
  | nil => exact nofun
  | cons d t => rwa [List.getLast?_cons_cons] at h

/-- A run ends before a character that is no backslash. -/
theorem evenRuns_cons (hc : c ≠ '\\') : EvenRuns (c :: t) ↔ EvenRuns t := by
  refine ⟨fun h before n after ht hbefore => h (c :: before) n after (by rw [ht]; rfl) (getLast?_cons_ne hc hbefore), ?_⟩
  intro h before n after ht hbefore hafter
  cases before with
  | nil =>
    cases n with
    | zero => decide
    | succ n =>
      rw [List.nil_append, List.replicate_succ, List.cons_append] at ht
      exact absurd (List.cons.inj ht).1 hc
  | cons d before => exact h before n after (List.cons.inj ht).2 (getLast?_of_cons hbefore) hafter

/-- Two backslashes make no odd run even. -/
theorem evenRuns_pair : EvenRuns ('\\' :: '\\' :: t) ↔ EvenRuns t := by
  refine ⟨fun h before n after ht hbefore hafter => ?_, fun h before n after ht hbefore hafter => ?_⟩
  · cases before with
    | nil =>
      -- A run that begins the rest goes on from the two backslashes.
      have hn := h [] (n + 2) after (by rw [ht, List.replicate_succ, List.replicate_succ]; rfl) hbefore hafter
      exact (Nat.even_add.mp hn).mpr (by decide)
    | cons d before =>
      refine h ('\\' :: '\\' :: d :: before) n after (by rw [ht]; rfl) ?_ hafter
      rwa [List.getLast?_cons_cons, List.getLast?_cons_cons]
  · rcases before with - | ⟨d, - | ⟨e, before⟩⟩
    · rcases n with - | - | n
      · decide
      · obtain rfl : '\\' :: t = after := (List.cons.inj ht).2
        rcases hafter with hafter | hafter <;> cases hafter
      · rw [List.nil_append, List.replicate_succ, List.replicate_succ] at ht
        have ht' : t = List.replicate n '\\' ++ after := (List.cons.inj (List.cons.inj ht).2).2
        show Even (n + 2)
        exact Nat.even_add.mpr (iff_of_true (h [] n after ht' hbefore hafter) (by decide))
    · -- No maximal run begins with the second backslash.
      exact absurd (by rw [← (List.cons.inj ht).1]; rfl) hbefore
    · exact h before n after (List.cons.inj (List.cons.inj ht).2).2 (getLast?_of_cons (getLast?_of_cons hbefore)) hafter

/-- A single backslash may come before a character that is neither a backslash nor a quote mark. -/
theorem evenRuns_single (hc : c ≠ '\\') : EvenRuns ('\\' :: c :: t) ↔ c ≠ '\'' ∧ EvenRuns t := by
  constructor
  · intro h
    refine ⟨?_, fun before n after ht hbefore => ?_⟩
    · rintro rfl
      exact absurd (h [] 1 ('\'' :: t) rfl nofun (.inr rfl)) (by decide)
    · refine h ('\\' :: c :: before) n after (by rw [ht]; rfl) ?_
      rw [List.getLast?_cons_cons]
      exact getLast?_cons_ne hc hbefore
  · rintro ⟨hquote, h⟩ before n after ht hbefore hafter
    rcases before with - | ⟨d, before⟩
    · rcases n with - | - | n
      · decide
      · obtain rfl : c :: t = after := (List.cons.inj ht).2
        rcases hafter with hafter | hafter
        · cases hafter
        · exact absurd (Option.some.inj hafter) hquote
      · rw [List.nil_append, List.replicate_succ, List.replicate_succ] at ht
        exact absurd (List.cons.inj (List.cons.inj ht).2).1 hc
    · exact (evenRuns_cons hc).mpr h before n after (List.cons.inj ht).2 (getLast?_of_cons hbefore) hafter

/-- Where only quote marks are guarded, each backslash of the text has to be taken by another one or take a character itself before
the next guard comes, or the end. -/
theorem escaped_guarded_iff (v : Text) : Escaped false (guarded (· = '\'') v) ↔ EvenRuns v := by
  induction v using Lexeme.escapes_induction with
  | nil => exact iff_of_true .nil evenRuns_nil
  | stray =>
    refine iff_of_false (fun h => ?_) fun h => absurd (h [] 1 [] rfl nofun (.inl rfl)) (by decide)
    cases h with
    | plain hslash _ _ => exact hslash rfl
  | escape c v ih =>
    have hguarded : guarded (· = '\'') ('\\' :: c :: v) = '\\' :: guarded (· = '\'') (c :: v) := guarded_cons_of_neg rfl
    rw [hguarded]
    by_cases hslash : c = '\\'
    · rw [hslash, evenRuns_pair, ← ih, guarded_cons_of_neg rfl, escaped_escape]
    · rw [evenRuns_single hslash, ← ih]
      by_cases hquote : c = '\''
      · subst hquote
        rw [guarded_cons_of_pos rfl, escaped_escape]
        exact iff_of_false (fun h => h.head?_ne rfl) fun h => h.1 rfl
      · rw [guarded_cons_of_neg (by simpa using hquote), escaped_escape]
        exact (and_iff_right hquote).symm
  | plain c v hc ih =>
    rw [evenRuns_cons hc, ← ih]
    by_cases hquote : c = '\''
    · subst hquote
      rw [guarded_cons_of_pos rfl, escaped_escape]
    · rw [guarded_cons_of_neg (by simpa using hquote), escaped_plain hc hquote]

end Literal

namespace Lexeme

open Literal (Escaped Encloses quoted guarded isGuarded EvenRuns)

/-! ## Where literals end -/

variable {q : Quoting} {t : Text}

/-- A mark closes a literal in whose body every other mark is taken. -/
theorem closing_of_escaped (hmark : q.mark = '\'') (h : Escaped false t)
    (hnewline : '\n' ∈ t → q.spansLines = true ∧ q.escapesNewline = true) : closing q (t ++ ['\'']) = some (t.length + 1) := by
  generalize hstray : false = stray at h
  induction h with
  | nil => rw [List.nil_append, closing_cons q (by decide), if_pos hmark.symm]; rfl
  | stray => cases hstray
  | escape c h ih =>
    have hc : ¬ (c = '\n' && !q.escapesNewline) = true := by
      intro hc
      simp only [Bool.and_eq_true, decide_eq_true_eq, Bool.not_eq_true'] at hc
      have hspans := hnewline (hc.1 ▸ List.mem_cons_of_mem _ List.mem_cons_self)
      exact Bool.false_ne_true (hc.2.symm.trans hspans.2)
    rw [List.cons_append, List.cons_append, closing_escape, if_neg hc,
      ih (fun hmem => hnewline (List.mem_cons_of_mem _ (List.mem_cons_of_mem _ hmem))) hstray]
    rfl
  | @plain c hslash hquote _ _ h ih =>
    have hc : ¬ (c = '\n' && !q.spansLines) = true := by
      intro hc
      simp only [Bool.and_eq_true, decide_eq_true_eq, Bool.not_eq_true'] at hc
      have hspans := hnewline (hc.1 ▸ List.mem_cons_self)
      exact Bool.false_ne_true (hc.2.symm.trans hspans.1)
    rw [List.cons_append, closing_cons q hslash, if_neg (hmark ▸ hquote), if_neg hc,
      ih (fun hmem => hnewline (List.mem_cons_of_mem _ hmem)) hstray]
    rfl

/-- A literal that is closed has a body in which every mark is taken. -/
theorem escaped_of_closing (hmark : q.mark = '\'') {n : Nat} (h : closing q t = some n) :
    ∃ body, Escaped false body ∧ t.take n = body ++ ['\''] := by
  fun_induction closing q t generalizing n with
  | case1 | case2 | case5 => cases h
  | case3 c rest hc ih =>
    obtain ⟨m, hm, rfl⟩ := Option.map_eq_some_iff.mp h
    obtain ⟨body, hbody, htake⟩ := ih hm
    exact ⟨'\\' :: c :: body, hbody.escape c, by simp [htake]⟩
  | case4 rest _ =>
    cases h
    exact ⟨[], .nil, by simp [hmark]⟩
  | case6 c rest hesc hc hnl ih =>
    obtain ⟨m, hm, rfl⟩ := Option.map_eq_some_iff.mp h
    obtain ⟨body, hbody, htake⟩ := ih hm
    have hslash : c ≠ '\\' := by
      rintro rfl
      cases rest with
      | nil => cases hm
      | cons d rest => exact hesc d rest rfl rfl
    exact ⟨c :: body, hbody.plain hslash (hmark ▸ hc), by simp [htake]⟩

/-- What a literal takes that is never closed has no mark but those that are taken. -/
theorem escaped_unclosed (t : Text) : ∃ stray, Escaped stray (t.take (unclosed '\'' t)) := by
  induction t using escapes_induction with
  | nil => exact ⟨_, .nil⟩
  | stray => exact ⟨_, .stray⟩
  | escape c t ih =>
    rw [unclosed_escape]
    split
    · exact ⟨_, .stray⟩
    · obtain ⟨stray, ih⟩ := ih
      exact ⟨stray, ih.escape c⟩
  | plain c t hc ih =>
    rw [unclosed_cons _ hc]
    split
    · exact ⟨_, .nil⟩
    · rename_i hstop
      obtain ⟨stray, ih⟩ := ih
      exact ⟨stray, ih.plain hc fun hquote => hstop (by simp [hquote])⟩

/-- A literal encloses a body. -/
theorem encloses_literal (hmark : q.mark = '\'') (a b : Kind) (t : Text) :
    ∃ body, Encloses (t.take (literal q a b t).2) body := by
  unfold literal
  split
  · rename_i n hclosing
    obtain ⟨body, hbody, htake⟩ := escaped_of_closing hmark hclosing
    exact ⟨body, htake ▸ .closed hbody⟩
  · obtain ⟨stray, h⟩ := escaped_unclosed t
    exact ⟨_, by rw [hmark]; exact .unclosed h⟩

/-- A timestamp with its quote marks and backslashes guarded is closed at its end, if it has no newline. -/
theorem closing_timestamp {v : Text} (hv : '\n' ∉ v) :
    closing .timestamp (guarded isGuarded v ++ ['\'']) = some (guarded isGuarded v ++ ['\'']).length := by
  rw [List.length_append]
  exact closing_of_escaped rfl (Literal.escaped_guarded v) fun h => absurd ((Literal.mem_guarded (by decide)).mp h) hv

/-- A raw string with its quote marks guarded is closed at its end if all runs of backslashes are even. -/
theorem closing_raw_iff (v : Text) :
    closing .raw (guarded (· = '\'') v ++ ['\'']) = some (guarded (· = '\'') v ++ ['\'']).length ↔ EvenRuns v := by
  rw [← Literal.escaped_guarded_iff]
  refine ⟨fun h => ?_, fun h => by rw [List.length_append]; exact closing_of_escaped rfl h fun _ => ⟨rfl, rfl⟩⟩
  obtain ⟨body, hbody, htake⟩ := escaped_of_closing rfl h
  rw [List.take_length] at htake
  exact (List.append_inj_left' htake rfl) ▸ hbody

instance : DecidablePred EvenRuns := fun v => decidable_of_iff _ (closing_raw_iff v)

/-- Nothing is wrong with escapes of quote marks and backslashes. -/
theorem timestampProblems_guarded (v : Text) (offset : Nat) : timestampProblems offset (guarded isGuarded v ++ ['\'']) = [] := by
  induction v generalizing offset with
  | nil => rfl
  | cons c v ih =>
    cases hc : isGuarded c with
    | true =>
      rw [Literal.guarded_cons_of_pos hc, List.cons_append, List.cons_append, timestampProblems, ih, List.append_nil]
      exact if_pos hc
    | false =>
      rw [Literal.guarded_cons_of_neg hc, List.cons_append, timestampProblems]
      · exact ih _
      · rintro d rest rfl
        cases hc

/-! ## Scanning a literal -/

theorem coalesce_cons {l : Lexeme} (h : l.kind ≠ .garbage) (ls : List Lexeme) : coalesce (l :: ls) = l :: coalesce ls := by
  rw [coalesce]
  split
  · rename_i hls
    rw [if_neg (by simp [h]), hls]
  · rename_i hls
    rw [hls]

variable {c : Char} {a b : Kind}

namespace Introduces

theorem mark_eq (h : Introduces c q a b) : q.mark = '\'' := by
  cases h <;> rfl

/-- A literal is one piece, closed or not. -/
theorem pieces_eq (h : Introduces c q a b) {k : Kind} (hk : k = a ∨ k = b) (t : Text) : pieces ⟨k, t⟩ = [(a, t)] := by
  cases h <;> rcases hk with rfl | rfl <;> rfl

theorem ne_garbage (h : Introduces c q a b) {k : Kind} (hk : k = a ∨ k = b) : k ≠ .garbage := by
  cases h <;> rcases hk with rfl | rfl <;> decide

/-- A literal that is not closed is reported. -/
theorem problems_ne_nil (h : Introduces c q a b) (checkPatterns : Bool) (offset : Nat) (previous : Option Kind) (t : Text) :
    problems checkPatterns offset previous ⟨b, t⟩ ≠ [] := by
  cases h <;> exact nofun

/-- The literal is the first lexeme. -/
theorem ofText_eq (h : Introduces c q a b) (rest : Text) : ofText (c :: '\'' :: rest) =
    ⟨(literal q a b rest).1, c :: '\'' :: rest.take (literal q a b rest).2⟩ ::
      coalesce (split (rest.drop (literal q a b rest).2)) := by
  rw [ofText, split, h.classify]
  exact coalesce_cons (h.ne_garbage (literal_fst q a b rest)) _

end Introduces

/-- A source that begins like a literal is that literal and nothing else, and all is well with it, exactly if it is closed at its end
and has no problem of its own. -/
theorem scan_quoted_iff (h : Introduces c q a b) (rest : Text) (checkPatterns : Bool) :
    (scan (c :: '\'' :: rest) checkPatterns).tokens = [⟨a, c :: '\'' :: rest, 0, false⟩] ∧
        (scan (c :: '\'' :: rest) checkPatterns).diagnostics = [] ↔
      closing q rest = some rest.length ∧ problems checkPatterns 0 none ⟨a, c :: '\'' :: rest⟩ = [] := by
  simp only [scan, h.ofText_eq, List.flatMap_cons, problemsOf]
  cases hclosing : closing q rest with
  | none =>
    refine iff_of_false (fun hscan => ?_) fun hscan => by cases hscan.1
    simp only [literal, hclosing] at hscan
    exact h.problems_ne_nil _ _ _ _ (List.append_eq_nil_iff.mp hscan.2).1
  | some n =>
    simp only [literal, hclosing, h.pieces_eq (.inl rfl)]
    constructor
    · rintro ⟨htokens, hproblems⟩
      have htake : rest.take n = rest := by
        have hpieces := congrArg (List.map Token.piece) htokens
        rw [Token.map_piece_place] at hpieces
        exact (List.cons.inj (List.cons.inj (Prod.mk.inj (List.cons.inj hpieces).1).2).2).2
      have hlength : n = rest.length := by rw [← List.length_take_of_le (closing_le hclosing), htake]
      rw [htake] at hproblems
      exact ⟨congrArg some hlength, (List.append_eq_nil_iff.mp hproblems).1⟩
    · rintro ⟨hlength, hproblems⟩
      obtain rfl := Option.some.inj hlength
      have hrest : coalesce (split (rest.drop rest.length)) = [] := by
        rw [List.drop_length, split]
        rfl
      rw [hrest, List.take_length, hproblems]
      exact ⟨rfl, rfl⟩

/-- The kind of a token tells that it is a literal. -/
theorem Introduces.kind_of_regular (h : Introduces c q a b) {l : Lexeme} (hl : l.regular = a) : l.kind = a ∨ l.kind = b := by
  unfold regular at hl
  split at hl
  case h_4 => split at hl <;> subst hl <;> cases h
  case h_5 => exact .inl hl
  all_goals
    rename_i hk
    subst hl
    cases h
    exact .inr hk

/-- The letter of a literal can be told from its kind. -/
theorem Introduces.letter_eq (h : Introduces c q a b) {c' : Char} {q' : Quoting} {a' b' k : Kind} (h' : Introduces c' q' a' b')
    (hk : k = a ∨ k = b) (hk' : k = a' ∨ k = b') : c = c' := by
  cases h <;> cases h' <;> first | rfl | (rcases hk with rfl | rfl <;> rcases hk' with hk' | hk' <;> cases hk')

/-- A token of a literal begins with the letter of the literal and a quote mark, and encloses a body. -/
theorem encloses_of_mem_scan (h : Introduces c q a b) {source : Text} {checkPatterns : Bool} {t : Token}
    (ht : t ∈ (scan source checkPatterns).tokens) (hkind : t.kind = a) :
    ∃ rest body, t.text = c :: '\'' :: rest ∧ Encloses rest body := by
  have hplain : a ≠ .garbage ∧ a.isStringPiece = false := by cases h <;> decide
  obtain ⟨d, u, htext, hregular⟩ := exists_classify ht (hkind ▸ hplain.1) (hkind ▸ hplain.2)
  have hk := h.kind_of_regular (hregular.symm.trans hkind)
  have hvalue : isValue (classify d u).1 = true := by
    rcases hk with hk | hk <;> rw [show (classify d u).1 = _ from hk] <;> cases h <;> rfl
  rcases classify_of_isValue hvalue with ⟨-, hnumber⟩ | ⟨q', a', b', u, h', rfl⟩
  · have hk : (number d u).1 = a ∨ (number d u).1 = b := hnumber ▸ hk
    have hall : ∀ k ∈ numberKinds, k ≠ a ∧ k ≠ b := by cases h <;> decide
    exact absurd hk (not_or.mpr (hall _ (number_mem d u)))
  · rw [h'.classify] at hk htext
    obtain ⟨body, hbody⟩ := encloses_literal h'.mark_eq a' b' u
    exact ⟨_, body, h'.letter_eq h (literal_fst q' a' b' u) hk ▸ htext, hbody⟩

end Lexeme

end Remap
