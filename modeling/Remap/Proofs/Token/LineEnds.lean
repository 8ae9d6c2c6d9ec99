import Mathlib.Data.List.Forall2
import Remap.Proofs.Parser.Echo
import Remap.Proofs.Token.Squeeze

/-!
# Carriage returns before newlines

With a carriage return before every newline a source is cut into lexemes of the same kinds. A blank or a comment takes the
carriage return in, otherwise the newline does; a raw string or a regex holds it. A string does not: it spans lines only by
escaped newlines, and of those the carriage return would be the character that is escaped.
-/

namespace Remap

/-- A text with a carriage return before every newline. -/
def Text.crlf (t : Text) : Text := t.flatMap fun c => if c = '\n' then ['\r', '\n'] else [c]

namespace Text

@[simp] theorem crlf_nil : crlf [] = [] := rfl

@[simp] theorem crlf_newline (t : Text) : crlf ('\n' :: t) = '\r' :: '\n' :: crlf t := rfl

theorem crlf_cons {c : Char} (hc : c ≠ '\n') (t : Text) : crlf (c :: t) = c :: crlf t := by
  rw [crlf, List.flatMap_cons, if_neg hc]
  rfl

theorem crlf_append (t u : Text) : crlf (t ++ u) = crlf t ++ crlf u := List.flatMap_append

/-- A text of one line stays as it is. -/
theorem crlf_of_line {t : Text} (h : '\n' ∉ t) : crlf t = t := by
  induction t with
  | nil => rfl
  | cons c t ih =>
    simp only [List.mem_cons, not_or] at h
    rw [crlf_cons (Ne.symm h.1), ih h.2]

/-- A carriage return is put at the end of the first line. -/
theorem crlf_line {t : Text} (h : '\n' ∉ t) (u : Text) : crlf (t ++ '\n' :: u) = t ++ '\r' :: '\n' :: crlf u := by
  rw [crlf_append, crlf_of_line h, crlf_newline]

end Text

open Text (crlf crlf_nil crlf_newline crlf_cons crlf_append crlf_of_line crlf_line)

/-- The kinds of lexemes whose text may be another one with carriage returns before newlines. -/
def Kind.takesReturn : Kind → Bool
  | .newline | .whitespace | .comment | .rawString | .regex => true
  | _ => false

theorem Kind.takesReturn_of_isSpacing {k : Kind} (h : k.isSpacing = true) : k.takesReturn = true := by
  revert h
  cases k <;> decide

namespace Lexeme

/-! ## Blanks and comments -/

/-- A run ends before a newline, or behind the carriage return that was put before it. -/
theorem crlf_dropWhile {p : Char → Bool} (hnewline : p '\n' = false) (hreturn : p '\r' = true) (t : Text) :
    crlf (t.dropWhile p) = (crlf t).dropWhile p ∨ crlf (t.dropWhile p) = '\r' :: (crlf t).dropWhile p := by
  induction t with
  | nil => exact .inl rfl
  | cons c t ih =>
    by_cases hc : c = '\n'
    · subst hc
      refine .inr ?_
      rw [List.dropWhile_cons_of_neg (by simp [hnewline]), crlf_newline, List.dropWhile_cons_of_pos hreturn,
        List.dropWhile_cons_of_neg (by simp [hnewline])]
    · rw [crlf_cons hc]
      by_cases hp : p c = true
      · rw [List.dropWhile_cons_of_pos hp, List.dropWhile_cons_of_pos hp]
        exact ih
      · rw [List.dropWhile_cons_of_neg hp, List.dropWhile_cons_of_neg hp]
        exact .inl (crlf_cons hc t)

theorem drop_run (p : Char → Bool) (t : Text) : t.drop (run p t) = t.dropWhile p := by
  have htake : t.take (run p t) = t.takeWhile p := (List.prefix_iff_eq_take.mp (List.takeWhile_prefix p)).symm
  have hsplit := (t.take_append_drop (run p t)).trans (List.takeWhile_append_dropWhile (p := p)).symm
  rw [htake] at hsplit
  exact List.append_cancel_left hsplit

/-- What is a blank or begins a comment does so whatever comes after it. -/
theorem exists_run_of_isSpacing {c : Char} {t : Text} (hreturn : c ≠ '\r') (h : (classify c t).1.isSpacing = true) :
    ∃ p : Char → Bool, p '\n' = false ∧ p '\r' = true ∧
      ∀ u, (classify c u).1 = (classify c t).1 ∧ (classify c u).2 = run p u := by
  rcases classify_of_isSpacing h with ⟨hspace, hkind⟩ | ⟨rfl, hkind⟩
  · refine ⟨isSpace, rfl, rfl, fun u => ?_⟩
    have hnewline : c ≠ '\n' := by
      rintro rfl
      cases hspace
    have hu : classify c u = (.whitespace, run isSpace u) := by simp [classify, hnewline, hreturn, hspace]
    rw [hu, hkind]
    exact ⟨rfl, rfl⟩
  · exact ⟨(· ≠ '\n'), by decide, by decide, fun u => by rw [hkind]; exact ⟨rfl, rfl⟩⟩

/-! ## Literals -/

theorem classify_string (t : Text) : classify '"' t = literal .string .stringLiteral .unterminatedString t := rfl

theorem classify_raw (t : Text) :
    classify 's' ('\'' :: t) =
      ((literal .raw .rawString .unterminatedRawString t).1, (literal .raw .rawString .unterminatedRawString t).2 + 1) := rfl

theorem classify_regex (t : Text) :
    classify 'r' ('\'' :: t) =
      ((literal .raw .regex .unterminatedRegex t).1, (literal .raw .regex .unterminatedRegex t).2 + 1) := rfl

theorem classify_timestamp (t : Text) :
    classify 't' ('\'' :: t) = ((literal .timestamp .timestamp .unterminatedTimestamp t).1,
      (literal .timestamp .timestamp .unterminatedTimestamp t).2 + 1) := rfl

/-- What lacks a closing mark begins with a quote, or with a letter and a quote mark. -/
theorem quoted_of_isUnclosed {c : Char} {t : Text} (h : (classify c t).1.isUnclosed = true) :
    c = '"' ∨ ∃ u, t = '\'' :: u ∧ (c = 's' ∨ c = 'r' ∨ c = 't') := by
  have hwords : ∀ k ∈ wordKinds, k.isUnclosed = false := by decide
  have hnumbers : ∀ k ∈ numberKinds, k.isUnclosed = false := by decide
  have hmarks : ∀ k ∈ markKinds, k.isUnclosed = false := by decide
  have hword (h : (word c t).1.isUnclosed = true) : ∃ u, t = '\'' :: u ∧ (c = 's' ∨ c = 'r' ∨ c = 't') := by
    have hletter {d : Char} (hd : (decide (run isNamePart t = 0) && decide (t.head? = some '\'') && decide (c = d)) = true) :
        (∃ u, t = '\'' :: u) ∧ c = d := by
      simp only [Bool.and_eq_true, decide_eq_true_eq] at hd
      exact ⟨List.head?_eq_some_iff.mp hd.1.2, hd.2⟩
    simp only [word] at h
    split at h
    · cases h
    split at h
    · rename_i hs
      obtain ⟨⟨u, hu⟩, hc⟩ := hletter hs
      exact ⟨u, hu, .inl hc⟩
    split at h
    · rename_i hr
      obtain ⟨⟨u, hu⟩, hc⟩ := hletter hr
      exact ⟨u, hu, .inr (.inl hc)⟩
    split at h
    · rename_i ht
      obtain ⟨⟨u, hu⟩, hc⟩ := hletter ht
      exact ⟨u, hu, .inr (.inr hc)⟩
    · cases (hwords _ (wordKind_mem _)).symm.trans h
  have hnumber : (number c t).1.isUnclosed = false := hnumbers _ (number_mem c t)
  have hmark : (mark c t).1.isUnclosed = false := hmarks _ (mark_mem c t)
  unfold classify at h
  split at h
  · cases h
  split at h
  · cases h
  split at h
  · cases h
  split at h
  · cases h
  split at h
  · exact .inl ‹_›
  split at h
  · exact .inr (hword h)
  split at h
  · cases h
  split at h
  · cases hnumber.symm.trans h
  · cases hmark.symm.trans h

theorem closing_of_closed {q : Quoting} {a b : Kind} {t : Text} (hb : b.isUnclosed = true) (h : (literal q a b t).1.isUnclosed = false) :
    ∃ n, closing q t = some n ∧ literal q a b t = (a, n) := by
  unfold literal at h ⊢
  cases hclosing : closing q t with
  | none =>
    rw [hclosing] at h
    cases hb.symm.trans h
  | some n => exact ⟨n, rfl, rfl⟩

/-- A literal that may span lines is closed where it was, behind the carriage returns that were put into it. -/
theorem closing_raw_crlf {t : Text} {n : Nat} (h : closing .raw t = some n) :
    closing .raw (crlf t) = some (crlf (t.take n)).length := by
  have hplain {c : Char} (hc : c ≠ '\\') (hmark : c ≠ '\'') (u : Text) : closing .raw (c :: u) = (closing .raw u).map (· + 1) := by
    rw [closing_cons .raw hc]
    simp [Quoting.raw, hmark]
  have hescape (c : Char) (u : Text) : closing .raw ('\\' :: c :: u) = (closing .raw u).map (· + 2) := by
    rw [closing_escape]
    simp [Quoting.raw]
  have hmarked (u : Text) : closing .raw ('\'' :: u) = some 1 := closing_cons .raw (by decide) u
  have hslash : '\\' ≠ '\n' := by decide
  induction t using escapes_induction generalizing n with
  | nil => cases h
  | stray => cases h
  | escape c t ih =>
    rw [hescape] at h
    obtain ⟨m, hm, rfl⟩ := Option.map_eq_some_iff.mp h
    rw [crlf_cons hslash, List.take_succ_cons, List.take_succ_cons, crlf_cons hslash]
    -- of an escaped newline the carriage return is what is escaped
    by_cases hc : c = '\n'
    · subst hc
      rw [crlf_newline, crlf_newline, hescape, hplain (by decide) (by decide), ih hm]
      rfl
    · rw [crlf_cons hc, crlf_cons hc, hescape, ih hm]
      rfl
  | plain c t hc ih =>
    by_cases hmark : c = '\''
    · subst hmark
      rw [hmarked] at h
      cases h
      rw [crlf_cons (by decide), hmarked]
      rfl
    · rw [hplain hc hmark] at h
      obtain ⟨m, hm, rfl⟩ := Option.map_eq_some_iff.mp h
      rw [List.take_succ_cons]
      by_cases hnewline : c = '\n'
      · subst hnewline
        rw [crlf_newline, crlf_newline, hplain (by decide) (by decide), hplain (by decide) (by decide), ih hm]
        rfl
      · rw [crlf_cons hnewline, crlf_cons hnewline, hplain hc hmark, ih hm]
        rfl

/-- A literal that may not span lines holds no newline. -/
theorem closing_line {q : Quoting} (hq : q.Regular) (hlines : q.spansLines = false) (hescapes : q.escapesNewline = false)
    {t : Text} {n : Nat} (h : closing q t = some n) : '\n' ∉ t.take n := by
  induction t using escapes_induction generalizing n with
  | nil => cases h
  | stray => simp [closing, hq.escape.symm] at h
  | escape c t ih =>
    rw [closing_escape] at h
    split at h
    · cases h
    · rename_i hc
      obtain ⟨m, hm, rfl⟩ := Option.map_eq_some_iff.mp h
      simp only [hescapes, Bool.not_false, Bool.and_true, decide_eq_true_eq] at hc
      simp only [List.take_succ_cons, List.mem_cons, not_or]
      exact ⟨by decide, Ne.symm hc, ih hm⟩
  | plain c t hc ih =>
    rw [closing_cons q hc] at h
    split at h
    · rename_i hmark'
      cases h
      simp only [List.take_succ_cons, List.take_zero, List.mem_singleton, hmark']
      exact hq.newline.symm
    · split at h
      · cases h
      · rename_i hnewline
        obtain ⟨m, hm, rfl⟩ := Option.map_eq_some_iff.mp h
        simp only [hlines, Bool.not_false, Bool.and_true, decide_eq_true_eq] at hnewline
        simp only [List.take_succ_cons, List.mem_cons, not_or]
        exact ⟨Ne.symm hnewline, ih hm⟩

/-- A literal that holds no newline is closed where it was. -/
theorem closing_crlf_of_line {q : Quoting} (hq : q.mark ≠ '\\') {t : Text} {n : Nat} (h : closing q t = some n)
    (hline : '\n' ∉ t.take n) : closing q (crlf t) = some n := by
  have hcut : crlf t = t.take n ++ crlf (t.drop n) := by
    rw [← crlf_of_line hline, ← crlf_append, List.take_append_drop]
  rw [hcut]
  exact (closing_append hq (closing_take h) _).1

/-! ## The first lexeme -/

/-- How the first lexeme of a text, with `n` characters after the first, ends where carriage returns stand before newlines, with
`m` characters after the first: it is as it was unless it takes them in, and the one before the newline that comes next may have
been taken in as well. -/
structure Returned (c : Char) (t : Text) (n m : Nat) : Prop where
  text : (classify c t).1.takesReturn = false → (crlf t).take m = t.take n
  rest : crlf (t.drop n) = (crlf t).drop m ∨ crlf (t.drop n) = '\r' :: (crlf t).drop m

variable {c : Char} {t : Text}

/-- A lexeme without a newline in it that is found again. -/
theorem Returned.of_line {n : Nat} (h : '\n' ∉ t.take n) (hn : n ≤ t.length) : Returned c t n n := by
  have hcut : crlf t = t.take n ++ crlf (t.drop n) := by
    rw [← crlf_of_line h, ← crlf_append, List.take_append_drop]
  have hlength : (t.take n).length = n := List.length_take_of_le hn
  exact ⟨fun _ => by rw [hcut, List.take_left' hlength], .inl (by rw [hcut, List.drop_left' hlength])⟩

/-- Blanks and comments. -/
theorem exists_returned_spacing (hc : c ≠ '\r') (h : (classify c t).1.isSpacing = true) :
    ∃ m, classify c (crlf t) = ((classify c t).1, m) ∧ Returned c t (classify c t).2 m := by
  obtain ⟨p, hnewline, hreturn, hrun⟩ := exists_run_of_isSpacing hc h
  refine ⟨run p (crlf t), Prod.ext (hrun _).1 (hrun _).2, fun htakes => ?_, ?_⟩
  · cases (Kind.takesReturn_of_isSpacing h).symm.trans htakes
  · rw [(hrun t).2, drop_run, drop_run]
    exact crlf_dropWhile hnewline hreturn t

/-- A raw string or a regex behind its letter. -/
theorem exists_returned_raw {k : Kind} {u : Text} {n : Nat} (hk : k.takesReturn = true)
    (hclassify : ∀ (v : Text) m, closing .raw v = some m → classify c ('\'' :: v) = (k, m + 1)) (h : closing .raw u = some n) :
    ∃ m, classify c (crlf ('\'' :: u)) = (k, m) ∧ Returned c ('\'' :: u) (n + 1) m := by
  have hcut : crlf u = crlf (u.take n) ++ crlf (u.drop n) := by rw [← crlf_append, List.take_append_drop]
  rw [crlf_cons (by decide)]
  refine ⟨_, hclassify _ _ (closing_raw_crlf h), fun htakes => ?_, .inl ?_⟩
  · rw [hclassify u n h] at htakes
    cases hk.symm.trans htakes
  · rw [crlf_cons (by decide), List.drop_succ_cons, List.drop_succ_cons]
    rw [hcut, List.drop_left]

/-- Literals. A string may have no newline in it. -/
theorem exists_returned_quoted (hquoted : c = '"' ∨ ∃ u, t = '\'' :: u ∧ (c = 's' ∨ c = 'r' ∨ c = 't'))
    (h : (classify c t).1.isUnclosed = false)
    (hstring : (classify c t).1 = .stringLiteral → '\n' ∉ t.take (classify c t).2) :
    ∃ m, classify c (crlf t) = ((classify c t).1, m) ∧ Returned c t (classify c t).2 m := by
  have hclosed {q : Quoting} {a b : Kind} {v : Text} {m : Nat} (hm : closing q v = some m) : literal q a b v = (a, m) := by
    rw [literal, hm]
  rcases hquoted with rfl | ⟨u, rfl, rfl | rfl | rfl⟩
  · rw [classify_string] at h hstring
    obtain ⟨n, hn, hliteral⟩ := closing_of_closed rfl h
    rw [hliteral] at hstring
    rw [classify_string, classify_string, hliteral, hclosed (closing_crlf_of_line (by decide) hn (hstring rfl))]
    exact ⟨n, rfl, .of_line (hstring rfl) (closing_le hn)⟩
  · rw [classify_raw] at h ⊢
    obtain ⟨n, hn, hliteral⟩ := closing_of_closed rfl h
    rw [hliteral]
    exact exists_returned_raw rfl (fun v m hm => by rw [classify_raw, hclosed hm]) hn
  · rw [classify_regex] at h ⊢
    obtain ⟨n, hn, hliteral⟩ := closing_of_closed rfl h
    rw [hliteral]
    exact exists_returned_raw rfl (fun v m hm => by rw [classify_regex, hclosed hm]) hn
  · rw [classify_timestamp] at h
    obtain ⟨n, hn, hliteral⟩ := closing_of_closed rfl h
    have hline : '\n' ∉ u.take n := closing_line .timestamp rfl rfl hn
    rw [crlf_cons (by decide), classify_timestamp, classify_timestamp, hliteral,
      hclosed (closing_crlf_of_line (by decide) hn hline)]
    refine ⟨n + 1, rfl, .of_line ?_ (Nat.succ_le_succ (closing_le hn))⟩
    simp only [List.take_succ_cons, List.mem_cons, not_or]
    exact ⟨by decide, hline⟩

/-- Everything else ends with its line. -/
theorem exists_returned_plain (hc : c ≠ '\r') (hspacing : (classify c t).1.isSpacing = false)
    (hquoted : ¬ (c = '"' ∨ ∃ u, t = '\'' :: u ∧ (c = 's' ∨ c = 'r' ∨ c = 't'))) :
    ∃ m, classify c (crlf t) = ((classify c t).1, m) ∧ Returned c t (classify c t).2 m := by
  by_cases hmem : '\n' ∈ t
  · obtain ⟨line, more, rfl, hline⟩ := List.eq_append_cons_of_mem hmem
    have hclosed : (classify c line).1.isUnclosed = false := by
      refine Bool.eq_false_iff.mpr fun hopen => hquoted ?_
      rcases quoted_of_isUnclosed hopen with hc | ⟨u, rfl, hc⟩
      · exact .inl hc
      · exact .inr ⟨u ++ '\n' :: more, rfl, hc⟩
    obtain ⟨heq, hle⟩ := classify_before (e := '\n') rfl hclosed (fun _ => .inl ⟨rfl, fun h => hc h.1⟩) more
    rw [heq] at hspacing ⊢
    have heq' := (classify_before (e := '\r') rfl hclosed (fun h => absurd h (Bool.eq_false_iff.mp hspacing)) ('\n' :: crlf more)).1
    rw [crlf_line hline, heq']
    refine ⟨_, rfl, .of_line (fun h => hline ?_) (by simp only [List.length_append]; omega)⟩
    rw [List.take_append_of_le_length hle] at h
    exact List.mem_of_mem_take h
  · rw [crlf_of_line hmem]
    exact ⟨_, rfl, .of_line (fun h => hmem (List.mem_of_mem_take h)) (classify_le c t)⟩

/-- The first lexeme of a text is found again with carriage returns before newlines. -/
theorem exists_returned (hc : c ≠ '\r') (h : (classify c t).1.isUnclosed = false)
    (hstring : (classify c t).1 = .stringLiteral → '\n' ∉ t.take (classify c t).2) :
    ∃ m, classify c (crlf t) = ((classify c t).1, m) ∧ Returned c t (classify c t).2 m := by
  by_cases hspacing : (classify c t).1.isSpacing = true
  · exact exists_returned_spacing hc hspacing
  by_cases hquoted : c = '"' ∨ ∃ u, t = '\'' :: u ∧ (c = 's' ∨ c = 'r' ∨ c = 't')
  · exact exists_returned_quoted hquoted h hstring
  · exact exists_returned_plain hc (Bool.eq_false_iff.mpr hspacing) hquoted

/-! ## All lexemes -/

/-- A lexeme of the same kind, and with the same text if it takes no carriage return in. -/
def Resembles (l l' : Lexeme) : Prop := l'.kind = l.kind ∧ (l.kind.takesReturn = false → l'.text = l.text)

/-- The lexemes of a text are found again with carriage returns before newlines. The first of these may have been taken in before. -/
theorem resembles_split {u : Text} (hu : crlf t = u ∨ crlf t = '\r' :: u) (hreturn : '\r' ∉ t)
    (hclosed : ∀ l ∈ split t, l.kind.isUnclosed = false) (hstring : ∀ l ∈ split t, l.kind = .stringLiteral → '\n' ∉ l.text) :
    List.Forall₂ Resembles (split t) (split u) := by
  fun_induction split t generalizing u with
  | case1 =>
    rcases hu with rfl | hu
    · rw [crlf_nil, split]
      exact .nil
    · cases hu
  | case2 c rest kind n hclassify ih =>
    simp only [List.mem_cons, not_or] at hreturn
    have hmore {v : Text} (hv : crlf (rest.drop n) = v ∨ crlf (rest.drop n) = '\r' :: v) :
        List.Forall₂ Resembles (split (rest.drop n)) (split v) :=
      ih hv (fun h => hreturn.2 (List.mem_of_mem_drop h)) (fun l hl => hclosed l (List.mem_cons_of_mem _ hl))
        fun l hl => hstring l (List.mem_cons_of_mem _ hl)
    by_cases hc : c = '\n'
    · subst hc
      cases hclassify
      rw [crlf_newline] at hu
      rcases hu with rfl | hu
      · rw [split]
        exact .cons ⟨rfl, fun h => Bool.noConfusion h⟩ (hmore (.inl rfl))
      · obtain ⟨-, rfl⟩ := List.cons.inj hu
        rw [split]
        exact .cons ⟨rfl, fun h => Bool.noConfusion h⟩ (hmore (.inl rfl))
    · rw [crlf_cons hc] at hu
      obtain rfl : c :: crlf rest = u := by
        rcases hu with hu | hu
        · exact hu
        · exact absurd (List.cons.inj hu).1.symm hreturn.1
      have hfirst := hclosed _ List.mem_cons_self
      have hline : kind = .stringLiteral → '\n' ∉ rest.take n := fun hk h =>
        hstring _ List.mem_cons_self hk (List.mem_cons_of_mem _ h)
      obtain ⟨m, heq, htext, hrest⟩ :=
        exists_returned (Ne.symm hreturn.1) (t := rest) (by rw [hclassify]; exact hfirst) (by rw [hclassify]; exact hline)
      rw [hclassify] at heq htext hrest
      rw [split, heq]
      exact .cons ⟨rfl, fun htakes => congrArg (c :: ·) (htext htakes)⟩ (hmore hrest)

end Lexeme

/-! ## Strings -/

namespace Fragment

/-- A template holds no backslash, no quote and no newline. -/
theorem text_template {t : Text} {f : Fragment} (h : template? t = some f) {c : Char} (hc : c ∈ f.text) :
    c ≠ '\\' ∧ c ≠ '"' ∧ c ≠ '\n' := by
  have hpart {p : Char → Bool} (hslash : p '\\' = false) (hquote : p '"' = false) (hnewline : p '\n' = false) {u : Text}
      (hmem : c ∈ u.takeWhile p) : c ≠ '\\' ∧ c ≠ '"' ∧ c ≠ '\n' := by
    have hp : p c = true := List.all_eq_true.mp List.all_takeWhile c hmem
    refine ⟨?_, ?_, ?_⟩ <;> rintro rfl
    · cases hslash.symm.trans hp
    · cases hquote.symm.trans hp
    · cases hnewline.symm.trans hp
  simp only [template?] at h
  split at h
  · cases h
    simp only [text, List.mem_append, List.mem_cons, List.not_mem_nil, or_false] at hc
    rcases hc with ((((rfl | rfl) | hc) | hc) | hc) | (rfl | rfl)
    · decide
    · decide
    · exact hpart (by decide) (by decide) (by decide) hc
    · exact hpart (by decide) (by decide) (by decide) hc
    · exact hpart (by decide) (by decide) (by decide) hc
    · decide
    · decide
  · cases h

/-- A first fragment is an escape, one other character, or text without backslashes, quotes and newlines. -/
theorem first_cases (c : Char) (rest : Text) :
    (c = '\\' ∧ first c rest = .escape rest.head?) ∨ (c ≠ '\\' ∧ first c rest = .plain c) ∨
      ∀ d ∈ (first c rest).text, d ≠ '\\' ∧ d ≠ '"' ∧ d ≠ '\n' := by
  unfold first
  split
  · exact .inl ⟨‹_›, rfl⟩
  · rename_i hc
    split
    · refine .inr (.inr fun d hd => ?_)
      cases htemplate : template? (rest.drop 1) with
      | none =>
        rw [htemplate] at hd
        simp only [Option.getD_none, text, List.mem_cons, List.not_mem_nil, or_false] at hd
        rcases hd with rfl | rfl <;> decide
      | some f =>
        rw [htemplate] at hd
        exact text_template htemplate hd
    · exact .inr (.inl ⟨hc, rfl⟩)

/-- Where neither a backslash nor a quote stands a string goes on. -/
theorem closing_behind {t u : Text} {n : Nat} (ht : ∀ c ∈ t, c ≠ '\\' ∧ c ≠ '"') (h : Lexeme.closing .string (t ++ u) = some n) :
    ∃ m, Lexeme.closing .string u = some m ∧ n = t.length + m := by
  induction t generalizing n with
  | nil => exact ⟨n, h, (Nat.zero_add n).symm⟩
  | cons c t ih =>
    obtain ⟨hslash, hquote⟩ := ht c List.mem_cons_self
    rw [List.cons_append, Lexeme.closing_cons .string hslash, if_neg (show ¬ c = Lexeme.Quoting.string.mark from hquote)] at h
    split at h
    · cases h
    · obtain ⟨k, hk, rfl⟩ := Option.map_eq_some_iff.mp h
      obtain ⟨m, hm, rfl⟩ := ih (fun d hd => ht d (List.mem_cons_of_mem _ hd)) hk
      exact ⟨m, hm, by rw [List.length_cons]; omega⟩

/-- In the body of a string that is closed behind it, every newline is escaped. -/
theorem escaped_newline {body rest : Text} {n : Nat} (h : Lexeme.closing .string (body ++ rest) = some n) (hn : body.length < n) :
    ∀ f ∈ split body, '\n' ∈ f.text → f = .escape (some '\n') := by
  fun_induction split body generalizing n with
  | case1 => exact fun f hf => absurd hf List.not_mem_nil
  | case2 c body f =>
    rename_i ih
    intro g hg hmem
    have hcut : f.text ++ body.drop (f.text.length - 1) = c :: body := text_first_append c body
    rcases first_cases c body with ⟨rfl, hfirst⟩ | ⟨hc, hfirst⟩ | hfirst
    · replace hfirst : f = .escape body.head? := hfirst
      cases body with
      | nil =>
        rw [hfirst, List.drop_nil, split] at hg
        rw [List.mem_singleton.mp hg] at hmem
        exact absurd hmem (by decide)
      | cons d body =>
        rw [List.cons_append, List.cons_append, Lexeme.closing_escape] at h
        split at h
        · cases h
        obtain ⟨m, hm, rfl⟩ := Option.map_eq_some_iff.mp h
        rcases List.mem_cons.mp hg with rfl | hg
        · rw [hfirst] at hmem ⊢
          have hd : '\n' = d := by simpa [text] using hmem
          rw [List.head?_cons, hd]
        · rw [hfirst] at hg ih
          exact ih hm (Nat.lt_of_succ_lt_succ (Nat.lt_of_succ_lt_succ hn)) g hg hmem
    · replace hfirst : f = .plain c := hfirst
      rw [List.cons_append, Lexeme.closing_cons .string hc] at h
      split at h
      · cases h
        exact absurd hn (by simp)
      split at h
      · cases h
      rename_i hnewline
      obtain ⟨m, hm, rfl⟩ := Option.map_eq_some_iff.mp h
      rcases List.mem_cons.mp hg with rfl | hg
      · rw [hfirst] at hmem
        simp [Lexeme.Quoting.string, ← List.mem_singleton.mp hmem] at hnewline
      · rw [hfirst] at hg ih
        exact ih hm (Nat.lt_of_succ_lt_succ hn) g hg hmem
    · replace hfirst : ∀ d ∈ f.text, d ≠ '\\' ∧ d ≠ '"' ∧ d ≠ '\n' := hfirst
      rw [← hcut, List.append_assoc] at h
      obtain ⟨m, hm, rfl⟩ := closing_behind (fun d hd => ⟨(hfirst d hd).1, (hfirst d hd).2.1⟩) h
      rcases List.mem_cons.mp hg with rfl | hg
      · exact absurd rfl (hfirst _ hmem).2.2
      · refine ih hm ?_ g hg hmem
        have hlength := congrArg List.length hcut
        rw [List.length_append] at hlength
        omega

/-- An escape is a piece of its own. -/
theorem escape_mem_piecesOf {fs : List Fragment} {c : Option Char} (h : .escape c ∈ fs) :
    (Kind.escape, (Fragment.escape c).text) ∈ piecesOf fs := by
  induction fs with
  | nil => cases h
  | cons f fs ih =>
    rw [piecesOf]
    rcases List.mem_cons.mp h with rfl | h
    · exact List.mem_cons_self
    · have hrest := ih h
      split
      · split
        · rename_i heq
          rw [heq] at hrest
          refine List.mem_cons_of_mem _ ((List.mem_cons.mp hrest).resolve_left fun h => ?_)
          cases congrArg Prod.fst h
        · exact List.mem_cons_of_mem _ hrest
      · exact List.mem_append_right _ hrest

end Fragment

namespace Lexeme

/-- A string that spans lines has an escaped newline in it. -/
theorem escaped_of_newline {t : Text} {l : Lexeme} (hl : l ∈ split t) (hk : l.kind = .stringLiteral) (h : '\n' ∈ l.text) :
    (Kind.escape, ['\\', '\n']) ∈ l.pieces := by
  obtain ⟨c, rest, rfl⟩ := exists_of_mem_split hl
  rcases classify_cases c rest with hplain | ⟨rfl, hliteral⟩
  · rw [show (classify c rest).1 = .stringLiteral from hk] at hplain
    cases hplain
  have hclosed : (classify '"' rest).1.isUnclosed = false := by
    rw [show (classify '"' rest).1 = .stringLiteral from hk]
    rfl
  rw [hliteral] at hclosed
  obtain ⟨n, hn, heq⟩ := closing_of_closed rfl hclosed
  rw [hliteral, heq] at h ⊢
  obtain ⟨body, hbody⟩ := take_closing hn
  have hlength : body.length < n := by
    have hlength := congrArg List.length hbody
    rw [List.length_take_of_le (closing_le hn), List.length_append] at hlength
    exact Nat.lt_of_lt_of_eq (Nat.lt_succ_self _) hlength.symm
  have hinside : stringBody ⟨.stringLiteral, '"' :: rest.take n⟩ = body := by simp [stringBody, hbody]
  have hmem : '\n' ∈ body := by
    rw [hbody] at h
    simpa [Quoting.string] using h
  have hbehind : closing .string (body ++ [Quoting.string.mark]) = some n := by
    rw [← hbody]
    exact closing_take hn
  obtain ⟨f, hf, hnewline⟩ : ∃ f ∈ Fragment.split body, '\n' ∈ f.text := by
    rw [← Fragment.flatMap_text_split body] at hmem
    exact List.mem_flatMap.mp hmem
  obtain rfl := Fragment.escaped_newline hbehind hlength f hf hnewline
  simp only [pieces, hinside]
  exact List.mem_append_left _ (List.mem_append_right _ (Fragment.escape_mem_piecesOf hf))

/-! ## Tokens and problems -/

variable {l l' : Lexeme} {ls ls' : List Lexeme}

theorem Resembles.eq (h : Resembles l l') (htakes : l.kind.takesReturn = false) : l' = l := by
  obtain ⟨kind, text⟩ := l
  obtain ⟨kind', text'⟩ := l'
  obtain ⟨hkind, htext⟩ := h
  obtain rfl : kind' = kind := hkind
  obtain rfl : text' = text := htext htakes
  rfl

/-- What takes carriage returns in is one token of its own kind, with which nothing is wrong. -/
theorem pieces_of_takesReturn (h : l.kind.takesReturn = true) :
    l.pieces = [(l.kind, l.text)] ∧ ∀ offset previous, l.problems false offset previous = [] := by
  obtain ⟨kind, text⟩ := l
  revert h
  cases kind <;> intro h <;> first | exact ⟨rfl, fun _ _ => rfl⟩ | cases h

/-- Nothing is wrong with the lexemes if nothing was wrong before. -/
theorem problemsOf_resembles (h : List.Forall₂ Resembles ls ls') {offset : Nat} {previous : Option Kind}
    (hnone : problemsOf false offset previous ls = []) (offset' : Nat) : problemsOf false offset' previous ls' = [] := by
  induction h generalizing offset offset' previous with
  | nil => rfl
  | @cons l l' ls ls' hl _ ih =>
    obtain ⟨hhere, hrest⟩ := List.append_eq_nil_iff.mp hnone
    refine List.append_eq_nil_iff.mpr ⟨?_, ?_⟩
    · by_cases htakes : l.kind.takesReturn = true
      · exact (pieces_of_takesReturn (hl.1 ▸ htakes)).2 _ _
      · rw [hl.eq (Bool.eq_false_iff.mpr htakes)]
        exact problems_eq_nil hhere _ id
    · rw [hl.1]
      exact ih hrest _

end Lexeme

/-- A glimpse of the names only. -/
def Glimpse.names : Glimpse := ⟨fun k t => if k = .id then t else [], fun _ => if_pos rfl⟩

/-- A piece of text as far as it is seen. -/
def Glimpse.piece (v : Glimpse) (p : Kind × Text) : Kind × Text := (p.1, v.text p.1 p.2)

/-- What is seen of placed tokens is what is seen of their pieces. -/
theorem Token.map_seen_place {v : Glimpse} {ps qs : List (Kind × Text)} (h : qs.map v.piece = ps.map v.piece) (offset offset' : Nat)
    (previous : Option Kind) : (place offset' previous qs).map (seen v) = (place offset previous ps).map (seen v) := by
  induction ps generalizing qs offset offset' previous with
  | nil =>
    rw [List.map_nil, List.map_eq_nil_iff] at h
    rw [h]
    rfl
  | cons p ps ih =>
    obtain ⟨⟨kind', text'⟩, qs, rfl, hp, hps⟩ := List.map_eq_cons_iff.mp h
    obtain ⟨kind, text⟩ := p
    obtain ⟨rfl, htext⟩ := Prod.mk.inj hp
    simp only [place, List.map_cons, seen, htext, ih hps (offset + text.bytes) (offset' + text'.bytes) (some kind')]

/-- Only names are seen, so nothing is seen of the carriage returns. -/
theorem Lexeme.map_piece_resembles {ls ls' : List Lexeme} (h : List.Forall₂ Resembles ls ls') :
    (ls'.flatMap pieces).map Glimpse.names.piece = (ls.flatMap pieces).map Glimpse.names.piece := by
  induction h with
  | nil => rfl
  | @cons l l' ls ls' hl _ ih =>
    rw [List.flatMap_cons, List.flatMap_cons, List.map_append, List.map_append, ih]
    by_cases htakes : l.kind.takesReturn = true
    · have hname : l.kind ≠ .id := by
        intro hk
        rw [hk] at htakes
        cases htakes
      rw [(pieces_of_takesReturn htakes).1, (pieces_of_takesReturn (hl.1 ▸ htakes)).1, hl.1]
      simp [Glimpse.piece, Glimpse.names, hname]
    · rw [hl.eq (Bool.eq_false_iff.mpr htakes)]

/-- A source without lexical problems and without escaped newlines has none with carriage returns before newlines, either, and its
tokens look the same but for their texts, names apart. -/
theorem scan_crlf {source : Text} (h : (scan source false).diagnostics = []) (hreturn : '\r' ∉ source)
    (hescape : ∀ t ∈ (scan source false).tokens, t.kind = .escape → t.text ≠ ['\\', '\n']) :
    (scan (crlf source) false).diagnostics = [] ∧
      (scan (crlf source) false).tokens.map (Token.seen .names) = (scan source false).tokens.map (Token.seen .names) := by
  obtain ⟨hsplit, hkinds⟩ := Lexeme.ofText_of_scan h
  simp only [scan, hsplit] at h hescape ⊢
  have hstring : ∀ l ∈ Lexeme.split source, l.kind = .stringLiteral → '\n' ∉ l.text := by
    intro l hl hk hmem
    have hpiece : (Kind.escape, ['\\', '\n']) ∈ (Lexeme.split source).flatMap Lexeme.pieces :=
      List.mem_flatMap.mpr ⟨l, hl, Lexeme.escaped_of_newline hl hk hmem⟩
    rw [← Token.map_piece_place 0 none ((Lexeme.split source).flatMap Lexeme.pieces)] at hpiece
    obtain ⟨t, ht, heq⟩ := List.mem_map.mp hpiece
    exact hescape t ht (congrArg Prod.fst heq) (congrArg Prod.snd heq)
  have hresembles := Lexeme.resembles_split (.inl rfl) hreturn (fun l hl => (hkinds l hl).2) hstring
  have hnone := Lexeme.problemsOf_resembles hresembles h 0
  have hsplit' : Lexeme.ofText (crlf source) = Lexeme.split (crlf source) :=
    Lexeme.coalesce_of_ne_garbage fun l hl => (Lexeme.kind_of_problemsOf hnone hl).1
  rw [hsplit']
  exact ⟨hnone, Token.map_seen_place (Lexeme.map_piece_resembles hresembles) _ _ _⟩

end Remap
