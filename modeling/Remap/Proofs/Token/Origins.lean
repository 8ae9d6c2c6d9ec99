import Remap.Proofs.Token.Tidy
import Remap.Proofs.Token.Written

/-!
# Where tokens come from

A token outside strings is a whole lexeme, well formed or not: a number is a digit and what continues it, and a literal between quote
marks begins with its letter. So the text of a token can be told from its kind.
-/

namespace Remap

/-- An element of a row that is two rows one behind the other is in the first or in the second. -/
theorem cases_of_append_cons {α : Type} {xs ys before after : List α} {x : α} (h : xs ++ ys = before ++ x :: after) :
    (∃ us, xs = before ++ x :: us ∧ after = us ++ ys) ∨ ∃ us, before = xs ++ us ∧ ys = us ++ x :: after := by
  rcases List.append_eq_append_iff.mp h with ⟨us, hbefore, hys⟩ | ⟨us, hxs, hafter⟩
  · exact .inr ⟨us, hbefore, hys⟩
  · cases us with
    | nil => exact .inr ⟨[], by rw [hxs]; simp, hafter.symm⟩
    | cons u us =>
      obtain ⟨rfl, rfl⟩ := List.cons.inj hafter
      exact .inl ⟨us, hxs, rfl⟩

/-- The kinds of pieces that a string is cut into, its quotes included. -/
def Kind.isStringPiece (k : Kind) : Bool :=
  [Kind.doubleQuote, .strText, .escape, .templateOpen, .whitespace, .id, .templateClose].contains k

namespace Lexeme

theorem isStringPiece_of_mem_piecesOf {fs : List Fragment} {x : Kind × Text} (h : x ∈ Fragment.piecesOf fs) :
    x.1.isStringPiece = true := by
  rw [← Token.map_piece_place 0 none (Fragment.piecesOf fs)] at h
  obtain ⟨t, ht, rfl⟩ := List.mem_map.mp h
  have hkind := (Fragment.stringBody_place fs 0 none).kind ht
  have hall : ∀ k ∈ [Kind.strText, .escape, .templateOpen, .whitespace, .id, .templateClose], k.isStringPiece = true := by decide
  exact hall _ hkind

/-- The kind that the token of a lexeme gets, if it is one token. -/
def regular (l : Lexeme) : Kind :=
  match l.kind with
  | .unterminatedRawString => .rawString
  | .unterminatedRegex => .regex
  | .unterminatedTimestamp => .timestamp
  | .malformedNumber => if l.text.contains '.' then .float else .integer
  | kind => kind

/-- Strings, closed or not. -/
def isString (l : Lexeme) : Bool := l.kind = .stringLiteral || l.kind = .unterminatedString

/-- A lexeme that is no string is one token. -/
theorem pieces_of_not_isString {l : Lexeme} (h : l.isString = false) : l.pieces = [(l.regular, l.text)] := by
  unfold pieces regular
  unfold isString at h
  grind

theorem isStringPiece_of_isString {l : Lexeme} (h : l.isString = true) {x : Kind × Text} (hx : x ∈ l.pieces) : x.1.isStringPiece = true := by
  have hquote : Kind.isStringPiece .doubleQuote = true := rfl
  have hkind : l.kind = .stringLiteral ∨ l.kind = .unterminatedString := by simpa [isString] using h
  rcases hkind with hk | hk
  · simp only [pieces, hk, List.mem_append, List.mem_singleton] at hx
    rcases hx with (rfl | hx) | rfl
    · exact hquote
    · exact isStringPiece_of_mem_piecesOf hx
    · exact hquote
  · simp only [pieces, hk, List.mem_append, List.mem_singleton] at hx
    rcases hx with rfl | hx
    · exact hquote
    · exact isStringPiece_of_mem_piecesOf hx

/-- A piece of a lexeme is all of it, or a piece of a string. -/
theorem cases_of_mem_pieces {l : Lexeme} {x : Kind × Text} (h : x ∈ l.pieces) :
    x = (l.regular, l.text) ∨ x.1.isStringPiece = true := by
  cases hl : l.isString with
  | true => exact .inr (isStringPiece_of_isString hl h)
  | false =>
    rw [pieces_of_not_isString hl] at h
    exact .inl (List.mem_singleton.mp h)

/-- A token that is neither stray nor a piece of a string is a lexeme. -/
theorem exists_classify {source : Text} {checkPatterns : Bool} {t : Token} (ht : t ∈ (scan source checkPatterns).tokens)
    (hstray : t.kind ≠ .garbage) (hpiece : t.kind.isStringPiece = false) :
    ∃ c rest, t.text = c :: rest.take (classify c rest).2 ∧ t.kind = regular ⟨(classify c rest).1, t.text⟩ := by
  have hmem : t.piece ∈ (ofText source).flatMap pieces := by
    rw [← Token.map_piece_place 0 none ((ofText source).flatMap pieces)]
    exact List.mem_map_of_mem ht
  obtain ⟨l, hl, hx⟩ := List.mem_flatMap.mp hmem
  rcases cases_of_mem_pieces hx with heq | hstring
  · obtain ⟨hkind, htext⟩ := Prod.mk.inj heq
    rcases mem_coalesce hl with hl | hgarbage
    · obtain ⟨c, rest, rfl⟩ := exists_of_mem_split hl
      exact ⟨c, rest, htext, by rw [htext]; exact hkind⟩
    · exact absurd (by rw [hkind, regular, hgarbage]) hstray
  · cases hpiece.symm.trans hstring

/-- A piece that is no piece of a string is a whole lexeme, and what is around it are whole lexemes. -/
theorem exists_cut {ls : List Lexeme} {xs ys : List (Kind × Text)} {x : Kind × Text} (h : ls.flatMap pieces = xs ++ x :: ys)
    (hx : x.1.isStringPiece = false) : ∃ before l after, ls = before ++ l :: after ∧ l.isString = false ∧ x = (l.regular, l.text) ∧
      before.flatMap pieces = xs ∧ after.flatMap pieces = ys := by
  induction ls generalizing xs with
  | nil => cases xs <;> cases h
  | cons l ls ih =>
    rw [List.flatMap_cons] at h
    rcases cases_of_append_cons h with ⟨us, hpieces, rfl⟩ | ⟨us, rfl, hrest⟩
    · have hl : l.isString = false := by
        refine Bool.eq_false_iff.mpr fun hstring => ?_
        have hmem : x ∈ l.pieces := by simp [hpieces]
        cases hx.symm.trans (isStringPiece_of_isString hstring hmem)
      have hone : xs ++ x :: us = [] ++ [(l.regular, l.text)] := hpieces.symm.trans (pieces_of_not_isString hl)
      obtain ⟨rfl, rfl, rfl⟩ : xs = [] ∧ x = (l.regular, l.text) ∧ us = [] := by simpa [List.append_eq_cons_iff] using hone
      exact ⟨[], l, ls, rfl, hl, rfl, rfl, rfl⟩
    · obtain ⟨before, m, after, rfl, hm, hx, rfl, hafter⟩ := ih hrest
      exact ⟨l :: before, m, after, rfl, hm, hx, rfl, hafter⟩

/-! ## What a lexeme begins with -/

/-- The letters that introduce a literal between quote marks, with how it is quoted and its kinds where it is and is not closed. -/
inductive Introduces : Char → Quoting → Kind → Kind → Prop where
  | rawString : Introduces 's' .raw .rawString .unterminatedRawString
  | regex : Introduces 'r' .raw .regex .unterminatedRegex
  | timestamp : Introduces 't' .timestamp .timestamp .unterminatedTimestamp

/-- A letter that introduces a literal does so right before a quote mark. -/
theorem Introduces.classify {c : Char} {q : Quoting} {a b : Kind} (h : Introduces c q a b) (body : Text) :
    classify c ('\'' :: body) = ((literal q a b body).1, (literal q a b body).2 + 1) := by
  cases h <;> rfl

/-- Whether a lexeme of a kind is a number or begins with a letter and a quote mark. -/
def isValue (k : Kind) : Bool :=
  [Kind.integer, .float, .malformedNumber, .rawString, .unterminatedRawString, .regex, .unterminatedRegex, .timestamp,
    .unterminatedTimestamp].contains k

theorem isValue_wordKind (t : Text) : isValue (wordKind t) = false := by
  have hall : ∀ k ∈ wordKinds, isValue k = false := by decide
  exact hall _ (wordKind_mem t)

theorem isValue_mark (c : Char) (rest : Text) : isValue (mark c rest).1 = false := by
  have hall : ∀ k ∈ markKinds, isValue k = false := by decide
  exact hall _ (mark_mem c rest)

/-- A number begins with a digit, and a literal between quote marks with the letter that introduces it. -/
theorem classify_of_isValue {c : Char} {rest : Text} (h : isValue (classify c rest).1 = true) :
    (c.isDigit = true ∧ classify c rest = number c rest) ∨ ∃ q a b body, Introduces c q a b ∧ rest = '\'' :: body := by
  by_cases hdigit : c.isDigit = true
  · exact .inl ⟨hdigit, classify_of_isDigit hdigit rest⟩
  refine .inr ?_
  by_cases hname : isNameStart c = true
  · rw [classify_of_isNameStart hname] at h
    have hquoted {d : Char} {q : Quoting} {a b : Kind} (hd : Introduces d q a b)
        (hc : (run isNamePart rest = 0 && rest.head? = some '\'' && c = d) = true) :
        ∃ q a b body, Introduces c q a b ∧ rest = '\'' :: body := by
      simp only [Bool.and_eq_true, decide_eq_true_eq] at hc
      obtain ⟨body, hbody⟩ := List.head?_eq_some_iff.mp hc.1.2
      exact ⟨q, a, b, body, hc.2 ▸ hd, hbody⟩
    simp only [word] at h
    split at h
    · cases h
    · split at h
      · exact hquoted .rawString ‹_›
      · split at h
        · exact hquoted .regex ‹_›
        · split at h
          · exact hquoted .timestamp ‹_›
          · exact absurd h (Bool.eq_false_iff.mp (isValue_wordKind _))
  · have hstring : isValue (literal .string .stringLiteral .unterminatedString rest).1 = false := by
      rcases literal_fst .string .stringLiteral .unterminatedString rest with hk | hk <;> rw [hk] <;> rfl
    refine absurd h (Bool.eq_false_iff.mp ?_)
    unfold classify
    rw [if_neg hname, if_neg hdigit]
    split
    · rfl
    · split
      · rfl
      · split
        · rfl
        · split
          · rfl
          · split
            · exact hstring
            · split
              · rfl
              · exact isValue_mark c rest

end Lexeme

end Remap
