import Remap.Parser.Lookahead
import Remap.Proofs.Token.Origins
import Remap.Proofs.Token.Unclosed
import Remap.Proofs.Tree.Complete

/-!
# What follows a brace

Whether a brace opens an object is asked of the tokens behind it, and these come from the lexemes behind the brace. A string that is
closed is one lexeme, however many tokens it becomes, and none of these but its quotes looks like a quote; behind a string that is left
open its line ends. So the answer can be read off the lexemes: blanks apart, a closing brace comes first, or a string that is closed, and
then a colon.
-/

namespace Remap

namespace Lexeme

/-- Trivia and newlines. -/
def isBlank (l : Lexeme) : Bool := l.kind.isTrivia || l.kind = .newline

/-- The first lexeme that is no blank has a property, together with those behind it. -/
def FirstSolid (p : Lexeme → List Lexeme → Prop) (ls : List Lexeme) : Prop :=
  ∃ blanks l rest, ls = blanks ++ l :: rest ∧ (∀ b ∈ blanks, b.isBlank = true) ∧ l.isBlank = false ∧ p l rest

/-- Blanks apart, a row of lexemes begins with a closing brace, or with a string that is closed and a colon. -/
def BeginsObject : List Lexeme → Prop :=
  FirstSolid fun l rest => l.kind = .braceClose ∨ l.kind = .stringLiteral ∧ FirstSolid (fun m _ => m.kind = .colon) rest

section

variable {p : Lexeme → List Lexeme → Prop} {l : Lexeme} {ls : List Lexeme}

theorem not_firstSolid_nil : ¬ FirstSolid p [] := by
  rintro ⟨blanks, l, rest, h, -⟩
  cases blanks <;> cases h

theorem firstSolid_cons_of_blank (hl : l.isBlank = true) : FirstSolid p (l :: ls) ↔ FirstSolid p ls := by
  constructor
  · rintro ⟨_ | ⟨b, blanks⟩, m, rest, h, hblanks, hm, hp⟩
    · obtain ⟨rfl, -⟩ := List.cons.inj h
      cases hl.symm.trans hm
    · obtain ⟨-, rfl⟩ := List.cons.inj h
      exact ⟨blanks, m, rest, rfl, fun b hb => hblanks b (List.mem_cons_of_mem _ hb), hm, hp⟩
  · rintro ⟨blanks, m, rest, rfl, hblanks, hm, hp⟩
    exact ⟨l :: blanks, m, rest, rfl, List.forall_mem_cons.mpr ⟨hl, hblanks⟩, hm, hp⟩

theorem firstSolid_cons_of_solid (hl : l.isBlank = false) : FirstSolid p (l :: ls) ↔ p l ls := by
  constructor
  · rintro ⟨_ | ⟨b, blanks⟩, m, rest, h, hblanks, -, hp⟩
    · obtain ⟨rfl, rfl⟩ := List.cons.inj h
      exact hp
    · obtain ⟨rfl, -⟩ := List.cons.inj h
      cases hl.symm.trans (hblanks _ List.mem_cons_self)
  · exact fun hp => ⟨[], l, ls, rfl, nofun, hl, hp⟩

end

/-! ## Lexemes and their tokens -/

/-- Behind a literal that is left open its line ends. -/
theorem newline_of_isUnclosed {t : Text} {l : Lexeme} {xs ys : List Lexeme} (h : ofText t = xs ++ l :: ys)
    (hk : l.kind.isUnclosed = true) : ys = [] ∨ ∃ m rest, ys = m :: rest ∧ m.kind = .newline := by
  have hbehind : ofText t = (xs ++ [l]) ++ ys := by
    rw [h, List.append_assoc]
    rfl
  have hys : ofText (ys.flatMap text) = ys := ofText_of_append hbehind
  obtain ⟨o, q, a, b, p, body, hopens, hbody, hopen, rfl⟩ := exists_of_isUnclosed h hk
  have hlength : (body.take (unclosed q.mark body)).length = unclosed q.mark body := List.length_take_of_le (unclosed_le _ _)
  have hdrop : ys.flatMap text = body.drop (unclosed q.mark body) := by
    rw [List.flatMap_cons, List.append_assoc, List.append_cancel_left_eq] at hbody
    exact List.append_cancel_left (hbody.trans (List.take_append_drop _ _).symm)
  have hend := unclosed_end hopens.regular (v := body.take (unclosed q.mark body)) (t := ys.flatMap text)
    (by rw [hdrop, List.take_append_drop]; exact hopen) (by rw [hdrop, List.take_append_drop, hlength])
  rcases hend with hnil | ⟨rest, hnewline⟩
  · left
    rw [← hys, hnil, ofText, split]
    rfl
  · right
    rw [hnewline, ofText_cons (by simp [classify])] at hys
    exact ⟨_, _, hys.symm, by simp [classify]⟩

/-- The kind of the first token of a lexeme. -/
def opening (l : Lexeme) : Kind :=
  match l.kind with
  | .stringLiteral | .unterminatedString => .doubleQuote
  | _ => l.regular

theorem exists_pieces (l : Lexeme) : ∃ t more, l.pieces = (l.opening, t) :: more := by
  unfold pieces opening regular
  split <;> (rename_i hk; try simp only [hk]) <;> simp

theorem opening_eq_iff {l : Lexeme} {k : Kind} (hk : k = .braceClose ∨ k = .colon) : l.opening = k ↔ l.kind = k := by
  unfold opening regular
  rcases hk with rfl | rfl <;> grind

theorem blank_opening (l : Lexeme) : (l.opening.isTrivia = true ∨ l.opening = .newline) ↔ l.isBlank = true := by
  unfold opening regular isBlank Kind.isTrivia
  grind

theorem Genuine.opening_eq_doubleQuote {l : Lexeme} (h : l.Genuine) :
    l.opening = .doubleQuote ↔ l.kind = .stringLiteral ∨ l.kind = .unterminatedString := by
  have hkind : l.kind ≠ .doubleQuote := by
    rintro hk
    have hplain : isPlain l.kind = true := by grind [Genuine]
    rw [hk] at hplain
    cases hplain
  unfold opening regular
  grind

/-- A blank is one token. -/
theorem pieces_of_isBlank {l : Lexeme} (h : l.isBlank = true) : l.pieces = [(l.kind, l.text)] := by
  unfold pieces isBlank Kind.isTrivia at *
  grind

/-- In the body of a string nothing is a quote or ends the line. -/
theorem unlike_end_of_mem_piecesOf {fs : List Fragment} {x : Kind × Text} (h : x ∈ Fragment.piecesOf fs) :
    x.1 ≠ .doubleQuote ∧ x.1 ≠ .newline := by
  rw [← Token.map_piece_place 0 none (Fragment.piecesOf fs)] at h
  obtain ⟨t, ht, rfl⟩ := List.mem_map.mp h
  have hkind := (Fragment.stringBody_place fs 0 none).kind ht
  have hall : ∀ k ∈ [Kind.strText, .escape, .templateOpen, .whitespace, .id, .templateClose], k ≠ .doubleQuote ∧ k ≠ .newline := by decide
  exact hall _ hkind

end Lexeme

namespace Parser.Lookahead

variable {t : Token} {ts : List Token}

theorem significant_cons_of_blank (h : t.kind.isTrivia = true ∨ t.kind = .newline) : significant true (t :: ts) = significant true ts :=
  List.dropWhile_cons_of_pos (by simpa using h)

theorem significant_cons_of_solid (h : ¬ (t.kind.isTrivia = true ∨ t.kind = .newline)) : significant true (t :: ts) = t :: ts :=
  List.dropWhile_cons_of_neg (by simpa using h)

/-- Within a string nothing looks like its closing quote, or like the end of a line. -/
theorem afterString_append {body : List Token} (hbody : ∀ t ∈ body, t.kind ≠ .doubleQuote ∧ t.kind ≠ .newline) :
    afterString (body ++ ts) = afterString ts := by
  induction body with
  | nil => rfl
  | cons t body ih =>
    obtain ⟨hquote, hnewline⟩ := hbody t List.mem_cons_self
    rw [List.cons_append, afterString, if_neg hquote, if_neg hnewline]
    exact ih fun u hu => hbody u (List.mem_cons_of_mem _ hu)

end Parser.Lookahead

namespace Lexeme

variable {l : Lexeme} {ls : List Lexeme} {ts : List Token}

/-- The first token of a row of lexemes, and the tokens behind it. -/
theorem exists_opening (hts : ts.map Token.piece = (l :: ls).flatMap pieces) :
    ∃ t us text more, ts = t :: us ∧ t.kind = l.opening ∧ l.pieces = (l.opening, text) :: more ∧
      us.map Token.piece = more ++ ls.flatMap pieces := by
  obtain ⟨text, more, hpieces⟩ := l.exists_pieces
  rw [List.flatMap_cons, hpieces, List.cons_append] at hts
  obtain ⟨t, us, rfl, ht, hus⟩ := List.map_eq_cons_iff.mp hts
  exact ⟨t, us, text, more, rfl, congrArg Prod.fst ht, hpieces, hus⟩

/-- A blank makes no difference to what is significant. -/
theorem significant_of_isBlank (hl : l.isBlank = true) (hts : ts.map Token.piece = (l :: ls).flatMap pieces) :
    ∃ us : List Token, us.map Token.piece = ls.flatMap pieces ∧
      Parser.Lookahead.significant true ts = Parser.Lookahead.significant true us := by
  obtain ⟨t, us, text, more, rfl, ht, hpieces, hus⟩ := exists_opening hts
  rw [pieces_of_isBlank hl] at hpieces
  obtain ⟨-, rfl⟩ := List.cons.inj hpieces
  exact ⟨us, hus, Parser.Lookahead.significant_cons_of_blank (by rw [ht]; exact l.blank_opening.mpr hl)⟩

theorem solid_opening {t : Token} (hl : l.isBlank = false) (ht : t.kind = l.opening) : ¬ (t.kind.isTrivia = true ∨ t.kind = .newline) := by
  rw [ht, l.blank_opening, hl]
  nofun

theorem startsWith_colon_iff (hts : ts.map Token.piece = ls.flatMap pieces) :
    Parser.Lookahead.startsWith .colon (Parser.Lookahead.significant true ts) = true ↔ FirstSolid (fun l _ => l.kind = .colon) ls := by
  induction ls generalizing ts with
  | nil =>
    rw [List.map_eq_nil_iff.mp hts]
    exact iff_of_false nofun not_firstSolid_nil
  | cons l ls ih =>
    cases hl : l.isBlank with
    | true =>
      obtain ⟨us, hus, heq⟩ := significant_of_isBlank hl hts
      rw [heq, firstSolid_cons_of_blank hl]
      exact ih hus
    | false =>
      obtain ⟨t, us, text, more, rfl, ht, -, -⟩ := exists_opening hts
      rw [Parser.Lookahead.significant_cons_of_solid (solid_opening hl ht), firstSolid_cons_of_solid hl]
      simp only [Parser.Lookahead.startsWith, List.head?_cons, Option.any_some, decide_eq_true_eq, ht]
      exact opening_eq_iff (.inr rfl)

/-- The tokens of the body of a string. -/
theorem afterString_of_piecesOf {fs : List Fragment} {more : List (Kind × Text)} (hts : ts.map Token.piece = Fragment.piecesOf fs ++ more) :
    ∃ us : List Token, us.map Token.piece = more ∧ Parser.Lookahead.afterString ts = Parser.Lookahead.afterString us := by
  obtain ⟨body, us, rfl, hbody, hus⟩ := List.map_eq_append_iff.mp hts
  refine ⟨us, hus, Parser.Lookahead.afterString_append fun t ht => ?_⟩
  exact unlike_end_of_mem_piecesOf (hbody ▸ List.mem_map_of_mem ht)

/-- Behind a string that is closed go on the tokens of the lexemes behind it. -/
theorem afterString_of_closed (hl : l.kind = .stringLiteral) {t : Token} (hts : (t :: ts).map Token.piece = (l :: ls).flatMap pieces) :
    ∃ us : List Token, us.map Token.piece = ls.flatMap pieces ∧ Parser.Lookahead.afterString ts = some us := by
  rw [List.flatMap_cons, pieces, hl, List.append_assoc, List.append_assoc] at hts
  obtain ⟨us, hus, heq⟩ := afterString_of_piecesOf (List.cons.inj hts).2
  obtain ⟨q, us, rfl, hq, hus⟩ := List.map_eq_cons_iff.mp hus
  have hkind : q.kind = .doubleQuote := congrArg Prod.fst hq
  exact ⟨us, hus, by rw [heq, Parser.Lookahead.afterString, if_pos hkind]⟩

/-- A string that is left open has nothing behind it. -/
theorem afterString_of_unclosed (hl : l.kind = .unterminatedString) (hls : ls = [] ∨ ∃ m rest, ls = m :: rest ∧ m.kind = .newline)
    {t : Token} (hts : (t :: ts).map Token.piece = (l :: ls).flatMap pieces) : Parser.Lookahead.afterString ts = none := by
  rw [List.flatMap_cons, pieces, hl, List.append_assoc] at hts
  obtain ⟨us, hus, heq⟩ := afterString_of_piecesOf (List.cons.inj hts).2
  rw [heq]
  rcases hls with rfl | ⟨m, rest, rfl, hm⟩
  · rw [List.map_eq_nil_iff.mp hus]
    rfl
  · obtain ⟨u, us, -, -, rfl, hu, -⟩ := exists_opening hus
    have hkind : u.kind = .newline := by rw [hu, opening, hm]; simp only [regular, hm]
    rw [Parser.Lookahead.afterString, if_neg (by rw [hkind]; decide), if_pos hkind]

/-- Whether a brace opens an object can be read off the lexemes behind it. -/
theorem isObject_iff (hgenuine : ∀ l ∈ ls, l.Genuine)
    (hends : ∀ xs l ys, ls = xs ++ l :: ys → l.kind = .unterminatedString → ys = [] ∨ ∃ m rest, ys = m :: rest ∧ m.kind = .newline)
    (hts : ts.map Token.piece = ls.flatMap pieces) : Parser.Lookahead.isObject ts = true ↔ BeginsObject ls := by
  induction ls generalizing ts with
  | nil =>
    rw [List.map_eq_nil_iff.mp hts]
    exact iff_of_false (by decide) not_firstSolid_nil
  | cons l ls ih =>
    cases hl : l.isBlank with
    | true =>
      obtain ⟨us, hus, heq⟩ := significant_of_isBlank hl hts
      rw [BeginsObject, firstSolid_cons_of_blank hl, Parser.Lookahead.isObject, heq]
      refine ih (fun m hm => hgenuine m (List.mem_cons_of_mem _ hm)) (fun xs m ys h => hends (l :: xs) m ys ?_) hus
      rw [h]
      rfl
    | false =>
      obtain ⟨t, us, text, more, rfl, ht, -, -⟩ := exists_opening hts
      have hclose : t.kind = .braceClose ↔ l.kind = .braceClose := by rw [ht]; exact opening_eq_iff (.inl rfl)
      have hquote : t.kind = .doubleQuote ↔ l.kind = .stringLiteral ∨ l.kind = .unterminatedString := by
        rw [ht]
        exact (hgenuine l List.mem_cons_self).opening_eq_doubleQuote
      rw [BeginsObject, firstSolid_cons_of_solid hl, Parser.Lookahead.isObject, Parser.Lookahead.significant_cons_of_solid (solid_opening hl ht)]
      dsimp only
      by_cases hbrace : l.kind = .braceClose
      · rw [if_pos (hclose.mpr hbrace)]
        exact iff_of_true rfl (.inl hbrace)
      rw [if_neg (mt hclose.mp hbrace)]
      by_cases hclosed : l.kind = .stringLiteral
      · obtain ⟨after, hafter, heq⟩ := afterString_of_closed hclosed hts
        rw [if_pos (hquote.mpr (.inl hclosed)), heq, startsWith_colon_iff hafter]
        simp [hclosed]
      have hnot : ¬ (l.kind = .braceClose ∨ l.kind = .stringLiteral ∧ FirstSolid (fun m _ => m.kind = .colon) ls) := by
        simp [hbrace, hclosed]
      by_cases hopen : l.kind = .unterminatedString
      · rw [if_pos (hquote.mpr (.inr hopen)), afterString_of_unclosed hopen (hends [] l ls rfl hopen) hts]
        exact iff_of_false Bool.false_ne_true hnot
      · rw [if_neg (by simp [hquote, hclosed, hopen])]
        exact iff_of_false Bool.false_ne_true hnot

/-- The token of an opening brace is the one token of a lexeme. -/
theorem exists_brace {xs ys : List (Kind × Text)} {text : Text} (h : ls.flatMap pieces = xs ++ (.braceOpen, text) :: ys) :
    ∃ before after, ls = before ++ ⟨.braceOpen, text⟩ :: after ∧ before.flatMap pieces = xs ∧ after.flatMap pieces = ys := by
  obtain ⟨before, l, after, rfl, -, hl, hbefore, hafter⟩ := exists_cut h rfl
  obtain ⟨hkind, htext⟩ := Prod.mk.inj hl
  have hbrace : l.kind = .braceOpen := by unfold regular at hkind; grind
  exact ⟨before, after, by rw [htext, ← hbrace], hbefore, hafter⟩

end Lexeme

end Remap
