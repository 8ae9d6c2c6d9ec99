import Remap.Proofs.Scanning
import Remap.Proofs.Token.Braces

/-!
# The tokens of a string

A lexeme that is no string becomes one token, and a string becomes a run of them: its opening quote, the pieces of its body, and its
closing quote if it is closed. Where the tokens of a row of lexemes are cut, the cut is between two lexemes if what is behind it is no
piece of a string; and so it is if blanks are cut off in front of such a place, since no string ends with a blank.
-/

namespace Remap

namespace Lexeme

section

variable {l : Lexeme}

theorem opening_of_isString (h : l.isString = true) : l.opening = .doubleQuote := by
  unfold opening
  unfold isString at h
  grind

theorem Genuine.isString_iff (h : l.Genuine) : l.isString = true ↔ l.opening = .doubleQuote := by
  rw [h.opening_eq_doubleQuote]
  simp [isString]

/-- No lexeme begins with what stands only inside a string. -/
theorem Genuine.opening_notMem (h : l.Genuine) : l.opening ∉ [Kind.strText, .escape, .templateOpen, .templateClose] := by
  have hkind : l.kind ∉ [Kind.strText, .escape, .templateOpen, .templateClose] := by
    rcases h with hplain | ⟨hk, -⟩ | ⟨hk, -⟩
    · intro hmem
      have hall : ∀ k ∈ [Kind.strText, .escape, .templateOpen, .templateClose], isPlain k = false := by decide
      rw [hall _ hmem] at hplain
      cases hplain
    · rw [hk]
      decide
    · rw [hk]
      decide
  unfold opening regular
  split
  · decide
  · decide
  · split
    case h_4 => split <;> decide
    case h_5 => exact hkind
    all_goals decide

/-- What a lexeme begins with has a name in messages, trivia apart. -/
theorem Genuine.describe_opening (h : l.Genuine) (hk : l.opening.isTrivia = false) : l.opening.describe ≠ "end of input" := by
  have hall : ∀ k : Kind, k.isForTokens = true → k ∉ [Kind.strText, .escape, .templateOpen, .templateClose] → k.isTrivia = false →
      k.describe ≠ "end of input" := by
    intro k
    cases k <;> decide
  obtain ⟨text, more, hpieces⟩ := l.exists_pieces
  have htokens := (h.kind_of_mem_pieces (p := (l.opening, text)) (by rw [hpieces]; exact List.mem_cons_self)).1
  exact hall _ htokens h.opening_notMem hk

end

/-! ## Cutting a row of lexemes -/

variable {ls : List Lexeme}

/-- What is passed over from the beginning of a row of lexemes on are whole lexemes, if quotes are not passed over. -/
theorem exists_passed {p : Token → Bool} (hp : ∀ t, t.kind = .doubleQuote → p t = false) {ts : List Token}
    (hts : ts.map Token.piece = ls.flatMap pieces) :
    ∃ xs ys, ls = xs ++ ys ∧ (∀ l ∈ xs, l.isString = false) ∧ (ts.takeWhile p).map Token.piece = xs.flatMap pieces ∧
      (ts.dropWhile p).map Token.piece = ys.flatMap pieces := by
  induction ls generalizing ts with
  | nil =>
    rw [List.map_eq_nil_iff.mp hts]
    exact ⟨[], [], rfl, nofun, rfl, rfl⟩
  | cons l ls ih =>
    obtain ⟨t, us, text, more, rfl, ht, hpieces, hus⟩ := exists_opening hts
    by_cases hpass : p t = true
    · have hl : l.isString = false := by
        refine Bool.eq_false_iff.mpr fun hstring => ?_
        cases hpass.symm.trans (hp t (ht.trans (opening_of_isString hstring)))
      rw [pieces_of_not_isString hl] at hpieces
      obtain ⟨-, rfl⟩ := List.cons.inj hpieces
      obtain ⟨xs, ys, rfl, hxs, htake, hdrop⟩ := ih hus
      refine ⟨l :: xs, ys, rfl, List.forall_mem_cons.mpr ⟨hl, hxs⟩, ?_, ?_⟩
      · rw [List.takeWhile_cons_of_pos hpass, List.map_cons, htake, List.flatMap_cons, pieces_of_not_isString hl]
        rw [List.map_cons, List.flatMap_cons, pieces_of_not_isString hl] at hts
        exact congrArg (· :: _) (List.cons.inj hts).1
      · rw [List.dropWhile_cons_of_pos hpass, hdrop]
    · refine ⟨[], l :: ls, rfl, nofun, ?_, ?_⟩
      · rw [List.takeWhile_cons_of_neg hpass]
        rfl
      · rw [List.dropWhile_cons_of_neg hpass, hts]

end Lexeme

/-- The body of a string does not end with a blank. -/
theorem StringBody.getLast? {body : List Token} (h : StringBody body) :
    ∀ t ∈ body.getLast?, t.kind ∈ [Kind.strText, .escape, .templateClose] := by
  induction h with
  | nil => nofun
  | @piece t rest kind _ ih =>
    rw [List.getLast?_cons]
    intro u hu
    obtain rfl := Option.mem_some.mp hu
    cases hrest : rest.getLast? with
    | none => rcases kind with hk | hk <;> simp [hk]
    | some v => exact ih v hrest
  | @template o c inner rest _ _ closes _ ih =>
    rw [List.getLast?_cons, List.getLast?_append, List.getLast?_cons]
    intro u hu
    obtain rfl := Option.mem_some.mp hu
    cases hrest : rest.getLast? with
    | none => simp [closes]
    | some v => exact ih v hrest

namespace Lexeme

variable {l : Lexeme} {ls : List Lexeme}

/-- The last piece of a string is no blank. -/
theorem exists_last (h : l.isString = true) : ∃ front x, l.pieces = front ++ [x] ∧ ¬ (x.1.isTrivia = true ∨ x.1 = .newline) := by
  have hkind : l.kind = .stringLiteral ∨ l.kind = .unterminatedString := by simpa [isString] using h
  rcases hkind with hk | hk
  · exact ⟨_, _, by rw [pieces, hk], by decide⟩
  · rcases (Fragment.piecesOf (Fragment.split l.stringBody)).eq_nil_or_concat with hnil | ⟨front, x, hx⟩
    · exact ⟨[], (.doubleQuote, ['"']), by rw [pieces, hk, hnil]; rfl, by decide⟩
    · refine ⟨(.doubleQuote, ['"']) :: front, x, by simp [pieces, hk, hx], ?_⟩
      have hbody := (Fragment.stringBody_place (Fragment.split l.stringBody) 0 none).getLast?
      have hlast : ((Token.place 0 none (Fragment.piecesOf (Fragment.split l.stringBody))).map Token.piece).getLast? = some x := by
        rw [Token.map_piece_place, hx, List.concat_eq_append, List.getLast?_concat]
      rw [List.getLast?_map] at hlast
      obtain ⟨t, ht, rfl⟩ := Option.map_eq_some_iff.mp hlast
      have hall : ∀ k ∈ [Kind.strText, .escape, .templateClose], ¬ (k.isTrivia = true ∨ k = .newline) := by decide
      exact hall _ (hbody t ht)

/-- Blanks at the end of a row of lexemes are whole lexemes. -/
theorem exists_blanks {xs ys : List (Kind × Text)} (h : ls.flatMap pieces = xs ++ ys) (hys : ∀ y ∈ ys, y.1.isTrivia = true ∨ y.1 = .newline) :
    ∃ before after, ls = before ++ after ∧ (∀ l ∈ after, l.isString = false) ∧ before.flatMap pieces = xs ∧
      after.flatMap pieces = ys := by
  induction ls using List.reverseRecOn generalizing ys with
  | nil =>
    obtain ⟨rfl, rfl⟩ := List.append_eq_nil_iff.mp h.symm
    exact ⟨[], [], rfl, nofun, rfl, rfl⟩
  | append_singleton ls l ih =>
    rcases ys.eq_nil_or_concat with rfl | ⟨zs, y, rfl⟩
    · exact ⟨ls ++ [l], [], (List.append_nil _).symm, nofun, by rw [h, List.append_nil], rfl⟩
    rw [List.concat_eq_append] at h hys ⊢
    rw [List.flatMap_append, List.flatMap_singleton, ← List.append_assoc] at h
    have hl : l.isString = false := by
      refine Bool.eq_false_iff.mpr fun hstring => ?_
      obtain ⟨front, x, hpieces, hx⟩ := exists_last hstring
      rw [hpieces, ← List.append_assoc] at h
      obtain rfl := List.singleton_inj.mp (List.append_inj' h rfl).2
      exact hx (hys x (List.mem_append_right zs List.mem_cons_self))
    rw [pieces_of_not_isString hl] at h
    obtain ⟨hfront, hlast⟩ := List.append_inj' h rfl
    obtain ⟨before, after, rfl, hafter, hbefore, hzs⟩ := ih hfront fun z hz => hys z (List.mem_append_left _ hz)
    refine ⟨before, after ++ [l], List.append_assoc _ _ _, fun m hm => ?_, hbefore, ?_⟩
    · rcases List.mem_append.mp hm with hm | hm
      · exact hafter m hm
      · exact List.mem_singleton.mp hm ▸ hl
    · rw [List.flatMap_append, List.flatMap_singleton, hzs, pieces_of_not_isString hl, hlast]

/-- In front of a piece that is no piece of a string, or at the end, blanks are whole lexemes, and what is in front of them are whole
lexemes, too. -/
theorem exists_stop {xs ys zs : List (Kind × Text)} (h : ls.flatMap pieces = xs ++ (ys ++ zs))
    (hys : ∀ y ∈ ys, y.1.isTrivia = true ∨ y.1 = .newline) (hzs : ∀ z ∈ zs.head?, z.1.isStringPiece = false) :
    ∃ ks ns os, ls = ks ++ (ns ++ os) ∧ (∀ l ∈ ns, l.isString = false) ∧ ks.flatMap pieces = xs ∧ ns.flatMap pieces = ys ∧
      os.flatMap pieces = zs := by
  cases zs with
  | nil =>
    rw [List.append_nil] at h
    obtain ⟨ks, ns, rfl, hns, hxs, hys⟩ := exists_blanks h hys
    exact ⟨ks, ns, [], by rw [List.append_nil], hns, hxs, hys, rfl⟩
  | cons z zs =>
    rw [← List.append_assoc] at h
    obtain ⟨before, l, after, rfl, hl, rfl, hbefore, rfl⟩ := exists_cut h (hzs z rfl)
    obtain ⟨ks, ns, rfl, hns, hxs, hys⟩ := exists_blanks hbefore hys
    exact ⟨ks, ns, l :: after, List.append_assoc _ _ _, hns, hxs, hys, by rw [List.flatMap_cons, pieces_of_not_isString hl]; rfl⟩

/-! ## Runs -/

/-- How the run of tokens of a string ends before the tokens `rest`: with a closing quote, or where the line ends. -/
inductive RunEnds : List Token → List Token → Prop where
  | closed {e : Token} {rest : List Token} (quote : e.kind = .doubleQuote) : RunEnds [e] rest
  | open {rest : List Token} (line : ∀ t ∈ rest.head?, t.kind = .newline) : RunEnds [] rest

/-- Behind a string that is left open its line ends. -/
theorem runEnds_of_unclosed {source : Text} {before after : List Lexeme} (h : ofText source = before ++ l :: after)
    (hl : l.kind = .unterminatedString) {rest : List Token} (hrest : rest.map Token.piece = after.flatMap pieces) : RunEnds [] rest := by
  refine .open fun t ht => ?_
  obtain ⟨more, rfl⟩ := List.head?_eq_some_iff.mp ht
  rcases newline_of_isUnclosed h (by rw [hl]; rfl) with rfl | ⟨m, ms, rfl, hm⟩
  · cases hrest
  · obtain ⟨u, us, -, -, hcons, hu, -⟩ := exists_opening hrest
    obtain ⟨rfl, -⟩ := List.cons.inj hcons
    rw [hu, opening, hm]
    simp only [regular, hm]

/-- Tokens that begin with those of a string: its opening quote, its body, and how it ends. -/
theorem exists_run {source : Text} {before after : List Lexeme} (h : ofText source = before ++ l :: after) (hl : l.isString = true)
    {offset : Nat} {previous : Option Kind} {ts : List Token} (hts : ts = Token.place offset previous ((l :: after).flatMap pieces)) :
    ∃ q body tail rest, ts = q :: (body ++ (tail ++ rest)) ∧ q.kind = .doubleQuote ∧ StringBody body ∧ RunEnds tail rest ∧
      (q :: (body ++ tail)).map Token.piece = l.pieces ∧ rest.map Token.piece = after.flatMap pieces := by
  obtain ⟨closing, hpieces, hends⟩ : ∃ closing,
      l.pieces = (.doubleQuote, ['"']) :: (Fragment.piecesOf (Fragment.split l.stringBody) ++ closing) ∧
        (closing = [(.doubleQuote, ['"'])] ∨ closing = [] ∧ l.kind = .unterminatedString) := by
    have hkind : l.kind = .stringLiteral ∨ l.kind = .unterminatedString := by simpa [isString] using hl
    rcases hkind with hk | hk
    · exact ⟨_, by rw [pieces, hk]; rfl, .inl rfl⟩
    · exact ⟨[], by rw [pieces, hk, List.append_nil]; rfl, .inr ⟨rfl, hk⟩⟩
  rw [List.flatMap_cons, hpieces, List.cons_append, Token.place, List.append_assoc] at hts
  obtain ⟨o₁, p₁, hbody⟩ := Token.place_append (Fragment.piecesOf (Fragment.split l.stringBody)) (closing ++ after.flatMap pieces)
    (offset + Text.bytes ['"']) (some .doubleQuote)
  obtain ⟨o₂, p₂, htail⟩ := Token.place_append closing (after.flatMap pieces) o₁ p₁
  rw [hbody, htail] at hts
  refine ⟨_, _, _, _, hts, rfl, Fragment.stringBody_place _ _ _, ?_, ?_, Token.map_piece_place _ _ _⟩
  · rcases hends with rfl | ⟨rfl, hk⟩
    · exact .closed rfl
    · exact runEnds_of_unclosed h hk (Token.map_piece_place _ _ _)
  · rw [List.map_cons, List.map_append, Token.map_piece_place, Token.map_piece_place, hpieces]
    rfl

end Lexeme

end Remap
