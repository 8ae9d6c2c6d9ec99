import Remap.Proofs.Token.Tiling

/-!
# Tidy tokens

A source without lexical diagnostics is cut into tidy tokens: every double quote opens or closes a string, between its two
quotes stand only pieces of text, escapes and whole templates, and every integer fits in 64 bits together with the minus
sign right before it, if there is one.
-/

namespace Remap

/-- What stands between the quotes of a string. -/
inductive StringBody : List Token → Prop where
  | nil : StringBody []
  | piece {t : Token} {rest : List Token} (kind : t.kind = .strText ∨ t.kind = .escape) (more : StringBody rest) :
      StringBody (t :: rest)
  | template {o c : Token} {inner rest : List Token} (opens : o.kind = .templateOpen)
      (inside : ∀ t ∈ inner, t.kind = .whitespace ∨ t.kind = .id) (closes : c.kind = .templateClose)
      (more : StringBody rest) : StringBody (o :: (inner ++ c :: rest))

/-- After a piece of text comes the rest of the body. -/
theorem StringBody.tail {t : Token} {rest : List Token} (h : StringBody (t :: rest)) (hk : t.kind = .strText) :
    StringBody rest := by
  generalize hts : t :: rest = ts at h
  cases h with
  | nil => cases hts
  | piece _ more =>
    cases hts
    exact more
  | template opens _ _ _ =>
    cases hts
    rw [hk] at opens
    cases opens

/-- Tokens without lexical problems; `signed` says that a minus sign stands right before them. -/
inductive Tidy : Bool → List Token → Prop where
  | nil (signed : Bool) : Tidy signed []
  | plain {signed : Bool} {t : Token} {rest : List Token} (kind : t.kind ≠ .doubleQuote) (outside : t.kind ≠ .templateOpen)
      (integer : t.kind = .integer → (Literal.integer? signed t.text).isSome = true)
      (more : Tidy (decide (t.kind = .minus)) rest) : Tidy signed (t :: rest)
  | string {signed : Bool} {q e : Token} {body rest : List Token} (opens : q.kind = .doubleQuote) (inside : StringBody body)
      (closes : e.kind = .doubleQuote) (more : Tidy false rest) : Tidy signed (q :: (body ++ e :: rest))

namespace Tidy

variable {signed : Bool} {t : Token} {rest : List Token}

/-- After a token that is no quote come tidy tokens. -/
theorem tail (h : Tidy signed (t :: rest)) (hk : t.kind ≠ .doubleQuote) : Tidy (decide (t.kind = .minus)) rest := by
  cases h with
  | plain _ _ _ more => exact more
  | string opens _ _ _ => exact absurd opens hk

/-- An integer has a value, negative after a minus sign. -/
theorem isSome_integer (h : Tidy signed (t :: rest)) (hk : t.kind = .integer) : (Literal.integer? signed t.text).isSome = true := by
  cases h with
  | plain _ _ integer _ => exact integer hk
  | string opens _ _ _ =>
    rw [hk] at opens
    cases opens

/-- A quote opens a string that is closed, with tidy tokens after it. -/
theorem string_of_quote (h : Tidy signed (t :: rest)) (hk : t.kind = .doubleQuote) :
    ∃ body e more, rest = body ++ e :: more ∧ StringBody body ∧ e.kind = .doubleQuote ∧ Tidy false more := by
  cases h with
  | plain kind _ _ _ => exact absurd hk kind
  | @string _ _ e body more _ inside closes hmore => exact ⟨body, e, more, rfl, inside, closes, hmore⟩

/-- Tidy tokens after blanks are tidy. -/
theorem of_blanks {blanks ts : List Token} (h : Tidy signed (blanks ++ ts))
    (hblanks : ∀ t ∈ blanks, t.kind.isTrivia = true ∨ t.kind = .newline) :
    ∃ signed', (signed = false → signed' = false) ∧ Tidy signed' ts := by
  induction blanks generalizing signed with
  | nil => exact ⟨signed, id, h⟩
  | cons t blanks ih =>
    have hkind : t.kind ≠ .doubleQuote ∧ t.kind ≠ .minus := by
      constructor <;> (intro hk; have := hblanks t List.mem_cons_self; rw [hk] at this; revert this; decide)
    have hrest := h.tail hkind.1
    rw [decide_eq_false hkind.2] at hrest
    obtain ⟨signed', hsigned, htidy⟩ := ih hrest fun t ht => hblanks t (List.mem_cons_of_mem _ ht)
    exact ⟨signed', fun _ => hsigned rfl, htidy⟩

end Tidy

/-- Every template is closed. -/
def Whole (ts : List Token) : Prop :=
  ∀ o rest, o :: rest <:+ ts → o.kind = .templateOpen →
    ∃ inner c more, rest = inner ++ c :: more ∧ (∀ t ∈ inner, t.kind = .whitespace ∨ t.kind = .id) ∧ c.kind = .templateClose

namespace Whole

theorem of_suffix {ts us : List Token} (h : Whole ts) (hus : us <:+ ts) : Whole us :=
  fun o rest hrest => h o rest (hrest.trans hus)

theorem nil : Whole [] := by
  intro o rest hrest
  cases List.suffix_nil.mp hrest

/-- A token that opens no template makes no difference. -/
theorem cons {t : Token} {ts : List Token} (h : Whole ts) (ht : t.kind ≠ .templateOpen) : Whole (t :: ts) := by
  intro o rest hrest ho
  rcases List.suffix_cons_iff.mp hrest with heq | hrest
  · cases heq
    exact absurd ho ht
  · exact h o rest hrest ho

theorem append {xs ts : List Token} (h : Whole ts) (hxs : ∀ t ∈ xs, t.kind ≠ .templateOpen) : Whole (xs ++ ts) := by
  induction xs with
  | nil => exact h
  | cons x xs ih => exact (ih fun t ht => hxs t (List.mem_cons_of_mem _ ht)).cons (hxs x List.mem_cons_self)

end Whole

/-- The templates between the quotes of a string are closed. -/
theorem StringBody.whole {body ts : List Token} (hbody : StringBody body) (h : Whole ts) : Whole (body ++ ts) := by
  induction hbody with
  | nil => exact h
  | piece kind _ ih =>
    refine ih.cons ?_
    rcases kind with hk | hk <;> rw [hk] <;> decide
  | @template o c inner rest opens inside closes _ ih =>
    have hinner : Whole (inner ++ c :: (rest ++ ts)) := by
      refine (ih.cons (by rw [closes]; decide)).append fun t ht => ?_
      rcases inside t ht with hk | hk <;> rw [hk] <;> decide
    intro o' rest' hrest ho
    rw [List.cons_append, List.append_assoc, List.cons_append] at hrest
    rcases List.suffix_cons_iff.mp hrest with heq | hrest
    · cases heq
      exact ⟨inner, c, rest ++ ts, rfl, inside, closes⟩
    · exact hinner o' rest' hrest ho

/-- The templates of tidy tokens are closed. -/
theorem Tidy.whole {signed : Bool} {ts : List Token} (h : Tidy signed ts) : Whole ts := by
  induction h with
  | nil => exact .nil
  | plain _ outside _ _ ih => exact ih.cons outside
  | @string _ q e body rest opens inside closes _ ih =>
    have hbody : Whole (body ++ e :: rest) := inside.whole (ih.cons (by rw [closes]; decide))
    exact hbody.cons (by rw [opens]; decide)

/-- What comes after an opening brace is tidy. -/
def Braced (ts : List Token) : Prop := ∀ b rest, b :: rest <:+ ts → b.kind = .braceOpen → ∃ signed, Tidy signed rest

namespace Braced

theorem of_suffix {ts us : List Token} (h : Braced ts) (hus : us <:+ ts) : Braced us :=
  fun b rest hrest => h b rest (hrest.trans hus)

/-- Tokens that open no brace make no difference. -/
theorem append {xs ts : List Token} (h : Braced ts) (hxs : ∀ t ∈ xs, t.kind ≠ .braceOpen) : Braced (xs ++ ts) := by
  induction xs with
  | nil => exact h
  | cons x xs ih =>
    intro b rest hrest hb
    rcases List.suffix_cons_iff.mp hrest with heq | hrest
    · cases heq
      exact absurd hb (hxs _ List.mem_cons_self)
    · exact ih (fun t ht => hxs t (List.mem_cons_of_mem _ ht)) b rest hrest hb

end Braced

/-- No kind but these stands between the quotes of a string. -/
theorem StringBody.kind {body : List Token} (h : StringBody body) {t : Token} (ht : t ∈ body) :
    t.kind ∈ [Kind.strText, .escape, .templateOpen, .whitespace, .id, .templateClose] := by
  induction h with
  | nil => cases ht
  | piece kind _ ih =>
    rcases List.mem_cons.mp ht with rfl | ht
    · rcases kind with hk | hk <;> rw [hk] <;> decide
    · exact ih ht
  | template opens inside closes _ ih =>
    rcases List.mem_cons.mp ht with rfl | ht
    · rw [opens]
      decide
    · rcases List.mem_append.mp ht with ht | ht
      · rcases inside t ht with hk | hk <;> rw [hk] <;> decide
      · rcases List.mem_cons.mp ht with rfl | ht
        · rw [closes]
          decide
        · exact ih ht

/-- Every integer among tidy tokens has a value, negative after a minus sign. -/
theorem Tidy.isSome_integer_of_split {signed : Bool} {xs rest : List Token} {t : Token} (h : Tidy signed (xs ++ t :: rest))
    (hk : t.kind = .integer) :
    (Literal.integer? (xs.getLast?.elim signed fun m => decide (m.kind = .minus)) t.text).isSome = true := by
  generalize hts : xs ++ t :: rest = ts at h
  induction h generalizing xs with
  | nil => simp at hts
  | @plain signed x more _ _ integer _ ih =>
    cases xs with
    | nil =>
      cases hts
      exact integer hk
    | cons y xs =>
      cases hts
      have hvalue := ih rfl
      cases xs with
      | nil => exact hvalue
      | cons z xs => rwa [List.getLast?_cons_cons]
  | @string signed q e body more opens inside closes _ ih =>
    have hquote : t.kind ≠ .doubleQuote := by
      rw [hk]
      decide
    cases xs with
    | nil =>
      cases hts
      exact absurd opens hquote
    | cons y xs =>
      obtain ⟨rfl, hrow⟩ := List.cons.inj hts
      rcases List.append_eq_append_iff.mp hrow with ⟨as, rfl, has⟩ | ⟨as, rfl, has⟩
      · -- the integer would be inside the string, or be its closing quote
        cases as with
        | nil =>
          cases has
          exact absurd closes hquote
        | cons a as =>
          cases has
          have hkind := inside.kind (List.mem_append_right _ List.mem_cons_self)
          rw [hk] at hkind
          exact absurd hkind (by decide)
      · cases as with
        | nil =>
          cases has
          exact absurd closes hquote
        | cons a as =>
          obtain ⟨rfl, hmore⟩ := List.cons.inj has
          have hvalue := ih hmore.symm
          have hlast : (y :: (body ++ e :: as)).getLast? = (e :: as).getLast? := by
            rw [← List.cons_append, List.getLast?_append, List.getLast?_eq_some_getLast (List.cons_ne_nil e as), Option.some_or]
          rw [hlast]
          cases as with
          | nil => simpa [closes] using hvalue
          | cons b as => rwa [List.getLast?_cons_cons]

/-- Tidy tokens are tidy after every opening brace: braces between quotes are text. -/
theorem Tidy.braced {signed : Bool} {ts : List Token} (h : Tidy signed ts) : Braced ts := by
  induction h with
  | nil => exact fun b rest hrest => by cases List.suffix_nil.mp hrest
  | plain _ _ _ more ih =>
    intro b rest hrest hb
    rcases List.suffix_cons_iff.mp hrest with heq | hrest
    · cases heq
      exact ⟨_, more⟩
    · exact ih b rest hrest hb
  | @string _ q e body rest opens inside closes _ ih =>
    have hbody : Braced (q :: body ++ [e] ++ rest) := by
      refine ih.append fun t ht => ?_
      rcases List.mem_append.mp ht with ht | ht
      · rcases List.mem_cons.mp ht with rfl | ht
        · rw [opens]
          decide
        · intro hk
          have hmem := inside.kind ht
          rw [hk] at hmem
          revert hmem
          decide
      · rw [List.mem_singleton.mp ht, closes]
        decide
    simpa using hbody

namespace Token

/-- Consecutive pieces are placed part by part. -/
theorem place_append (xs ys : List (Kind × Text)) (offset : Nat) (previous : Option Kind) :
    ∃ offset' previous', place offset previous (xs ++ ys) = place offset previous xs ++ place offset' previous' ys := by
  induction xs generalizing offset previous with
  | nil => exact ⟨offset, previous, rfl⟩
  | cons x xs ih =>
    obtain ⟨kind, text⟩ := x
    obtain ⟨offset', previous', h⟩ := ih (offset + text.bytes) (some kind)
    exact ⟨offset', previous', by rw [List.cons_append, place, h, place, List.cons_append]⟩

theorem kind_of_mem_place {xs : List (Kind × Text)} {offset : Nat} {previous : Option Kind} {t : Token}
    (h : t ∈ place offset previous xs) : ∃ x ∈ xs, t.kind = x.1 := by
  have hpiece : t.piece ∈ xs := by
    rw [← map_piece_place offset previous xs]
    exact List.mem_map_of_mem h
  exact ⟨t.piece, hpiece, rfl⟩

end Token

namespace Fragment

/-- The pieces of a string body become the inside of a string. -/
theorem stringBody_place (fs : List Fragment) (offset : Nat) (previous : Option Kind) :
    StringBody (Token.place offset previous (piecesOf fs)) := by
  induction fs generalizing offset previous with
  | nil => exact .nil
  | cons f rest ih =>
    by_cases hf : f.isText = true
    · simp only [piecesOf, hf, if_true]
      split
      · rename_i t more hrest
        -- The rest begins with text too: its first piece grows to the left, and what comes after it stays in place.
        have hbody := ih (offset + f.text.bytes) previous
        rw [hrest, Token.place] at hbody
        rw [Token.place, Text.bytes_append, ← Nat.add_assoc]
        exact .piece (.inl rfl) (hbody.tail rfl)
      · exact .piece (.inl rfl) (ih _ _)
    · cases f with
      | plain c | openBraces => exact absurd rfl hf
      | escape c => exact .piece (.inr rfl) (ih _ _)
      | template lead name trail =>
        have hblank : ∀ t : Text, ∀ x ∈ (if t.isEmpty then [] else [(Kind.whitespace, t)]), x.1 = .whitespace := by
          intro t x hx
          split at hx
          · cases hx
          · rw [List.mem_singleton.mp hx]
        obtain ⟨offset', previous', hplace⟩ := Token.place_append
          ((if lead.isEmpty then [] else [(Kind.whitespace, lead)]) ++ [(.id, name)]
            ++ (if trail.isEmpty then [] else [(Kind.whitespace, trail)]))
          ((Kind.templateClose, ['\x7d', '\x7d']) :: piecesOf rest) (offset + Text.bytes ['\x7b', '\x7b']) (some .templateOpen)
        simp only [piecesOf, hf, pieces, List.append_assoc, List.cons_append, List.nil_append] at hplace ⊢
        rw [if_neg Bool.false_ne_true, Token.place, hplace]
        refine .template rfl (fun t ht => ?_) rfl (ih _ _)
        obtain ⟨x, hx, hk⟩ := Token.kind_of_mem_place ht
        rw [hk]
        rcases List.mem_append.mp hx with hx | hx
        · exact .inl (hblank lead x hx)
        · rcases List.mem_cons.mp hx with rfl | hx
          · exact .inr rfl
          · exact .inl (hblank trail x hx)

end Fragment

namespace Lexeme

/-- A lexeme that is no string and has no problems becomes one token of its own kind, and an integer fits. -/
theorem pieces_of_plain {l : Lexeme} {checkPatterns : Bool} {offset : Nat} {previous : Option Kind}
    (hplain : isPlain l.kind = true) (h : l.problems checkPatterns offset previous = []) :
    l.pieces = [(l.kind, l.text)] ∧
      (l.kind = .integer → (Literal.integer? (decide (previous = some .minus)) l.text).isSome = true) := by
  constructor
  · unfold pieces
    split
    case h_7 => rfl
    all_goals
      rename_i hk
      first
      | rw [hk] at hplain
        exact absurd hplain (by decide)
      | simp [problems, hk] at h
  · intro hk
    have hfits : integerFits previous l.text = true := by
      simp only [problems, hk] at h
      by_cases hf : integerFits previous l.text = true
      · exact hf
      · rw [if_neg hf] at h
        cases h
    unfold integerFits at hfits
    unfold Literal.integer?
    split at hfits
    · rename_i m hm
      rw [hm]
      by_cases hminus : previous = some .minus
      · simp [hminus]
      · simpa [hminus] using hfits
    · cases hfits

/-- Lexemes without problems become tidy tokens. -/
theorem tidy_place {checkPatterns : Bool} {ls : List Lexeme} {offset : Nat} {previous : Option Kind}
    (hgenuine : ∀ l ∈ ls, l.Genuine) (h : problemsOf checkPatterns offset previous ls = []) (offset' : Nat)
    (previous' : Option Kind) :
    Tidy (decide (previous = some .minus)) (Token.place offset' previous' (ls.flatMap pieces)) := by
  induction ls generalizing offset previous offset' previous' with
  | nil => exact .nil _
  | cons l ls ih =>
    obtain ⟨hproblems, hrest⟩ := List.append_eq_nil_iff.mp h
    have hmore := fun o p => ih (fun l hl => hgenuine l (List.mem_cons_of_mem _ hl)) hrest o p
    rw [List.flatMap_cons]
    rcases hgenuine l List.mem_cons_self with hplain | ⟨hk, -⟩ | ⟨hk, -⟩
    · obtain ⟨hpieces, hinteger⟩ := pieces_of_plain hplain hproblems
      rw [hpieces]
      refine .plain (fun hk => ?_) (fun hk => ?_) hinteger ?_
      · rw [show l.kind = .doubleQuote from hk] at hplain
        cases hplain
      · rw [show l.kind = .templateOpen from hk] at hplain
        cases hplain
      · simpa using hmore _ _
    · obtain ⟨o, p, hplace⟩ := Token.place_append (Fragment.piecesOf (Fragment.split l.stringBody))
        ((.doubleQuote, ['"']) :: ls.flatMap pieces) (offset' + Text.bytes ['"']) (some .doubleQuote)
      simp only [pieces, hk, List.append_assoc, List.cons_append, List.nil_append]
      rw [Token.place, hplace]
      refine .string rfl (Fragment.stringBody_place _ _ _) rfl ?_
      have := hmore (o + Text.bytes ['"']) (some .doubleQuote)
      rwa [hk] at this
    · simp [problems, hk] at hproblems

end Lexeme

/-- The tokens of a source without lexical diagnostics are tidy. -/
theorem tidy_scan {source : Text} {checkPatterns : Bool} (h : (scan source checkPatterns).diagnostics = []) :
    Tidy false (scan source checkPatterns).tokens :=
  Lexeme.tidy_place (fun _ hl => Lexeme.genuine_of_mem_ofText hl) h 0 none

end Remap
