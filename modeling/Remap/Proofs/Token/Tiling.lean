import Remap.Token.Scan
import Remap.Proofs.Parser.Effects

/-!
# Tokens tile the source

Each pass of the scanner keeps the text: the lexemes spell out the source, the fragments of a string spell out its body,
and the pieces of a lexeme spell out that lexeme. So the texts of the tokens, one after another, are the source.
-/

namespace Remap

/-- The text that pieces spell out. -/
def spelled (ps : List (Kind × Text)) : Text := ps.flatMap (·.2)

@[simp] theorem spelled_nil : spelled [] = [] := rfl

@[simp] theorem spelled_cons (p : Kind × Text) (ps : List (Kind × Text)) : spelled (p :: ps) = p.2 ++ spelled ps := by
  simp [spelled]

@[simp] theorem spelled_append (ps qs : List (Kind × Text)) : spelled (ps ++ qs) = spelled ps ++ spelled qs := by
  simp [spelled]

theorem spelled_flatMap {α : Type} (f : α → List (Kind × Text)) (xs : List α) :
    spelled (xs.flatMap f) = xs.flatMap fun x => spelled (f x) := by
  induction xs with
  | nil => rfl
  | cons x xs ih => simp only [List.flatMap_cons, spelled_append, ih]

/-- Placing pieces changes neither their kinds nor their texts. -/
theorem Token.map_piece_place (offset : Nat) (previous : Option Kind) (ps : List (Kind × Text)) :
    (Token.place offset previous ps).map Token.piece = ps := by
  induction ps generalizing offset previous with
  | nil => rfl
  | cons p ps ih => simp only [Token.place, List.map_cons, ih, Token.piece]

/-- The offset after placed pieces, and the kind that the next piece comes after. -/
theorem Token.eq_place_of_append {offset : Nat} {previous : Option Kind} {ps : List (Kind × Text)} {before after : List Token}
    (h : Token.place offset previous ps = before ++ after) :
    after = Token.place (offset + Text.bytes (spelled (before.map Token.piece)))
      ((before.getLast?.map (·.kind)).or previous) (after.map Token.piece) := by
  induction before generalizing offset previous ps with
  | nil =>
    rw [List.nil_append] at h
    rw [← h, Token.map_piece_place]
    rfl
  | cons b before ih =>
    cases ps with
    | nil => cases h
    | cons p ps =>
      obtain ⟨hb, hrest⟩ := List.cons.inj h
      have hafter := ih hrest
      rw [hafter, Token.map_piece_place, ← hb]
      congr 1
      · simp only [List.map_cons, spelled_cons, Token.piece, Text.bytes_append, Nat.add_assoc]
      · cases hlast : before.getLast? <;> simp [List.getLast?_cons, hlast]

/-! ## Fragments of a string -/

namespace Fragment

/-- The text after two opening braces that begin a template is the rest of that template and what follows it. -/
theorem text_of_template? {t : Text} {f : Fragment} (h : template? t = some f) :
    ∃ rest, f.text ++ rest = '\x7b' :: '\x7b' :: t := by
  simp only [template?] at h
  split at h
  · rename_i hc
    cases h
    simp only [Bool.and_eq_true] at hc
    obtain ⟨rest, hrest⟩ := List.isPrefixOf_iff_prefix.mp hc.2
    refine ⟨rest, ?_⟩
    simp only [text, List.append_assoc, hrest, List.takeWhile_append_dropWhile]
    rfl
  · cases h

/-- The first fragment of a body is the beginning of that body. -/
theorem text_first (c : Char) (rest : Text) : ∃ more, (first c rest).text ++ more = c :: rest := by
  unfold first
  split
  · rename_i hc
    subst hc
    cases rest with
    | nil => exact ⟨[], rfl⟩
    | cons d rest => exact ⟨rest, rfl⟩
  · split
    · rename_i hc
      simp only [Bool.and_eq_true, decide_eq_true_eq] at hc
      obtain ⟨rfl, hd⟩ := hc
      obtain ⟨rest, rfl⟩ : ∃ r, rest = '\x7b' :: r := by
        cases rest with
        | nil => simp at hd
        | cons d r =>
          simp only [List.head?_cons, Option.some.injEq] at hd
          exact ⟨r, by rw [hd]⟩
      cases ht : template? ((('\x7b' : Char) :: rest).drop 1) with
      | none => exact ⟨rest, rfl⟩
      | some f => exact text_of_template? ht
    · exact ⟨rest, rfl⟩

theorem text_ne_nil (f : Fragment) : f.text ≠ [] := by
  cases f with
  | escape c => cases c <;> simp [text]
  | _ => simp [text]

/-- A body is its first fragment and what is left for the others. -/
theorem text_first_append (c : Char) (rest : Text) :
    (first c rest).text ++ rest.drop ((first c rest).text.length - 1) = c :: rest := by
  obtain ⟨more, h⟩ := text_first c rest
  have hdrop : (c :: rest).drop (first c rest).text.length = more := by rw [← h, List.drop_left]
  have hpos : 0 < (first c rest).text.length := List.length_pos_iff.mpr (text_ne_nil _)
  obtain ⟨n, hn⟩ : ∃ n, (first c rest).text.length = n + 1 := ⟨_, (Nat.sub_add_cancel hpos).symm⟩
  rw [hn, List.drop_succ_cons] at hdrop
  rw [hn, Nat.add_sub_cancel, hdrop, h]

/-- The fragments spell out the body. -/
theorem flatMap_text_split (t : Text) : (split t).flatMap text = t := by
  fun_induction split t with
  | case1 => rfl
  | case2 c rest f ih =>
    rw [List.flatMap_cons, ih]
    exact text_first_append c rest

/-- The pieces of a fragment spell it out. -/
theorem spelled_pieces {f : Fragment} (h : f.isText = false) : spelled f.pieces = f.text := by
  cases f with
  | plain c => cases h
  | openBraces => cases h
  | escape c => simp [pieces]
  | template lead name trail =>
    have hblank : ∀ t : Text, spelled (if t.isEmpty then [] else [(Kind.whitespace, t)]) = t := by
      intro t
      cases t <;> simp
    simp only [pieces, spelled_append, spelled_cons, spelled_nil, hblank, List.append_nil, text]

/-- The pieces of a string body spell it out. -/
theorem spelled_piecesOf (fs : List Fragment) : spelled (piecesOf fs) = fs.flatMap text := by
  induction fs with
  | nil => rfl
  | cons f rest ih =>
    simp only [piecesOf]
    split
    · rw [List.flatMap_cons, ← ih]
      split
      · rename_i h
        rw [h]
        simp only [spelled_cons, List.append_assoc]
      · simp only [spelled_cons]
    · rename_i h
      rw [spelled_append, spelled_pieces (by simpa using h), ih, List.flatMap_cons]

end Fragment

/-! ## Lexemes -/

namespace Lexeme

/-- A literal that is closed ends with its closing mark. -/
theorem take_closing {q : Quoting} {t : Text} {n : Nat} (h : closing q t = some n) :
    ∃ body, t.take n = body ++ [q.mark] := by
  fun_induction closing q t generalizing n with
  | case1 => cases h
  | case2 c rest hc => cases h
  | case3 c rest hc ih =>
    obtain ⟨m, hm, rfl⟩ := Option.map_eq_some_iff.mp h
    obtain ⟨body, hbody⟩ := ih hm
    exact ⟨'\\' :: c :: body, by simp [hbody]⟩
  | case4 rest _ =>
    cases h
    exact ⟨[], by simp⟩
  | case5 c rest _ hc hnl => cases h
  | case6 c rest _ hc hnl ih =>
    obtain ⟨m, hm, rfl⟩ := Option.map_eq_some_iff.mp h
    obtain ⟨body, hbody⟩ := ih hm
    exact ⟨c :: body, by simp [hbody]⟩

/-- The kinds that a word may have. -/
def wordKinds : List Kind := [.underscore, .kwIf, .kwElse, .kwNull, .kwTrue, .kwFalse, .kwAbort, .kwReturn, .id]

/-- The kinds that a number may have. -/
def numberKinds : List Kind := [.malformedNumber, .float, .integer]

/-- The kinds that a delimiter, an operator or a stray character may have. -/
def markKinds : List Kind :=
  [.pipeEquals, .pipePipe, .ampAmp, .bangEquals, .equalsEquals, .greaterEquals, .lessEquals, .questionQuestion, .arrow, .parenOpen,
    .parenClose, .bracketOpen, .bracketClose, .braceOpen, .braceClose, .comma, .semicolon, .colon, .dot, .percent, .equals, .pipe,
    .bang, .greater, .less, .plus, .minus, .star, .slash, .garbage]

theorem wordKind_mem (t : Text) : wordKind t ∈ wordKinds := by
  unfold wordKind
  split <;> decide

theorem number_mem (c : Char) (rest : Text) : (number c rest).1 ∈ numberKinds := by
  simp only [number]
  split
  · exact List.mem_cons_self
  · split
    · exact .tail _ (.head _)
    · exact .tail _ (.tail _ (.head _))

theorem mark_mem (c : Char) (rest : Text) : (mark c rest).1 ∈ markKinds := by
  unfold mark
  split <;> decide

theorem literal_fst (q : Quoting) (a b : Kind) (t : Text) : (literal q a b t).1 = a ∨ (literal q a b t).1 = b := by
  unfold literal
  split
  · exact .inl rfl
  · exact .inr rfl

/-- Whether a shape is that of a token and of nothing between double quotes. -/
def isPlain : Kind → Bool
  | .stringLiteral | .unterminatedString | .doubleQuote | .strText | .escape | .templateOpen | .templateClose => false
  | k => k.toNat < Kind.error.toNat

theorem isPlain_wordKind (t : Text) : isPlain (wordKind t) = true := by
  have hall : ∀ k ∈ wordKinds, isPlain k = true := by decide
  exact hall _ (wordKind_mem t)

theorem isPlain_literal {a b : Kind} (ha : isPlain a = true) (hb : isPlain b = true) (q : Quoting) (t : Text) :
    isPlain (literal q a b t).1 = true := by
  unfold literal
  split
  · exact ha
  · exact hb

theorem isPlain_word (c : Char) (rest : Text) : isPlain (word c rest).1 = true := by
  simp only [word]
  split
  · rfl
  · split
    · exact isPlain_literal rfl rfl _ _
    · split
      · exact isPlain_literal rfl rfl _ _
      · split
        · exact isPlain_literal rfl rfl _ _
        · exact isPlain_wordKind _

theorem isPlain_number (c : Char) (rest : Text) : isPlain (number c rest).1 = true := by
  have hall : ∀ k ∈ numberKinds, isPlain k = true := by decide
  exact hall _ (number_mem c rest)

theorem isPlain_mark (c : Char) (rest : Text) : isPlain (mark c rest).1 = true := by
  have hall : ∀ k ∈ markKinds, isPlain k = true := by decide
  exact hall _ (mark_mem c rest)

/-- A lexeme is a plain one, or it is a string and begins with a double quote. -/
theorem classify_cases (c : Char) (rest : Text) :
    isPlain (classify c rest).1 = true ∨
      c = '"' ∧ classify c rest = literal .string .stringLiteral .unterminatedString rest := by
  unfold classify
  split
  · exact .inl rfl
  · split
    · exact .inl rfl
    · split
      · exact .inl rfl
      · split
        · exact .inl rfl
        · split
          · rename_i hc
            exact .inr ⟨hc, rfl⟩
          · split
            · exact .inl (isPlain_word c rest)
            · split
              · exact .inl rfl
              · split
                · exact .inl (isPlain_number c rest)
                · exact .inl (isPlain_mark c rest)

/-- A lexeme is a plain one, or a string with its quotes. -/
def Genuine (l : Lexeme) : Prop :=
  isPlain l.kind = true ∨ (l.kind = .stringLiteral ∧ ∃ body, l.text = ['"'] ++ body ++ ['"']) ∨
    l.kind = .unterminatedString ∧ ∃ body, l.text = ['"'] ++ body

/-- The lexeme that begins with a character is genuine. -/
theorem genuine_classify (c : Char) (rest : Text) :
    Genuine ⟨(classify c rest).1, c :: rest.take (classify c rest).2⟩ := by
  rcases classify_cases c rest with hplain | ⟨rfl, hlit⟩
  · exact .inl hplain
  · rw [hlit]
    unfold literal
    cases hclosing : closing .string rest with
    | none => exact .inr (.inr ⟨rfl, _, rfl⟩)
    | some n =>
      obtain ⟨body, hbody⟩ := take_closing hclosing
      refine .inr (.inl ⟨rfl, body, ?_⟩)
      simp only [hbody, Quoting.string]
      rfl

/-- The lexemes of a text spell it out, and each is genuine. -/
theorem split_spec (t : Text) : (split t).flatMap text = t ∧ ∀ l ∈ split t, l.Genuine := by
  fun_induction split t with
  | case1 => simp
  | case2 c rest kind n hclassify ih =>
    obtain ⟨htext, hgenuine⟩ := ih
    have hkn : kind = (classify c rest).1 ∧ n = (classify c rest).2 := by rw [hclassify]; exact ⟨rfl, rfl⟩
    constructor
    · simp only [List.flatMap_cons, htext, List.cons_append, List.take_append_drop]
    · intro l hl
      rcases List.mem_cons.mp hl with rfl | hl
      · rw [hkn.1, hkn.2]
        exact genuine_classify c rest
      · exact hgenuine l hl

/-- What a lexeme is: what some place of the text begins with. -/
theorem exists_of_mem_split {t : Text} {l : Lexeme} (h : l ∈ split t) :
    ∃ c rest, l = ⟨(classify c rest).1, c :: rest.take (classify c rest).2⟩ := by
  fun_induction split t with
  | case1 => cases h
  | case2 c rest kind n hclassify ih =>
    rcases List.mem_cons.mp h with rfl | h
    · exact ⟨c, rest, by rw [hclassify]⟩
    · exact ih h

/-- Taking stray characters together keeps the text. -/
theorem flatMap_text_coalesce (ls : List Lexeme) : (coalesce ls).flatMap text = ls.flatMap text := by
  induction ls with
  | nil => rfl
  | cons l rest ih =>
    simp only [coalesce]
    split
    · rename_i m more h
      rw [h] at ih
      split
      · simp only [List.flatMap_cons, ← ih, List.append_assoc]
      · simp only [List.flatMap_cons, ← ih]
    · rename_i h
      rw [h] at ih
      simp [← ih]

/-- Taking stray characters together adds nothing but stray characters. -/
theorem mem_coalesce {ls : List Lexeme} {l : Lexeme} (h : l ∈ coalesce ls) : l ∈ ls ∨ l.kind = .garbage := by
  induction ls generalizing l with
  | nil => cases h
  | cons k rest ih =>
    simp only [coalesce] at h
    split at h
    · rename_i m more hc
      rw [hc] at ih
      split at h
      · rcases List.mem_cons.mp h with rfl | h
        · exact Or.inr rfl
        · rcases ih (List.mem_cons_of_mem _ h) with h | h
          · exact Or.inl (List.mem_cons_of_mem _ h)
          · exact Or.inr h
      · rcases List.mem_cons.mp h with rfl | h
        · exact Or.inl (List.mem_cons_self)
        · rcases ih h with h | h
          · exact Or.inl (List.mem_cons_of_mem _ h)
          · exact Or.inr h
    · rw [List.mem_singleton] at h
      rw [h]
      exact Or.inl List.mem_cons_self

/-- The lexemes of a text spell it out. -/
theorem flatMap_text_ofText (t : Text) : (ofText t).flatMap text = t := by
  rw [ofText, flatMap_text_coalesce, (split_spec t).1]

/-- The lexemes of a text are genuine. -/
theorem genuine_of_mem_ofText {t : Text} {l : Lexeme} (h : l ∈ ofText t) : l.Genuine := by
  rcases mem_coalesce h with h | h
  · exact (split_spec t).2 l h
  · exact .inl (by rw [h]; rfl)

/-- The pieces of a genuine lexeme spell it out. -/
theorem Genuine.spelled_pieces {l : Lexeme} (h : l.Genuine) : spelled l.pieces = l.text := by
  rcases h with hplain | ⟨hk, body, hbody⟩ | ⟨hk, body, hbody⟩
  · unfold pieces
    split
    · rename_i hk
      rw [hk] at hplain
      cases hplain
    · rename_i hk
      rw [hk] at hplain
      cases hplain
    all_goals simp
  · simp [pieces, spelled_append, Fragment.spelled_piecesOf, Fragment.flatMap_text_split, stringBody, hk, hbody]
  · simp [pieces, Fragment.spelled_piecesOf, Fragment.flatMap_text_split, stringBody, hk, hbody]

end Lexeme

/-- The texts of the tokens, one after another, are the source. -/
theorem spelled_scan (source : Text) (checkPatterns : Bool) :
    spelled ((scan source checkPatterns).tokens.map Token.piece) = source := by
  simp only [scan, Token.map_piece_place, spelled_flatMap]
  have h : ∀ l ∈ Lexeme.ofText source, spelled l.pieces = l.text := fun l hl =>
    (Lexeme.genuine_of_mem_ofText hl).spelled_pieces
  calc (Lexeme.ofText source).flatMap (fun l => spelled l.pieces)
      = (Lexeme.ofText source).flatMap Lexeme.text := by
        rw [List.flatMap_def, List.flatMap_def, List.map_congr_left h]
    _ = source := Lexeme.flatMap_text_ofText source

end Remap
