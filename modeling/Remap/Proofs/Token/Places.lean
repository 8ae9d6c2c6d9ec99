import Remap.Proofs.Parser.Ordered
import Remap.Proofs.Token.Tiling

/-!
# Where texts stand

A span points to a text of the source if that text stands there. So both of its ends lie between characters, and it is empty
only if the text is. Everything that the scanner reports points to a text that is not empty: a lexeme, or a piece of a string
or of a timestamp. A token points to its own text, and if its kind is written in one way only then that is its text.
-/

namespace Remap

/-- A text stands at a span of a source. -/
def Span.Holds (source : Text) (s : Span) (t : Text) : Prop :=
  ∃ before after, source = before ++ (t ++ after) ∧ s = .ofSize before.bytes t.bytes

/-- A text that is not empty takes some bytes. -/
theorem Text.bytes_pos {t : Text} (h : t ≠ []) : 0 < t.bytes := by
  obtain ⟨c, rest, rfl⟩ := List.exists_cons_of_ne_nil h
  have hpos := c.utf8Size_pos
  simp only [bytes_cons]
  omega

/-- A diagnostic of the scanner about a text of the source that is not empty. -/
structure Diagnostic.Cites (source : Text) (d : Diagnostic) : Prop where
  lexical : d.problem.isLexical = true
  span : ∃ t, t ≠ [] ∧ d.span.Holds source t
  related : d.related = []

theorem Diagnostic.Cites.of_text {source before t after : Text} {p : Problem} {detail : Option Detail} (hp : p.isLexical = true)
    (hsource : source = before ++ (t ++ after)) (ht : t ≠ []) :
    ({ problem := p, span := .ofSize before.bytes t.bytes, detail } : Diagnostic).Cites source :=
  ⟨hp, ⟨t, ht, before, after, hsource, rfl⟩, rfl⟩

namespace Lexeme

variable {source : Text}

theorem cites_fragmentProblems {fs : List Fragment} {before after : Text}
    (h : source = before ++ (fs.flatMap Fragment.text ++ after)) : ∀ d ∈ fragmentProblems before.bytes fs, d.Cites source := by
  induction fs generalizing before with
  | nil => exact fun d hd => absurd hd List.not_mem_nil
  | cons f fs ih =>
    have hfirst : source = before ++ (f.text ++ (fs.flatMap Fragment.text ++ after)) := by
      rw [h, List.flatMap_cons, List.append_assoc]
    have hrest : ∀ d ∈ fragmentProblems (before.bytes + f.text.bytes) fs, d.Cites source := by
      rw [← Text.bytes_append]
      exact ih (by rw [hfirst, List.append_assoc])
    have hhere {p : Problem} {detail : Option Detail} (hp : p.isLexical = true) :
        ({ problem := p, span := .ofSize before.bytes f.text.bytes, detail } : Diagnostic).Cites source :=
      .of_text hp hfirst f.text_ne_nil
    intro d hd
    cases f with
    | plain c => exact hrest d hd
    | template lead name trail => exact hrest d hd
    | openBraces =>
      rcases List.mem_cons.mp hd with rfl | hd
      · exact hhere rfl
      · exact hrest d hd
    | escape c =>
      cases c with
      | none => exact hrest d hd
      | some c =>
        rcases List.mem_append.mp hd with hd | hd
        · cases hc : Literal.isEscape c with
          | true =>
            simp only [hc, if_true] at hd
            cases hd
          | false =>
            simp only [hc, Bool.false_eq_true, if_false] at hd
            rw [List.mem_singleton.mp hd]
            exact hhere rfl
        · exact hrest d hd

theorem cites_timestampProblems {t before after : Text} {offset : Nat} (hoffset : before.bytes = offset)
    (h : source = before ++ (t ++ after)) : ∀ d ∈ timestampProblems offset t, d.Cites source := by
  fun_induction timestampProblems offset t generalizing before with
  | case1 => exact fun d hd => absurd hd List.not_mem_nil
  | case2 offset c rest size here =>
    rename_i ih
    have hpair : source = before ++ (['\\', c] ++ (rest ++ after)) := h
    intro d hd
    rcases List.mem_append.mp hd with hd | hd
    · simp only [here] at hd
      split at hd
      · cases hd
      · rw [List.mem_singleton.mp hd, ← hoffset]
        exact .of_text rfl hpair (List.cons_ne_nil _ _)
    · have hbehind : (before ++ ['\\', c]).bytes = offset + size := by rw [Text.bytes_append, hoffset]
      exact ih hbehind (by rw [hpair, List.append_assoc]) d hd
  | case3 offset c rest _ ih =>
    have hbehind : (before ++ [c]).bytes = offset + c.utf8Size := by
      rw [Text.bytes_append, hoffset, Text.bytes_cons, Text.bytes_nil, Nat.add_zero]
    exact ih hbehind (by rw [h, List.append_assoc]; rfl)

/-! ## How a lexeme is written -/

theorem take_one_of_head? {rest : Text} {c : Char} (h : rest.head? = some c) : rest.take 1 = [c] := by
  rw [List.take_one, h]
  rfl

/-- The kinds of lexemes that may be written in many ways, timestamps and names apart. -/
def loose : List Kind :=
  [.newline, .whitespace, .comment, .stringLiteral, .unterminatedString, .pathField, .malformedNumber, .float, .integer,
    .rawString, .unterminatedRawString, .regex, .unterminatedRegex]

theorem fst_literal_mem {ks : List Kind} {a b : Kind} (ha : a ∈ ks) (hb : b ∈ ks) (q : Quoting) (t : Text) :
    (literal q a b t).1 ∈ ks := by
  unfold literal
  split
  · exact ha
  · exact hb

theorem classify_word_or_mark (c : Char) (rest : Text) :
    classify c rest = word c rest ∨ classify c rest = mark c rest ∨ (classify c rest).1 ∈ loose := by
  have hnumber : (number c rest).1 ∈ loose := by
    simp only [number]
    split
    · simp [loose]
    · split <;> simp [loose]
  unfold classify
  split
  · exact .inr (.inr (by decide))
  · split
    · exact .inr (.inr (by decide))
    · split
      · exact .inr (.inr (by simp [loose]))
      · split
        · exact .inr (.inr (by simp [loose]))
        · split
          · exact .inr (.inr (fst_literal_mem (by decide) (by decide) _ _))
          · split
            · exact .inl rfl
            · split
              · exact .inr (.inr (by simp [loose]))
              · split
                · exact .inr (.inr hnumber)
                · exact .inr (.inl rfl)

/-- A word is a name with `@`, a letter and a literal between quote marks, or a reserved word or a name. -/
theorem word_cases (c : Char) (rest : Text) :
    (word c rest).1 ∈ loose ∨
      (c = 't' ∧ rest.head? = some '\'' ∧ (word c rest).1 ∈ [.timestamp, .unterminatedTimestamp] ∧ 0 < (word c rest).2) ∨
      (word c rest).1 = wordKind (c :: rest.take (word c rest).2) := by
  simp only [word]
  split
  · exact .inl (by simp [loose])
  · split
    · exact .inl (fst_literal_mem (by decide) (by decide) _ _)
    · split
      · exact .inl (fst_literal_mem (by decide) (by decide) _ _)
      · split
        · rename_i h
          simp only [Bool.and_eq_true, decide_eq_true_eq] at h
          exact .inr (.inl ⟨h.2, h.1.2, fst_literal_mem (by decide) (by decide) _ _, Nat.succ_pos _⟩)
        · exact .inr (.inr rfl)

theorem wordKind_ne_timestamp (t : Text) : wordKind t ≠ .timestamp := by
  have hall : ∀ k ∈ wordKinds, k ≠ .timestamp := by decide
  exact hall _ (wordKind_mem t)

theorem mark_ne_timestamp (c : Char) (rest : Text) : (mark c rest).1 ≠ .timestamp := by
  have hall : ∀ k ∈ markKinds, k ≠ .timestamp := by decide
  exact hall _ (mark_mem c rest)

/-- A timestamp begins with a letter and a quote mark. -/
theorem text_of_timestamp {c : Char} {rest : Text} (h : (classify c rest).1 = .timestamp) :
    ∃ body, c :: rest.take (classify c rest).2 = ['t', '\''] ++ body := by
  rcases classify_word_or_mark c rest with hword | hmark | hloose
  · rw [hword] at h ⊢
    rcases word_cases c rest with hloose | ⟨rfl, hquote, -, hpos⟩ | hkind
    · simp [h, loose] at hloose
    · obtain ⟨more, rfl⟩ := List.head?_eq_some_iff.mp hquote
      obtain ⟨m, hm⟩ := Nat.exists_eq_add_one.mpr hpos
      rw [hm, List.take_succ_cons]
      exact ⟨_, rfl⟩
    · exact absurd (hkind.symm.trans h) (wordKind_ne_timestamp _)
  · rw [hmark] at h
    exact absurd h (mark_ne_timestamp c rest)
  · simp [h, loose] at hloose

theorem spelling_wordKind {t : Text} {s : String} (h : (wordKind t).spelling? = some s) : t = s.toList := by
  revert h
  unfold wordKind
  split <;> intro h <;> cases h <;> rfl

theorem spelling_mark {c : Char} {rest : Text} {s : String} (h : (mark c rest).1.spelling? = some s) :
    c :: rest.take (mark c rest).2 = s.toList := by
  revert h
  unfold mark
  split <;> intro h <;> cases h
  all_goals first | rfl | (rw [take_one_of_head? ‹_›]; rfl)

/-- A lexeme of a kind that is written in one way only is written so. -/
theorem spelling_classify {c : Char} {rest : Text} {s : String} (h : (classify c rest).1.spelling? = some s) :
    c :: rest.take (classify c rest).2 = s.toList := by
  have hnone : ∀ k ∈ .timestamp :: .unterminatedTimestamp :: loose, k.spelling? = none := by decide
  rcases classify_word_or_mark c rest with hword | hmark | hloose
  · rw [hword] at h ⊢
    rcases word_cases c rest with hloose | ⟨-, -, hkind, -⟩ | hkind
    · cases (hnone _ (List.mem_append_right [.timestamp, .unterminatedTimestamp] hloose)).symm.trans h
    · cases (hnone _ (List.mem_append_left loose hkind)).symm.trans h
    · exact spelling_wordKind (hkind ▸ h)
  · rw [hmark] at h ⊢
    exact spelling_mark h
  · cases (hnone _ (List.mem_append_right [.timestamp, .unterminatedTimestamp] hloose)).symm.trans h

/-! ## What the scanner reports -/

theorem cites_problems {l : Lexeme} {before after : Text} (h : source = before ++ (l.text ++ after)) (hne : l.text ≠ [])
    (hgenuine : l.Genuine) (htimestamp : l.kind = .timestamp → ∃ body, l.text = ['t', '\''] ++ body) (checkPatterns : Bool)
    (previous : Option Kind) : ∀ d ∈ l.problems checkPatterns before.bytes previous, d.Cites source := by
  have hwhole {p : Problem} {detail : Option Detail} (hp : p.isLexical = true) :
      ∀ d ∈ [({ problem := p, span := .ofSize before.bytes l.text.bytes, detail } : Diagnostic)], d.Cites source := by
    intro d hd
    rw [List.mem_singleton.mp hd]
    exact .of_text hp h hne
  -- the body of a string begins behind its quote
  have hbody {body tail : Text} (htext : l.text = ['"'] ++ (body ++ tail)) :
      ∀ d ∈ fragmentProblems (before.bytes + 1) (Fragment.split body), d.Cites source := by
    have hoffset : before.bytes + 1 = (before ++ ['"']).bytes := by rw [Text.bytes_append]; rfl
    have hsource : source = (before ++ ['"']) ++ ((Fragment.split body).flatMap Fragment.text ++ (tail ++ after)) := by
      rw [Fragment.flatMap_text_split, h, htext]
      simp only [List.append_assoc]
    rw [hoffset]
    exact cites_fragmentProblems hsource
  rcases hgenuine with hplain | ⟨hk, body, htext⟩ | ⟨hk, body, htext⟩
  · unfold problems
    split
    case h_2 hk | h_3 hk =>
      rw [hk] at hplain
      cases hplain
    case h_7 hk =>
      obtain ⟨body, htext⟩ := htimestamp hk
      have hoffset : (before ++ ['t', '\'']).bytes = before.bytes + 2 := by rw [Text.bytes_append]; rfl
      have hsource : source = (before ++ ['t', '\'']) ++ (body ++ after) := by
        rw [h, htext]
        simp
      rw [htext]
      exact cites_timestampProblems hoffset hsource
    case h_9 =>
      split
      · exact fun d hd => absurd hd List.not_mem_nil
      · exact hwhole rfl
    case h_10 =>
      split
      · split
        · exact fun d hd => absurd hd List.not_mem_nil
        · exact hwhole rfl
      · exact fun d hd => absurd hd List.not_mem_nil
    case h_11 => exact fun d hd => absurd hd List.not_mem_nil
    all_goals exact hwhole rfl
  · have hinside : l.stringBody = body := by simp [stringBody, hk, htext]
    simp only [problems, hk, hinside]
    exact hbody (htext.trans (List.append_assoc ..))
  · have hinside : l.stringBody = body := by simp [stringBody, hk, htext]
    simp only [problems, hk, hinside]
    intro d hd
    rcases List.mem_cons.mp hd with rfl | hd
    · exact .of_text rfl h hne
    · have hwritten : l.text = ['"'] ++ (body ++ []) := by rw [htext, List.append_nil]
      exact hbody hwritten d hd

/-- What holds of every lexeme of a text. -/
structure Fit (l : Lexeme) : Prop where
  genuine : l.Genuine
  text_ne_nil : l.text ≠ []
  timestamp : l.kind = .timestamp → ∃ body, l.text = ['t', '\''] ++ body
  spelling : ∀ s, l.kind.spelling? = some s → l.text = s.toList

theorem fit_of_mem_split {t : Text} {l : Lexeme} (h : l ∈ split t) : l.Fit := by
  have hgenuine := (split_spec t).2 l h
  obtain ⟨c, rest, rfl⟩ := exists_of_mem_split h
  exact ⟨hgenuine, List.cons_ne_nil _ _, text_of_timestamp, fun s => spelling_classify⟩

/-- Taking stray characters together leaves every other lexeme as it is. -/
theorem fit_of_mem_coalesce {ls : List Lexeme} {l : Lexeme} (hls : ∀ m ∈ ls, m.Fit) (h : l ∈ coalesce ls) : l.Fit := by
  induction ls generalizing l with
  | nil => cases h
  | cons k rest ih =>
    have hk := hls k List.mem_cons_self
    have hrest : ∀ m ∈ rest, m.Fit := fun m hm => hls m (List.mem_cons_of_mem _ hm)
    simp only [coalesce] at h
    split at h
    · rename_i m more hc
      have hmore : ∀ l ∈ m :: more, l.Fit := fun l hl => ih hrest (hc ▸ hl)
      split at h
      · rcases List.mem_cons.mp h with rfl | h
        · refine ⟨.inl rfl, ?_, fun hkind => Kind.noConfusion hkind, fun s hs => by cases hs⟩
          exact List.append_ne_nil_of_left_ne_nil hk.text_ne_nil _
        · exact hmore l (List.mem_cons_of_mem _ h)
      · rcases List.mem_cons.mp h with rfl | h
        · exact hk
        · exact hmore l h
    · rw [List.mem_singleton.mp h]
      exact hk

theorem fit_of_mem_ofText {t : Text} {l : Lexeme} (h : l ∈ ofText t) : l.Fit :=
  fit_of_mem_coalesce (fun _ => fit_of_mem_split) h

theorem cites_problemsOf {ls : List Lexeme} {before after : Text} (hls : ∀ l ∈ ls, l.Fit)
    (h : source = before ++ (ls.flatMap text ++ after)) (checkPatterns : Bool) (previous : Option Kind) :
    ∀ d ∈ problemsOf checkPatterns before.bytes previous ls, d.Cites source := by
  induction ls generalizing before previous with
  | nil => exact fun d hd => absurd hd List.not_mem_nil
  | cons l ls ih =>
    have hl := hls l List.mem_cons_self
    have hfirst : source = before ++ (l.text ++ (ls.flatMap text ++ after)) := by
      rw [h, List.flatMap_cons, List.append_assoc]
    intro d hd
    rcases List.mem_append.mp hd with hd | hd
    · exact cites_problems hfirst hl.text_ne_nil hl.genuine hl.timestamp checkPatterns previous d hd
    · rw [← Text.bytes_append] at hd
      refine ih (fun m hm => hls m (List.mem_cons_of_mem _ hm)) ?_ _ d hd
      rw [hfirst, List.append_assoc]

end Lexeme

/-- Everything that the scanner reports about a source is about a text of it that is not empty. -/
theorem cites_scan (source : Text) (checkPatterns : Bool) : ∀ d ∈ (scan source checkPatterns).diagnostics, d.Cites source := by
  have h : source = [] ++ ((Lexeme.ofText source).flatMap Lexeme.text ++ []) := by
    rw [Lexeme.flatMap_text_ofText, List.append_nil, List.nil_append]
  exact Lexeme.cites_problemsOf (fun _ => Lexeme.fit_of_mem_ofText) h checkPatterns none

/-! ## Tokens -/

/-- A token among placed pieces points to its own text. -/
theorem Token.holds_of_mem_place {ps : List (Kind × Text)} {t : Token} (h : t ∈ place 0 none ps) :
    t.span.Holds (spelled ps) t.text := by
  obtain ⟨before, after, hsplit⟩ := List.append_of_mem h
  have hplace := eq_place_of_append hsplit
  have hstart : t.start = Text.bytes (spelled (before.map piece)) := by
    simpa [place, piece] using congrArg (fun ts => ts.head?.map Token.start) hplace
  refine ⟨spelled (before.map piece), spelled (after.map piece), ?_, ?_⟩
  · rw [← map_piece_place 0 none ps, hsplit]
    simp [piece]
  · rw [span, stop, hstart]
    rfl

namespace Fragment

/-- The pieces of a fragment that are no plain text are not empty, and their kinds can be written in many ways. -/
def Fit (f : Fragment) : Prop := ∀ p ∈ f.pieces, p.2 ≠ [] ∧ p.1.spelling? = none

theorem fit_escape (c : Option Char) : (escape c).Fit := by
  intro p hp
  rw [List.mem_singleton.mp hp]
  exact ⟨text_ne_nil _, rfl⟩

theorem fit_template {lead name trail : Text} (hname : name ≠ []) : (template lead name trail).Fit := by
  have hblank (t : Text) : ∀ p ∈ (if t.isEmpty then [] else [(Kind.whitespace, t)]), p.2 ≠ [] ∧ p.1.spelling? = none := by
    cases t <;> simp [Kind.spelling?]
  intro p hp
  simp only [pieces, List.mem_append, List.mem_singleton] at hp
  rcases hp with (((rfl | hp) | rfl) | hp) | rfl
  · exact ⟨List.cons_ne_nil _ _, rfl⟩
  · exact hblank lead p hp
  · exact ⟨hname, rfl⟩
  · exact hblank trail p hp
  · exact ⟨List.cons_ne_nil _ _, rfl⟩

theorem fit_template? {t : Text} {f : Fragment} (h : template? t = some f) : f.Fit := by
  simp only [template?] at h
  split at h
  · rename_i hc
    cases h
    refine fit_template fun hnil => ?_
    rw [hnil] at hc
    cases hc
  · cases h

theorem fit_first (c : Char) (rest : Text) : (first c rest).isText = true ∨ (first c rest).Fit := by
  unfold first
  split
  · exact .inr (fit_escape _)
  · split
    · cases ht : template? (rest.drop 1) with
      | none => exact .inl rfl
      | some f => exact .inr (fit_template? ht)
    · exact .inl rfl

theorem fit_of_mem_split {t : Text} {f : Fragment} (h : f ∈ split t) : f.isText = true ∨ f.Fit := by
  fun_induction split t with
  | case1 => cases h
  | case2 c rest g ih =>
    rcases List.mem_cons.mp h with rfl | h
    · exact fit_first c rest
    · exact ih h

theorem fit_piecesOf {fs : List Fragment} (h : ∀ f ∈ fs, f.isText = true ∨ f.Fit) :
    ∀ p ∈ piecesOf fs, p.2 ≠ [] ∧ p.1.spelling? = none := by
  induction fs with
  | nil => exact fun p hp => absurd hp List.not_mem_nil
  | cons f rest ih =>
    have hrest := ih fun g hg => h g (List.mem_cons_of_mem _ hg)
    intro p hp
    simp only [piecesOf] at hp
    split at hp
    · split at hp
      · rename_i t more hpieces
        rcases List.mem_cons.mp hp with rfl | hp
        · exact ⟨List.append_ne_nil_of_left_ne_nil f.text_ne_nil _, rfl⟩
        · exact hrest p (hpieces ▸ List.mem_cons_of_mem _ hp)
      · rcases List.mem_cons.mp hp with rfl | hp
        · exact ⟨f.text_ne_nil, rfl⟩
        · exact hrest p hp
    · rename_i htext
      rcases List.mem_append.mp hp with hp | hp
      · exact (h f List.mem_cons_self).resolve_left htext p hp
      · exact hrest p hp

end Fragment

/-- The pieces of a lexeme are not empty, and each whose kind is written in one way only is written so. -/
theorem Lexeme.Fit.pieces {l : Lexeme} (h : l.Fit) {p : Kind × Text} (hp : p ∈ l.pieces) :
    p.2 ≠ [] ∧ ∀ s, p.1.spelling? = some s → p.2 = s.toList := by
  have hquote : ((Kind.doubleQuote, ['"']) : Kind × Text).2 ≠ [] := List.cons_ne_nil _ _
  have hbody {q : Kind × Text} (hq : q ∈ Fragment.piecesOf (Fragment.split l.stringBody)) :
      q.2 ≠ [] ∧ ∀ s, q.1.spelling? = some s → q.2 = s.toList := by
    obtain ⟨hne, hnone⟩ := Fragment.fit_piecesOf (fun _ => Fragment.fit_of_mem_split) q hq
    exact ⟨hne, fun s hs => by cases hnone.symm.trans hs⟩
  unfold Lexeme.pieces at hp
  split at hp
  · simp only [List.mem_append, List.mem_singleton] at hp
    rcases hp with (rfl | hp) | rfl
    · exact ⟨hquote, fun s hs => by cases hs⟩
    · exact hbody hp
    · exact ⟨hquote, fun s hs => by cases hs⟩
  · simp only [List.mem_append, List.mem_singleton] at hp
    rcases hp with rfl | hp
    · exact ⟨hquote, fun s hs => by cases hs⟩
    · exact hbody hp
  case h_6 =>
    rw [List.mem_singleton.mp hp]
    refine ⟨h.text_ne_nil, fun s hs => ?_⟩
    revert hs
    dsimp only
    split <;> intro hs <;> cases hs
  case h_7 =>
    rw [List.mem_singleton.mp hp]
    exact ⟨h.text_ne_nil, h.spelling⟩
  all_goals
    rw [List.mem_singleton.mp hp]
    exact ⟨h.text_ne_nil, fun s hs => by cases hs⟩

/-- The tokens of a source are not empty, and each whose kind is written in one way only is written so. -/
theorem fit_scan {source : Text} {checkPatterns : Bool} {t : Token} (h : t ∈ (scan source checkPatterns).tokens) :
    t.text ≠ [] ∧ ∀ s, t.kind.spelling? = some s → t.text = s.toList := by
  have hpiece : t.piece ∈ (Lexeme.ofText source).flatMap Lexeme.pieces := by
    rw [← Token.map_piece_place 0 none ((Lexeme.ofText source).flatMap Lexeme.pieces)]
    exact List.mem_map_of_mem h
  obtain ⟨l, hl, hp⟩ := List.mem_flatMap.mp hpiece
  exact (Lexeme.fit_of_mem_ofText hl).pieces hp

end Remap
