import Remap.Proofs.Token.Join

/-!
# Squeezing layout

A source is squeezed by putting one space in place of every run of blanks and comments that stands outside literals. The
lexemes of the squeezed source are those of the source, squeezed: cutting a lexeme off depends on what comes after it only
through the next character, and through whether a literal that begins there is ever closed. Squeezing closes no literal that
was open before (`StandsIn`).
-/

namespace Remap

/-- Without stray characters blanks and comments are all the trivia there is. -/
theorem Kind.isTrivia_eq_false {k : Kind} (hgarbage : k ≠ .garbage) (h : ¬ k.isSpacing = true) : k.isTrivia = false := by
  revert hgarbage h
  cases k <;> decide

namespace Lexeme

/-- One space. -/
def space : Lexeme := ⟨.whitespace, [' ']⟩

/-- Lexemes with one space in place of every run of blanks and comments. -/
def squeeze : List Lexeme → List Lexeme
  | [] => []
  | l :: rest =>
    if l.kind.isSpacing then
      if rest.head?.any (·.kind.isSpacing) then squeeze rest else space :: squeeze rest
    else l :: squeeze rest

theorem mem_squeeze {ls : List Lexeme} {l : Lexeme} (h : l ∈ squeeze ls) : l = space ∨ l ∈ ls := by
  induction ls with
  | nil => cases h
  | cons m rest ih =>
    rw [squeeze] at h
    split at h
    · split at h
      · exact (ih h).imp_right (List.mem_cons_of_mem _)
      · rcases List.mem_cons.mp h with rfl | h
        · exact .inl rfl
        · exact (ih h).imp_right (List.mem_cons_of_mem _)
    · rcases List.mem_cons.mp h with rfl | h
      · exact .inr List.mem_cons_self
      · exact (ih h).imp_right (List.mem_cons_of_mem _)

/-- Where blanks or comments come first, a space does when they are squeezed. -/
theorem exists_squeeze {ls : List Lexeme} (h : ls.head?.any (·.kind.isSpacing) = true) : ∃ more, squeeze ls = space :: more := by
  induction ls with
  | nil => cases h
  | cons l rest ih =>
    rw [squeeze, if_pos (by simpa using h)]
    split
    · rename_i hrest
      exact ih hrest
    · exact ⟨_, rfl⟩

end Lexeme

/-- A source with one space in place of every run of blanks and comments outside literals. -/
def squeezed (source : Text) : Text := (Lexeme.squeeze (Lexeme.ofText source)).flatMap Lexeme.text

namespace Lexeme

/-! ## What a lexeme takes of a text -/

theorem closing_le {q : Quoting} {t : Text} {n : Nat} (h : closing q t = some n) : n ≤ t.length := by
  fun_induction closing q t generalizing n with
  | case1 | case2 | case5 => cases h
  | case3 c rest hc ih =>
    obtain ⟨m, hm, rfl⟩ := Option.map_eq_some_iff.mp h
    simpa using ih hm
  | case4 rest _ =>
    cases h
    exact Nat.le_add_left _ _
  | case6 c rest _ hc hnl ih =>
    obtain ⟨m, hm, rfl⟩ := Option.map_eq_some_iff.mp h
    simpa using ih hm

theorem unclosed_le (mark : Char) (t : Text) : unclosed mark t ≤ t.length := by
  fun_induction unclosed mark t <;> simp only [List.length_cons, List.length_nil] <;> omega

theorem literal_le (q : Quoting) (a b : Kind) (t : Text) : (literal q a b t).2 ≤ t.length := by
  unfold literal
  split
  · exact closing_le ‹_›
  · exact unclosed_le _ _

theorem word_le (c : Char) (t : Text) : (word c t).2 ≤ t.length := by
  have hliteral {q : Quoting} {a b : Kind} {d : Char}
      (h : (decide (run isNamePart t = 0) && decide (t.head? = some '\'') && decide (c = d)) = true) :
      (literal q a b (t.drop 1)).2 + 1 ≤ t.length := by
    simp only [Bool.and_eq_true, decide_eq_true_eq] at h
    cases t with
    | nil => cases h.1.2
    | cons d t => exact Nat.succ_le_succ (literal_le q a b t)
  simp only [word]
  split
  · exact run_le_length _ _
  · split
    · exact hliteral ‹_›
    · split
      · exact hliteral ‹_›
      · split
        · exact hliteral ‹_›
        · exact run_le_length _ _

theorem classify_le (c : Char) (t : Text) : (classify c t).2 ≤ t.length := by
  unfold classify
  split
  · exact Nat.zero_le _
  split
  · rename_i h
    cases t with
    | nil => simp at h
    | cons d t => exact Nat.le_add_left _ _
  split
  · exact run_le_length _ _
  split
  · exact run_le_length _ _
  split
  · exact literal_le _ _ _ _
  split
  · exact word_le c t
  split
  · exact run_le_length _ _
  split
  · exact (number_before (e := '\n') (by decide) c t []).2
  · exact (mark_before (e := '\n') (by decide) c t []).2

/-- A text is cut into its first lexeme and what is left of it. -/
theorem cut_classify (c : Char) (rest : Text) :
    Cut (classify c rest).1 (c :: rest.take (classify c rest).2) (rest.drop (classify c rest).2) := by
  refine ⟨c, _, rfl, ?_⟩
  rw [List.take_append_drop, List.length_take_of_le (classify_le c rest)]

/-- A blank takes all blanks that come next, and a comment the rest of its line. -/
theorem classify_of_isSpacing {c : Char} {rest : Text} (h : (classify c rest).1.isSpacing = true) :
    (isSpace c = true ∧ classify c rest = (.whitespace, run isSpace rest)) ∨
      c = '#' ∧ classify c rest = (.comment, run (· ≠ '\n') rest) := by
  have hwords : ∀ k ∈ wordKinds, k.isSpacing = false := by decide
  have hnumbers : ∀ k ∈ numberKinds, k.isSpacing = false := by decide
  have hmarks : ∀ k ∈ markKinds, k.isSpacing = false := by decide
  have hliteral {q : Quoting} {a b : Kind} {t : Text} (ha : a.isSpacing = false) (hb : b.isSpacing = false) :
      (literal q a b t).1.isSpacing = false := by
    unfold literal
    split <;> assumption
  have hword : (word c rest).1.isSpacing = false := by
    simp only [word]
    split
    · rfl
    · split
      · exact hliteral rfl rfl
      · split
        · exact hliteral rfl rfl
        · split
          · exact hliteral rfl rfl
          · exact hwords _ (wordKind_mem _)
  have hnumber : (number c rest).1.isSpacing = false := hnumbers _ (number_mem c rest)
  have hmark : (mark c rest).1.isSpacing = false := hmarks _ (mark_mem c rest)
  unfold classify at h ⊢
  split
  · rename_i hc
    rw [if_pos hc] at h
    cases h
  rename_i hc
  rw [if_neg hc] at h
  split
  · rename_i hc
    rw [if_pos hc] at h
    cases h
  rename_i hc
  rw [if_neg hc] at h
  split
  · exact .inl ⟨‹_›, rfl⟩
  rename_i hc
  rw [if_neg hc] at h
  split
  · exact .inr ⟨‹_›, rfl⟩
  rename_i hc
  rw [if_neg hc] at h
  refine absurd h (Bool.eq_false_iff.mp ?_)
  split
  · exact hliteral rfl rfl
  split
  · exact hword
  split
  · rfl
  split
  · exact hnumber
  · exact hmark

/-! ## Literals -/

/-- How the literals of the language are quoted: where a bare newline may stand an escaped one may, too. -/
structure Quoting.Regular (q : Quoting) : Prop where
  escape : q.mark ≠ '\\'
  space : q.mark ≠ ' '
  newline : q.mark ≠ '\n'
  lines : q.spansLines = true → q.escapesNewline = true

theorem Quoting.Regular.string : Quoting.string.Regular := ⟨by decide, by decide, by decide, by decide⟩

theorem Quoting.Regular.raw : Quoting.raw.Regular := ⟨by decide, by decide, by decide, by decide⟩

theorem Quoting.Regular.timestamp : Quoting.timestamp.Regular := ⟨by decide, by decide, by decide, by decide⟩

variable {q : Quoting}

/-- Texts are read a character or an escape at a time. -/
@[elab_as_elim]
theorem escapes_induction {motive : Text → Prop} (nil : motive []) (stray : motive ['\\'])
    (escape : ∀ c t, motive t → motive ('\\' :: c :: t)) (plain : ∀ c t, c ≠ '\\' → motive t → motive (c :: t)) :
    (t : Text) → motive t
  | [] => nil
  | [c] => by
    by_cases hc : c = '\\'
    · exact hc ▸ stray
    · exact plain c [] hc nil
  | c :: d :: t => by
    by_cases hc : c = '\\'
    · exact hc ▸ escape d t (escapes_induction nil stray escape plain t)
    · exact plain c (d :: t) hc (escapes_induction nil stray escape plain (d :: t))

theorem closing_escape (q : Quoting) (c : Char) (t : Text) :
    closing q ('\\' :: c :: t) = if c = '\n' && !q.escapesNewline then none else (closing q t).map (· + 2) := by
  rw [closing]

/-- One character more before two texts makes no difference to whether a literal stays open. -/
theorem closing_before {c : Char} (hc : c ≠ '\\') {x y : Text} (hxy : closing q x = none → closing q y = none)
    (h : closing q (c :: x) = none) : closing q (c :: y) = none := by
  rw [closing_cons q hc] at h ⊢
  split
  · rename_i hmark
    rw [if_pos hmark] at h
    cases h
  rename_i hmark
  rw [if_neg hmark] at h
  split
  · rfl
  · rename_i hnewline
    rw [if_neg hnewline, Option.map_eq_none_iff] at h
    rw [hxy h, Option.map_none]

/-- Neither does an escaped character. -/
theorem closing_before_escaped {c : Char} {x y : Text} (hxy : closing q x = none → closing q y = none)
    (h : closing q ('\\' :: c :: x) = none) : closing q ('\\' :: c :: y) = none := by
  rw [closing_escape] at h ⊢
  split
  · rfl
  · rename_i hc
    rw [if_neg hc, Option.map_eq_none_iff] at h
    rw [hxy h, Option.map_none]

/-- What stands before makes no difference to whether a literal stays open, if it makes none here and none after a backslash. -/
theorem closing_swap {x y : Text} (hhere : closing q x = none → closing q y = none)
    (hescaped : closing q ('\\' :: x) = none → closing q ('\\' :: y) = none) (w : Text) :
    closing q (w ++ x) = none → closing q (w ++ y) = none := by
  induction w using escapes_induction with
  | nil => exact hhere
  | stray => exact hescaped
  | escape c w ih => exact closing_before_escaped ih
  | plain c w hc ih => exact closing_before hc ih

/-- A literal that is open over a stretch of a line is open behind it. Where a backslash may stand at the end of the stretch,
the line has to end there. -/
theorem closing_behind (hq : q.Regular) {z b : Text} (hb : '\n' ∉ b) (hz : '\\' ∈ b → z = [] ∨ ∃ rest, z = '\n' :: rest)
    (h : closing q (b ++ z) = none) : closing q z = none := by
  induction b using escapes_induction with
  | nil => exact h
  | stray =>
    rcases hz List.mem_cons_self with rfl | ⟨rest, rfl⟩
    · rfl
    · rw [List.singleton_append, closing_escape] at h
      rw [closing_cons q (by decide), if_neg hq.newline.symm]
      split
      · rfl
      · rename_i hnewline
        have hlines : q.spansLines = true := by simpa using hnewline
        rw [if_neg (by simp [hq.lines hlines]), Option.map_eq_none_iff] at h
        rw [h, Option.map_none]
  | escape c b ih =>
    simp only [List.mem_cons, not_or] at hb hz
    rw [List.cons_append, List.cons_append, closing_escape, if_neg (by simp [Ne.symm hb.2.1]), Option.map_eq_none_iff] at h
    exact ih hb.2.2 (fun hmem => hz (.inr (.inr hmem))) h
  | plain c b hc ih =>
    simp only [List.mem_cons, not_or] at hb hz
    rw [List.cons_append, closing_cons q hc] at h
    split at h
    · cases h
    · rw [if_neg (by simp [Ne.symm hb.1]), Option.map_eq_none_iff] at h
      exact ih hb.2 (fun hmem => hz (.inr hmem)) h

theorem unclosed_cons (mark : Char) {c : Char} (hc : c ≠ '\\') (t : Text) :
    unclosed mark (c :: t) = if c = '\n' || c = mark then 0 else unclosed mark t + 1 := by
  rw [unclosed]
  exact fun _ _ h _ => hc h

theorem unclosed_escape (mark c : Char) (t : Text) :
    unclosed mark ('\\' :: c :: t) = if c = '\n' then 1 else unclosed mark t + 2 := by
  rw [unclosed]

/-- A literal that is never closed ends where its line does. -/
theorem unclosed_end (hq : q.Regular) {v t : Text} (hopen : closing q (v ++ t) = none)
    (hend : unclosed q.mark (v ++ t) = v.length) : t = [] ∨ ∃ rest, t = '\n' :: rest := by
  induction v using escapes_induction with
  | nil =>
    rw [List.nil_append] at hopen hend
    cases t with
    | nil => exact .inl rfl
    | cons c t =>
      by_cases hc : c = '\\'
      · subst hc
        cases t with
        | nil => simp [unclosed, hq.escape.symm] at hend
        | cons d t =>
          rw [unclosed_escape] at hend
          split at hend <;> cases hend
      · rw [closing_cons q hc] at hopen
        rw [unclosed_cons _ hc] at hend
        by_cases hmark : c = q.mark
        · rw [if_pos hmark] at hopen
          cases hopen
        · have hnewline : c = '\n' := by simpa [hmark] using hend
          exact .inr ⟨t, by rw [hnewline]⟩
  | stray =>
    cases t with
    | nil => exact .inl rfl
    | cons c t =>
      rw [List.singleton_append, unclosed_escape] at hend
      split at hend
      · rename_i hc
        exact .inr ⟨t, by rw [hc]⟩
      · cases hend
  | escape c v ih =>
    rw [List.cons_append, List.cons_append] at hopen hend
    rw [unclosed_escape] at hend
    split at hend
    · cases hend
    · rename_i hc
      rw [closing_escape, if_neg (by simp [hc]), Option.map_eq_none_iff] at hopen
      exact ih hopen (Nat.succ.inj (Nat.succ.inj hend))
  | plain c v hc ih =>
    rw [List.cons_append] at hopen hend
    rw [unclosed_cons _ hc] at hend
    split at hend
    · cases hend
    · rename_i hend'
      simp only [Bool.or_eq_true, decide_eq_true_eq, not_or] at hend'
      rw [closing_cons q hc, if_neg hend'.2, if_neg (by simp [hend'.1]), Option.map_eq_none_iff] at hopen
      exact ih hopen (Nat.succ.inj hend)

/-- What comes after the line plays no part in where such a literal ends. -/
theorem unclosed_newline (mark : Char) (t u v : Text) : unclosed mark (v ++ '\n' :: u) = unclosed mark (v ++ '\n' :: t) := by
  induction v using escapes_induction with
  | nil => simp [unclosed_cons]
  | stray => simp [unclosed_escape]
  | escape c v ih => simp [unclosed_escape, ih]
  | plain c v hc ih => simp [unclosed_cons _ hc, ih]

/-- A closed literal is closed by its own text. -/
theorem closing_take {t : Text} {n : Nat} (h : closing q t = some n) : closing q (t.take n) = some n := by
  fun_induction closing q t generalizing n with
  | case1 | case2 | case5 => cases h
  | case3 c rest hc ih =>
    obtain ⟨m, hm, rfl⟩ := Option.map_eq_some_iff.mp h
    simp [closing_escape, hc, ih hm]
  | case4 rest hesc =>
    cases h
    rw [List.take_succ_cons, List.take_zero, closing, if_pos rfl]
    exact fun _ _ _ h => by cases h
  | case6 c rest hesc hc hnl ih =>
    obtain ⟨m, hm, rfl⟩ := Option.map_eq_some_iff.mp h
    have hc' : c ≠ '\\' := by
      rintro rfl
      cases rest with
      | nil => cases hm
      | cons d rest => exact hesc d rest rfl rfl
    rw [List.take_succ_cons, closing_cons q hc', if_neg hc, if_neg hnl, ih hm, Option.map_some]

/-! ## One text in place of another -/

/-- Whether a character begins a run of blanks or a comment. -/
def beginsSpacing (c : Char) : Bool := isSpace c || c = '#'

/-- A text that may stand in place of another one after any lexeme that is neither a blank nor a comment: it begins alike, and
leaves no literal open that was closed before, whatever comes before it. -/
structure StandsIn (t u : Text) : Prop where
  head : u.head? = t.head? ∨ t.head?.any beginsSpacing = true ∧ u.head? = some ' '
  closing (q : Quoting) (hq : q.Regular) (w : Text) : closing q (w ++ t) = none → Lexeme.closing q (w ++ u) = none

namespace StandsIn

variable {t u v : Text} {c : Char}

theorem refl (t : Text) : StandsIn t t := ⟨.inl rfl, fun _ _ _ h => h⟩

/-- The same after a common beginning. -/
theorem append (h : StandsIn t u) (v : Text) : StandsIn (v ++ t) (v ++ u) := by
  refine ⟨?_, fun q hq w hw => ?_⟩
  · cases v with
    | nil => exact h.head
    | cons c v => exact .inl rfl
  · rw [← List.append_assoc] at hw ⊢
    exact h.closing q hq _ hw

/-- What begins neither a blank nor a comment comes first in both or in none. -/
theorem head?_iff (h : StandsIn t u) (hc : beginsSpacing c = false) : u.head? = some c ↔ t.head? = some c := by
  rcases h.head with heq | ⟨ht, hu⟩
  · rw [heq]
  · rw [hu]
    constructor
    · intro heq
      cases heq
      cases hc
    · intro heq
      rw [heq, Option.any_some, hc] at ht
      cases ht

/-- What ends a run ends it in both. -/
theorem head?_not (h : StandsIn t u) {p : Char → Bool} (hp : p ' ' = false) (ht : ∀ d ∈ t.head?, p d = false) :
    ∀ d ∈ u.head?, p d = false := by
  intro d hd
  rcases h.head with heq | ⟨-, hu⟩
  · exact ht d (heq ▸ hd)
  · cases hu.symm.trans hd
    exact hp

/-- A run that ends where one text stands ends where the other one does. -/
theorem run_eq (h : StandsIn t u) {p : Char → Bool} (hp : p ' ' = false) (hrun : run p (v ++ t) ≤ v.length) :
    run p (v ++ u) = run p (v ++ t) := by
  induction v with
  | nil =>
    have hzero (x : Text) : run p x = 0 ↔ ∀ d ∈ x.head?, p d = false := by
      cases x with
      | nil => simp [run]
      | cons d x => by_cases hd : p d = true <;> simp [run, hd]
    have ht := (hzero t).mp (Nat.le_zero.mp hrun)
    exact ((hzero u).mpr (h.head?_not hp ht)).trans ((hzero t).mpr ht).symm
  | cons c v ih =>
    simp only [run, List.cons_append, List.takeWhile_cons] at hrun ih ⊢
    split
    · rename_i hc
      rw [if_pos hc] at hrun
      simp only [List.length_cons, ih (Nat.le_of_succ_le_succ hrun)]
    · rfl

end StandsIn

/-! ## Lexemes in front of either text -/

theorem literal_standsIn {q : Quoting} (hq : q.Regular) {a b : Kind} {v t u : Text} (h : StandsIn t u)
    (hend : (literal q a b (v ++ t)).2 = v.length) : literal q a b (v ++ u) = literal q a b (v ++ t) := by
  unfold literal at hend ⊢
  cases hclosing : closing q (v ++ t) with
  | some n =>
    rw [hclosing] at hend
    obtain rfl : n = v.length := hend
    have hv : closing q v = some v.length := by simpa using closing_take hclosing
    rw [(closing_append hq.escape hv u).1]
  | none =>
    rw [hclosing] at hend
    rw [h.closing q hq v hclosing]
    refine congrArg (Prod.mk b) ?_
    rcases unclosed_end hq hclosing hend with rfl | ⟨rest, rfl⟩
    · have hu : u = [] := by simpa [StandsIn.head] using h.head
      rw [hu]
    · have hu : u.head? = some '\n' := (h.head?_iff (by decide)).mpr rfl
      obtain ⟨rest', rfl⟩ := List.head?_eq_some_iff.mp hu
      exact unclosed_newline _ _ _ _

/-- The same after an introducing letter and a quote mark. -/
theorem literal_drop_standsIn {q : Quoting} (hq : q.Regular) {a b : Kind} {v t u : Text} (h : StandsIn t u)
    (hquote : (v ++ t).head? = some '\'') (hend : (literal q a b ((v ++ t).drop 1)).2 + 1 = v.length) :
    literal q a b ((v ++ u).drop 1) = literal q a b ((v ++ t).drop 1) := by
  cases v with
  | nil => cases hend
  | cons c v => exact literal_standsIn hq h (Nat.succ.inj hend)

theorem run_le_run {p p' : Char → Bool} (hp : ∀ d, p d = true → p' d = true) (t : Text) : run p t ≤ run p' t := by
  induction t with
  | nil => exact Nat.le_refl _
  | cons d t ih =>
    simp only [run, List.takeWhile_cons] at ih ⊢
    by_cases hd : p d = true
    · rw [if_pos hd, if_pos (hp d hd)]
      exact Nat.succ_le_succ ih
    · rw [if_neg hd]
      exact Nat.zero_le _

theorem word_standsIn {c : Char} {v t u : Text} (h : StandsIn t u) (hend : (word c (v ++ t)).2 = v.length) :
    word c (v ++ u) = word c (v ++ t) := by
  have hquote : (v ++ u).head? = some '\'' ↔ (v ++ t).head? = some '\'' := (h.append v).head?_iff (by decide)
  -- in every case the name ends within the word
  have hname : run isNamePart (v ++ t) ≤ v.length := by
    simp only [word] at hend
    split at hend
    · exact hend ▸ run_le_run (fun d => isFieldPart_of_isNamePart) _
    · split at hend
      · simp_all
      · split at hend
        · simp_all
        · split at hend
          · simp_all
          · exact Nat.le_of_eq hend
  have hat : ((v ++ u).drop (run isNamePart (v ++ t))).head? = some '@' ↔
      ((v ++ t).drop (run isNamePart (v ++ t))).head? = some '@' := by
    rw [List.drop_append_of_le_length hname, List.drop_append_of_le_length hname]
    exact (h.append _).head?_iff (by decide)
  simp only [word, h.run_eq (show isNamePart ' ' = false by decide) hname, hquote, hat, List.take_append_of_le_length hname]
    at hend ⊢
  have hhead {d : Char}
      (hd : (decide (run isNamePart (v ++ t) = 0) && decide ((v ++ t).head? = some '\'') && decide (c = d)) = true) :
      (v ++ t).head? = some '\'' := by
    simp only [Bool.and_eq_true, decide_eq_true_eq] at hd
    exact hd.1.2
  split
  · rename_i hpath
    rw [if_pos hpath] at hend
    exact congrArg (Prod.mk _) (h.run_eq (by decide) (Nat.le_of_eq hend))
  rename_i hpath
  rw [if_neg hpath] at hend
  split
  · rename_i hs
    rw [if_pos hs] at hend
    rw [literal_drop_standsIn .raw h (hhead hs) hend]
  rename_i hs
  rw [if_neg hs] at hend
  split
  · rename_i hr
    rw [if_pos hr] at hend
    rw [literal_drop_standsIn .raw h (hhead hr) hend]
  rename_i hr
  rw [if_neg hr] at hend
  split
  · rename_i ht
    rw [if_pos ht] at hend
    rw [literal_drop_standsIn .timestamp h (hhead ht) hend]
  · rfl

theorem number_standsIn {c : Char} {v t u : Text} (h : StandsIn t u) (hend : (number c (v ++ t)).2 = v.length) :
    number c (v ++ u) = number c (v ++ t) := by
  have hpart : isNumberPart ' ' = false := by decide
  have hlength : (if ((v ++ t).drop (run isNumberPart (v ++ t))).head? = some '.' then
      run isNumberPart (v ++ t) + 1 + run isNumberPart ((v ++ t).drop (run isNumberPart (v ++ t) + 1))
      else run isNumberPart (v ++ t)) = v.length := by
    simp only [number] at hend
    split at hend
    · exact hend
    · split at hend
      · rwa [if_pos ‹_›]
      · rwa [if_neg ‹_›]
  have hdigits : run isNumberPart (v ++ t) ≤ v.length := by
    split at hlength <;> omega
  have hpoint : ((v ++ u).drop (run isNumberPart (v ++ t))).head? = some '.' ↔
      ((v ++ t).drop (run isNumberPart (v ++ t))).head? = some '.' := by
    rw [List.drop_append_of_le_length hdigits, List.drop_append_of_le_length hdigits]
    exact (h.append _).head?_iff (by decide)
  simp only [number, h.run_eq hpart hdigits, hpoint]
  split at hlength
  · rename_i hdot
    have hfraction : run isNumberPart (v ++ t) + 1 ≤ v.length := by omega
    have hrest : run isNumberPart ((v ++ u).drop (run isNumberPart (v ++ t) + 1)) =
        run isNumberPart ((v ++ t).drop (run isNumberPart (v ++ t) + 1)) := by
      rw [List.drop_append_of_le_length hfraction] at hlength ⊢
      rw [List.drop_append_of_le_length hfraction]
      refine h.run_eq hpart ?_
      rw [List.length_drop]
      omega
    rw [hrest]
  · rename_i hdot
    simp only [hdot, if_false]

/-- What begins a blank or a comment is no second character of a mark. -/
theorem mark_of_beginsSpacing {c d : Char} (h : beginsSpacing d = true) (t : Text) : mark c (d :: t) = mark c [] := by
  have hne {e : Char} (he : beginsSpacing e = false) : d ≠ e := by
    rintro rfl
    cases h.symm.trans he
  unfold mark
  split
  all_goals first
    | exact absurd (Option.some.inj ‹_›) (hne (by decide))
    | rfl
    | split <;> simp_all

theorem mark_standsIn {t u : Text} (h : StandsIn t u) (c : Char) : mark c u = mark c t := by
  rcases h.head with heq | ⟨ht, hu⟩
  · unfold mark
    rw [heq]
  · obtain ⟨d, t, rfl⟩ : ∃ d rest, t = d :: rest := by
      cases t with
      | nil => cases ht
      | cons d t => exact ⟨d, t, rfl⟩
    obtain ⟨u, rfl⟩ := List.head?_eq_some_iff.mp hu
    rw [mark_of_beginsSpacing (by decide), mark_of_beginsSpacing (by simpa using ht)]

/-- What is neither a blank, a comment nor a stray character is cut off in front of either text. -/
theorem cut_standsIn {k : Kind} {v t u : Text} (hk : k.isTrivia = false) (h : StandsIn t u) (hcut : Cut k v t) : Cut k v u := by
  obtain ⟨c, v, rfl, hclassify⟩ := hcut
  refine ⟨c, v, rfl, ?_⟩
  have hkind : (classify c (v ++ t)).1.isTrivia = false := by rw [hclassify]; exact hk
  have hend : (classify c (v ++ t)).2 = v.length := by rw [hclassify]
  rw [← hclassify]
  have hcrlf : decide ((v ++ u).head? = some '\n') = decide ((v ++ t).head? = some '\n') :=
    decide_eq_decide.mpr ((h.append v).head?_iff (by decide))
  unfold classify at hkind hend ⊢
  rw [hcrlf]
  split
  · rfl
  rename_i hnewline
  rw [if_neg hnewline] at hkind hend
  split
  · rfl
  rename_i hreturn
  rw [if_neg hreturn] at hkind hend
  split
  · rename_i hspace
    rw [if_pos hspace] at hkind
    cases hkind
  rename_i hspace
  rw [if_neg hspace] at hkind hend
  split
  · rename_i hcomment
    rw [if_pos hcomment] at hkind
    cases hkind
  rename_i hcomment
  rw [if_neg hcomment] at hkind hend
  split
  · rename_i hquote
    rw [if_pos hquote] at hend
    exact literal_standsIn .string h hend
  rename_i hquote
  rw [if_neg hquote] at hend
  split
  · rename_i hname
    rw [if_pos hname] at hend
    exact word_standsIn h hend
  rename_i hname
  rw [if_neg hname] at hend
  split
  · rename_i hat
    rw [if_pos hat] at hend
    exact congrArg (Prod.mk _) (h.run_eq (by decide) (Nat.le_of_eq hend))
  rename_i hat
  rw [if_neg hat] at hend
  split
  · rename_i hdigit
    rw [if_pos hdigit] at hend
    exact number_standsIn h hend
  · exact mark_standsIn (h.append v) c

/-! ## Squeezed texts -/

/-- A space in front of what does not begin with a blank is a lexeme. -/
theorem cut_space {u : Text} (hu : ∀ d ∈ u.head?, isSpace d = false) : Cut .whitespace [' '] u := by
  refine ⟨' ', [], rfl, ?_⟩
  have hrun : run isSpace u = 0 := run_append (t := []) rfl hu
  show (Kind.whitespace, run isSpace u) = (.whitespace, 0)
  rw [hrun]

/-- Behind a blank or a comment a literal is open that was open before it; and behind a blank no blank comes, behind a comment
only the end of the line. -/
structure Spacing (b z : Text) : Prop where
  first : b.head?.any beginsSpacing = true
  inLine : '\n' ∉ b
  next : ∀ d ∈ z.head?, isSpace d = false
  stray : '\\' ∈ b → z = [] ∨ ∃ rest, z = '\n' :: rest

theorem spacing_classify {c : Char} {rest : Text} (h : (classify c rest).1.isSpacing = true) :
    Spacing (c :: rest.take (classify c rest).2) (rest.drop (classify c rest).2) := by
  have htake (p : Char → Bool) : rest.take (run p rest) = rest.takeWhile p :=
    (List.prefix_iff_eq_take.mp (List.takeWhile_prefix p)).symm
  have hdrop (p : Char → Bool) : rest.drop (run p rest) = rest.dropWhile p := by
    have hsplit := (rest.take_append_drop (run p rest)).trans (List.takeWhile_append_dropWhile (p := p)).symm
    rw [htake p] at hsplit
    exact List.append_cancel_left hsplit
  have htaken {p : Char → Bool} {d : Char} (hd : d ∈ rest.takeWhile p) : p d = true :=
    List.all_eq_true.mp List.all_takeWhile d hd
  have hnext {p : Char → Bool} {d : Char} (hd : (rest.dropWhile p).head? = some d) : p d = false := by
    have hnot := List.head?_dropWhile_not p rest
    rw [hd] at hnot
    simpa using hnot
  rcases classify_of_isSpacing h with ⟨hc, heq⟩ | ⟨rfl, heq⟩
  · rw [heq, htake, hdrop]
    have hblank {d : Char} (hd : d ∈ c :: rest.takeWhile isSpace) : isSpace d = true :=
      (List.mem_cons.mp hd).elim (fun heq => heq ▸ hc) htaken
    refine ⟨by simp [beginsSpacing, hc], fun hmem => ?_, fun d hd => hnext hd, fun hmem => ?_⟩
    · cases hblank hmem
    · cases hblank hmem
  · rw [heq, htake, hdrop]
    refine ⟨rfl, fun hmem => ?_, fun d hd => ?_, fun _ => ?_⟩
    · simpa using htaken ((List.mem_cons.mp hmem).resolve_left (by decide))
    · have hd : d = '\n' := by simpa using hnext hd
      rw [hd]
      decide
    · cases hrest : rest.dropWhile (fun d => d ≠ '\n') with
      | nil => exact .inl rfl
      | cons d more =>
        have hd : d = '\n' := by
          have hnot := hnext (p := fun d => d ≠ '\n') (d := d) (by rw [hrest]; rfl)
          simpa using hnot
        exact .inr ⟨more, by rw [hd]⟩

namespace Spacing

variable {b z y : Text}

/-- A literal that is open in front of a blank or a comment is open behind it. -/
theorem closing_behind (h : Spacing b z) {q : Quoting} (hq : q.Regular) (hopen : closing q (b ++ z) = none) :
    closing q z = none := Lexeme.closing_behind hq h.inLine h.stray hopen

/-- The same if its first character is escaped. -/
theorem closing_behind_escaped (h : Spacing b z) {q : Quoting} (hq : q.Regular)
    (hopen : closing q ('\\' :: (b ++ z)) = none) : closing q z = none := by
  cases b with
  | nil => cases h.first
  | cons c b =>
    have hc : c ≠ '\n' := fun heq => h.inLine (heq ▸ List.mem_cons_self)
    rw [List.cons_append, closing_escape, if_neg (by simp [hc]), Option.map_eq_none_iff] at hopen
    exact Lexeme.closing_behind hq (fun hmem => h.inLine (List.mem_cons_of_mem _ hmem))
      (fun hmem => h.stray (List.mem_cons_of_mem _ hmem)) hopen

theorem head?_append (h : Spacing b z) : (b ++ z).head?.any beginsSpacing = true := by
  cases b with
  | nil => cases h.first
  | cons c b => exact h.first

/-- A space may stand in place of a blank or a comment. -/
theorem standsIn_space (h : Spacing b z) (hz : StandsIn z y) : StandsIn (b ++ z) (' ' :: y) := by
  have hspace {q : Quoting} (hq : q.Regular) (hopen : closing q y = none) : closing q (' ' :: y) = none := by
    rw [closing_cons q (by decide), if_neg hq.space.symm, hopen]
    rfl
  refine ⟨.inr ⟨h.head?_append, rfl⟩, fun q hq w => closing_swap (fun hopen => ?_) (fun hopen => ?_) w⟩
  · exact hspace hq (hz.closing q hq [] (h.closing_behind hq hopen))
  · have hopen : closing q y = none := hz.closing q hq [] (h.closing_behind_escaped hq hopen)
    rw [closing_escape, hopen]
    rfl

/-- The space that comes next may stand in its place. -/
theorem standsIn_next (h : Spacing b z) (hz : StandsIn z (' ' :: y)) : StandsIn (b ++ z) (' ' :: y) := by
  refine ⟨.inr ⟨h.head?_append, rfl⟩, fun q hq w => closing_swap (fun hopen => ?_) (fun hopen => ?_) w⟩
  · exact hz.closing q hq [] (h.closing_behind hq hopen)
  · have hopen : closing q (' ' :: y) = none := hz.closing q hq [] (h.closing_behind_escaped hq hopen)
    rw [closing_cons q (by decide), if_neg hq.space.symm, if_neg (by simp), Option.map_eq_none_iff] at hopen
    rw [closing_escape, hopen]
    rfl

end Spacing

/-- The lexemes of a squeezed text are the lexemes of the text, squeezed, and the one may stand in place of the other. -/
theorem split_squeeze {t : Text} (h : ∀ l ∈ split t, l.kind ≠ .garbage) :
    split ((squeeze (split t)).flatMap text) = squeeze (split t) ∧ StandsIn t ((squeeze (split t)).flatMap text) := by
  fun_induction split t with
  | case1 => exact ⟨by rw [squeeze, List.flatMap_nil, split], .refl []⟩
  | case2 c rest kind n hclassify ih =>
    obtain ⟨hrest, hstands⟩ := ih fun l hl => h l (List.mem_cons_of_mem _ hl)
    have hcut := cut_classify c rest
    have htext : c :: rest = c :: rest.take n ++ rest.drop n := by rw [List.cons_append, List.take_append_drop]
    rw [hclassify] at hcut
    rw [squeeze]
    by_cases hspacing : kind.isSpacing = true
    · have hgap : Spacing (c :: rest.take n) (rest.drop n) := by
        have := spacing_classify (c := c) (by rw [hclassify]; exact hspacing)
        rwa [hclassify] at this
      rw [if_pos hspacing, htext]
      split
      · rename_i hnext
        obtain ⟨more, hmore⟩ := exists_squeeze hnext
        rw [hmore] at hrest hstands ⊢
        exact ⟨hrest, hgap.standsIn_next hstands⟩
      · rename_i hnext
        refine ⟨?_, hgap.standsIn_space hstands⟩
        -- no blank comes next, for this one would have taken it; and no comment does, for that would go with this one
        have hbare : ∀ d ∈ ((squeeze (split (rest.drop n))).flatMap text).head?, isSpace d = false := by
          rcases hstands.head with heq | ⟨hhead, -⟩
          · rw [heq]
            exact hgap.next
          · refine absurd ?_ hnext
            cases hafter : rest.drop n with
            | nil =>
              rw [hafter] at hhead
              cases hhead
            | cons d more =>
              rw [hafter] at hhead hgap
              have hd : d = '#' := by simpa [beginsSpacing, hgap.next d rfl] using hhead
              rw [hd, split]
              rfl
        show split ([' '] ++ (squeeze (split (rest.drop n))).flatMap text) = _
        rw [split_of_cut (cut_space hbare), hrest]
        rfl
    · have htrivia : kind.isTrivia = false := Kind.isTrivia_eq_false (h _ List.mem_cons_self) hspacing
      rw [if_neg hspacing, List.flatMap_cons, htext]
      refine ⟨?_, hstands.append _⟩
      rw [split_of_cut (cut_standsIn htrivia hstands hcut), hrest]

/-- The lexemes of a squeezed source are those of the source, squeezed, if no character in it is stray. -/
theorem ofText_squeezed {source : Text} (h : ∀ l ∈ ofText source, l.kind ≠ .garbage) :
    ofText (squeezed source) = squeeze (ofText source) := by
  have hsplit : ofText source = split source := eq_of_coalesce h
  rw [hsplit] at h
  obtain ⟨hsqueeze, -⟩ := split_squeeze h
  rw [squeezed, hsplit, ofText, hsqueeze]
  refine coalesce_of_ne_garbage fun l hl => ?_
  rcases mem_squeeze hl with rfl | hl
  · exact fun hk => Kind.noConfusion hk
  · exact h l hl

end Lexeme

end Remap
