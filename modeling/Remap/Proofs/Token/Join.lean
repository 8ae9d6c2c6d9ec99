import Remap.Proofs.Parser.Ordered
import Remap.Proofs.Token.Tidy
import Remap.Proofs.Token.Written

/-!
# Two sources joined by a newline

No lexeme of a source without lexical problems looks past a newline that is put after it, with one exception: a carriage
return at the very end is a blank by itself and becomes part of the newline. So the tokens of two joined sources are those of
the first, a newline, and those of the second at other offsets.
-/

namespace Remap

/-- Whether a kind is that of a literal that lacks its closing mark. -/
def Kind.isUnclosed : Kind → Bool
  | .unterminatedString | .unterminatedRawString | .unterminatedRegex | .unterminatedTimestamp => true
  | _ => false

/-- Blanks and comments: what separates tokens on a line and means nothing else. -/
def Kind.isSpacing : Kind → Bool
  | .whitespace | .comment => true
  | _ => false

theorem Kind.isTrivia_of_isSpacing {k : Kind} (h : k.isSpacing = true) : k.isTrivia = true := by
  revert h
  cases k <;> decide

namespace Lexeme

/-! ## What a lexeme stops at -/

/-- The characters that end a line, blanks, and the closing parenthesis. Only blanks, comments and quoted literals go on past one. -/
def isStop (c : Char) : Bool := c = '\n' || isSpace c || c = ')'

theorem not_of_isStop {e : Char} (he : isStop e = true) {p : Char → Bool}
    (hstops : p '\n' = false ∧ p ' ' = false ∧ p '\t' = false ∧ p '\r' = false ∧ p '\x0c' = false ∧ p ')' = false) : p e = false := by
  obtain ⟨hnewline, hspace, htab, hreturn, hfeed, hparen⟩ := hstops
  simp only [isStop, isSpace, Bool.or_eq_true, decide_eq_true_eq] at he
  rcases he with (rfl | ((rfl | rfl) | rfl) | rfl) | rfl <;> assumption

theorem ne_of_isStop {c e : Char} (he : isStop e = true) (hc : isStop c = false) : c ≠ e := by
  rintro rfl
  cases hc.symm.trans he

theorem run_before {p : Char → Bool} {e : Char} (he : p e = false) (t u : Text) : run p (t ++ e :: u) = run p t := by
  induction t with
  | nil => simp [run, he]
  | cons c t ih =>
    simp only [run, List.cons_append, List.takeWhile_cons] at ih ⊢
    split <;> simp [ih]

/-- What ends inside a text ends there whatever comes after the text. -/
theorem run_append_of_lt {p : Char → Bool} {t : Text} (h : run p t < t.length) (u : Text) : run p (t ++ u) = run p t := by
  induction t with
  | nil => cases h
  | cons c t ih =>
    simp only [run, List.cons_append, List.takeWhile_cons] at h ih ⊢
    split
    · rename_i hc
      rw [if_pos hc, List.length_cons, List.length_cons] at h
      rw [List.length_cons, List.length_cons, ih (Nat.lt_of_succ_lt_succ h)]
    · rfl

theorem run_le_length (p : Char → Bool) (t : Text) : run p t ≤ t.length := (List.takeWhile_prefix p).length_le

/-- What comes first in a text comes first with another character after it, too. -/
theorem head?_before {c e : Char} (hc : c ≠ e) (t u : Text) : (t ++ e :: u).head? = some c ↔ t.head? = some c := by
  cases t <;> simp [hc.symm]

theorem closing_cons (q : Quoting) {c : Char} (hc : c ≠ '\\') (t : Text) :
    closing q (c :: t) =
      if c = q.mark then some 1 else if c = '\n' && !q.spansLines then none else (closing q t).map (· + 1) := by
  rw [closing]
  exact fun _ _ h _ => hc h

/-- A literal that is closed is closed at the same place whatever comes after it. -/
theorem closing_append {q : Quoting} (hq : q.mark ≠ '\\') {t : Text} {n : Nat} (h : closing q t = some n) (u : Text) :
    closing q (t ++ u) = some n ∧ n ≤ t.length := by
  fun_induction closing q t generalizing n with
  | case1 => cases h
  | case2 c rest hc => cases h
  | case3 c rest hc ih =>
    obtain ⟨m, hm, rfl⟩ := Option.map_eq_some_iff.mp h
    obtain ⟨heq, hle⟩ := ih hm
    exact ⟨by simp [closing, hc, heq], by simpa using hle⟩
  | case4 rest _ =>
    cases h
    rw [List.cons_append, closing_cons q hq, if_pos rfl]
    exact ⟨rfl, Nat.le_add_left _ _⟩
  | case5 c rest _ hc hnl => cases h
  | case6 c rest hesc hc hnl ih =>
    obtain ⟨m, hm, rfl⟩ := Option.map_eq_some_iff.mp h
    obtain ⟨heq, hle⟩ := ih hm
    refine ⟨?_, by simpa using hle⟩
    cases rest with
    | nil => cases hm
    | cons d rest =>
      rw [List.cons_append, closing_cons q fun h => hesc d rest h rfl, if_neg hc, if_neg hnl, heq]
      rfl

/-- A literal that is closed ends before whatever comes after it. -/
theorem literal_append {q : Quoting} (hq : q.mark ≠ '\\') {a b : Kind} (hb : b.isUnclosed = true) {t : Text}
    (h : (literal q a b t).1.isUnclosed = false) (u : Text) :
    literal q a b (t ++ u) = literal q a b t ∧ (literal q a b t).2 ≤ t.length := by
  unfold literal at h ⊢
  cases hclosing : closing q t with
  | none =>
    rw [hclosing] at h
    cases hb.symm.trans h
  | some n =>
    obtain ⟨heq, hle⟩ := closing_append hq hclosing u
    rw [heq]
    exact ⟨rfl, hle⟩

/-- The same after an introducing letter and a quote mark. -/
theorem literal_drop_append {q : Quoting} (hq : q.mark ≠ '\\') {a b : Kind} (hb : b.isUnclosed = true) {t : Text}
    (hquote : t.head? = some '\'') (h : (literal q a b (t.drop 1)).1.isUnclosed = false) (u : Text) :
    literal q a b ((t ++ u).drop 1) = literal q a b (t.drop 1) ∧ (literal q a b (t.drop 1)).2 + 1 ≤ t.length := by
  cases t with
  | nil => cases hquote
  | cons d t =>
    obtain ⟨heq, hle⟩ := literal_append hq hb h u
    exact ⟨heq, Nat.succ_le_succ hle⟩

theorem word_before {c e : Char} {t : Text} (he : isStop e = true) (h : (word c t).1.isUnclosed = false) (u : Text) :
    word c (t ++ e :: u) = word c t ∧ (word c t).2 ≤ t.length := by
  have hrun := run_le_length isNamePart t
  have hquote := head?_before (ne_of_isStop he (show isStop '\'' = false by decide)) t u
  have hat : ((t ++ e :: u).drop (run isNamePart t)).head? = some '@' ↔ (t.drop (run isNamePart t)).head? = some '@' := by
    rw [List.drop_append_of_le_length hrun]
    exact head?_before (ne_of_isStop he (by decide)) _ _
  simp only [word, run_before (not_of_isStop he (p := isNamePart) (by decide)),
    run_before (not_of_isStop he (p := isFieldPart) (by decide)),
    hat, hquote, List.take_append_of_le_length hrun] at h ⊢
  by_cases hpath : (t.drop (run isNamePart t)).head? = some '@'
  · rw [if_pos hpath, if_pos hpath]
    exact ⟨rfl, run_le_length _ _⟩
  rw [if_neg hpath] at h ⊢
  rw [if_neg hpath]
  have hhead {d : Char} (hd : (decide (run isNamePart t = 0) && decide (t.head? = some '\'') && decide (c = d)) = true) :
      t.head? = some '\'' := by
    simp only [Bool.and_eq_true, decide_eq_true_eq] at hd
    exact hd.1.2
  split
  · rename_i hs
    rw [if_pos hs] at h
    obtain ⟨heq, hle⟩ := literal_drop_append (by decide) rfl (hhead hs) h _
    exact ⟨by rw [heq], hle⟩
  · rename_i hs
    rw [if_neg hs] at h
    split
    · rename_i hr
      rw [if_pos hr] at h
      obtain ⟨heq, hle⟩ := literal_drop_append (by decide) rfl (hhead hr) h _
      exact ⟨by rw [heq], hle⟩
    · rename_i hr
      rw [if_neg hr] at h
      split
      · rename_i ht
        rw [if_pos ht] at h
        obtain ⟨heq, hle⟩ := literal_drop_append (by decide) rfl (hhead ht) h _
        exact ⟨by rw [heq], hle⟩
      · exact ⟨rfl, hrun⟩

theorem number_before {e : Char} (he : isStop e = true) (c : Char) (t u : Text) :
    number c (t ++ e :: u) = number c t ∧ (number c t).2 ≤ t.length := by
  have hpart : isNumberPart e = false := not_of_isStop he (by decide)
  have hrun := run_le_length isNumberPart t
  have hpoint : ((t ++ e :: u).drop (run isNumberPart t)).head? = some '.' ↔ (t.drop (run isNumberPart t)).head? = some '.' := by
    rw [List.drop_append_of_le_length hrun]
    exact head?_before (ne_of_isStop he (by decide)) _ _
  -- where a point follows there is room for it, so the fraction begins inside the text
  have hfraction (h : (t.drop (run isNumberPart t)).head? = some '.') :
      (t ++ e :: u).drop (run isNumberPart t + 1) = t.drop (run isNumberPart t + 1) ++ e :: u ∧
        run isNumberPart t + 1 + run isNumberPart (t.drop (run isNumberPart t + 1)) ≤ t.length := by
    have hlt : run isNumberPart t < t.length := by
      refine Nat.lt_of_not_le fun hge => ?_
      rw [List.drop_eq_nil_of_le hge] at h
      cases h
    have hmore := run_le_length isNumberPart (t.drop (run isNumberPart t + 1))
    rw [List.length_drop] at hmore
    exact ⟨List.drop_append_of_le_length hlt, by omega⟩
  simp only [number, run_before hpart, hpoint]
  by_cases hp : (t.drop (run isNumberPart t)).head? = some '.'
  · obtain ⟨heq, hle⟩ := hfraction hp
    rw [heq, run_before hpart]
    simp only [hp, if_true]
    refine ⟨trivial, ?_⟩
    split <;> exact hle
  · simp only [hp, if_false]
    refine ⟨trivial, ?_⟩
    split <;> exact hrun

theorem mark_before {e : Char} (he : isStop e = true) (c : Char) (t u : Text) :
    mark c (t ++ e :: u) = mark c t ∧ (mark c t).2 ≤ t.length := by
  cases t with
  | nil =>
    simp only [isStop, isSpace, Bool.or_eq_true, decide_eq_true_eq] at he
    unfold mark
    rcases he with (rfl | ((rfl | rfl) | rfl) | rfl) | rfl <;> split <;> simp_all
  | cons d t =>
    refine ⟨rfl, ?_⟩
    unfold mark
    split <;> simp

/-- A lexeme that is closed ends before a stop after it. Blanks and comments may take the stop in where they reach it, unless it is
a newline; and with a newline a carriage return at the very end does not stand alone any more. -/
theorem classify_before {c e : Char} {t : Text} (he : isStop e = true) (h : (classify c t).1.isUnclosed = false)
    (hspacing : (classify c t).1.isSpacing = true → (e = '\n' ∧ ¬ (c = '\r' ∧ t = [])) ∨ (classify c t).2 < t.length) (u : Text) :
    classify c (t ++ e :: u) = classify c t ∧ (classify c t).2 ≤ t.length := by
  unfold classify at h hspacing ⊢
  split
  · exact ⟨rfl, Nat.zero_le _⟩
  rename_i hnewline
  rw [if_neg hnewline] at h hspacing
  have hreturned : (decide (c = '\r') && decide ((t ++ e :: u).head? = some '\n')) =
      (decide (c = '\r') && decide (t.head? = some '\n')) := by
    cases t with
    | nil =>
      by_cases hc : c = '\r'
      · subst hc
        exact ((hspacing rfl).elim (fun hstop => hstop.2 ⟨rfl, rfl⟩) fun hlt => Nat.not_lt_zero _ hlt).elim
      · rw [decide_eq_false hc, Bool.false_and, Bool.false_and]
    | cons d t => rfl
  rw [hreturned]
  split
  · rename_i hcrlf
    cases t with
    | nil => simp at hcrlf
    | cons d t => exact ⟨rfl, Nat.le_add_left _ _⟩
  rename_i hcrlf
  rw [if_neg hcrlf] at h hspacing
  have hrun {p : Char → Bool} (hp : p '\n' = false) (hreach : e = '\n' ∨ run p t < t.length) : run p (t ++ e :: u) = run p t := by
    rcases hreach with rfl | hlt
    · exact run_before hp t u
    · exact run_append_of_lt hlt _
  split
  · rename_i hspace
    rw [if_pos hspace] at hspacing
    exact ⟨by rw [hrun (by decide) ((hspacing rfl).imp And.left id)], run_le_length _ _⟩
  rename_i hspace
  rw [if_neg hspace] at h hspacing
  split
  · rename_i hcomment
    rw [if_pos hcomment] at hspacing
    exact ⟨by rw [hrun (by decide) ((hspacing rfl).imp And.left id)], run_le_length _ _⟩
  rename_i hcomment
  rw [if_neg hcomment] at h
  split
  · rename_i hquote
    rw [if_pos hquote] at h
    exact literal_append (by decide) rfl h _
  rename_i hquote
  rw [if_neg hquote] at h
  split
  · rename_i hname
    rw [if_pos hname] at h
    exact word_before he h u
  split
  · exact ⟨by rw [run_before (not_of_isStop he (by decide))], run_le_length _ _⟩
  split
  · exact number_before he c t u
  · exact mark_before he c t u

/-- The lexemes of a text with a newline and more text after it, if no literal in it lacks its closing mark. A carriage return
at its end goes with the newline. -/
theorem split_newline {t : Text} (h : ∀ l ∈ split t, l.kind.isUnclosed = false) (u : Text) :
    ∃ ls stray nl, (∀ l ∈ stray, l.kind = .whitespace) ∧ split t = ls ++ stray ∧
      split (t ++ '\n' :: u) = ls ++ ⟨.newline, nl⟩ :: split u := by
  fun_induction split t with
  | case1 => exact ⟨[], [], ['\n'], fun _ hl => absurd hl List.not_mem_nil, rfl, by rw [List.nil_append, split]; rfl⟩
  | case2 c rest kind n hclassify ih =>
    by_cases hreturn : c = '\r' ∧ rest = []
    · obtain ⟨rfl, rfl⟩ := hreturn
      cases hclassify
      refine ⟨[], [⟨.whitespace, ['\r']⟩], ['\r', '\n'], fun l hl => by rw [List.mem_singleton.mp hl], ?_, ?_⟩
      · rw [List.drop_nil, split]
        rfl
      · rw [List.nil_append, List.cons_append, List.nil_append, split]
        rfl
    · have hclosed : (classify c rest).1.isUnclosed = false := by
        rw [hclassify]
        exact h _ List.mem_cons_self
      obtain ⟨heq, hle⟩ := classify_before (e := '\n') (by decide) hclosed (fun _ => .inl ⟨rfl, hreturn⟩) u
      rw [hclassify] at heq hle
      obtain ⟨ls, stray, nl, hstray, hsplit, hjoined⟩ := ih fun l hl => h l (List.mem_cons_of_mem _ hl)
      refine ⟨⟨kind, c :: rest.take n⟩ :: ls, stray, nl, hstray, by rw [hsplit, List.cons_append], ?_⟩
      rw [List.cons_append, split, heq]
      simp only [List.take_append_of_le_length hle, List.drop_append_of_le_length hle, hjoined, List.cons_append]

/-! ## Problems -/

theorem fragmentProblems_eq_nil {fs : List Fragment} {offset : Nat} (h : fragmentProblems offset fs = []) (offset' : Nat) :
    fragmentProblems offset' fs = [] := by
  induction fs generalizing offset offset' with
  | nil => rfl
  | cons f fs ih =>
    obtain ⟨hhere, hrest⟩ := List.append_eq_nil_iff.mp h
    refine List.append_eq_nil_iff.mpr ⟨?_, ih hrest _⟩
    cases f with
    | escape c =>
      cases c with
      | none => rfl
      | some c =>
        by_cases hc : Literal.isEscape c = true
        · exact if_pos hc
        · simp [hc] at hhere
    | openBraces => cases hhere
    | plain c | template lead name trail => rfl

theorem timestampProblems_eq_nil {t : Text} {offset : Nat} (h : timestampProblems offset t = []) (offset' : Nat) :
    timestampProblems offset' t = [] := by
  fun_induction timestampProblems offset t generalizing offset' with
  | case1 => rfl
  | case2 offset c rest size here ih =>
    obtain ⟨hhere, hrest⟩ := List.append_eq_nil_iff.mp h
    rw [timestampProblems]
    refine List.append_eq_nil_iff.mpr ⟨?_, ih hrest _⟩
    by_cases hc : (c = '\'' || c = '\\') = true
    · exact if_pos hc
    · simp [here, hc] at hhere
  | case3 offset c rest hesc ih =>
    rw [timestampProblems]
    · exact ih h _
    · exact hesc

theorem integerFits_of {previous previous' : Option Kind} {t : Text} (h : integerFits previous t = true)
    (hminus : previous = some .minus → previous' = some .minus) : integerFits previous' t = true := by
  unfold integerFits at h ⊢
  split at h
  · rcases Bool.or_eq_true_iff.mp h with hp | hm
    · exact Bool.or_eq_true_iff.mpr (.inl (decide_eq_true (hminus (of_decide_eq_true hp))))
    · exact Bool.or_eq_true_iff.mpr (.inr hm)
  · cases h

/-- What is no problem at one offset is none at another, unless a minus sign before it is missed. -/
theorem problems_eq_nil {l : Lexeme} {checkPatterns : Bool} {offset : Nat} {previous : Option Kind}
    (h : l.problems checkPatterns offset previous = []) (offset' : Nat) {previous' : Option Kind}
    (hminus : previous = some .minus → previous' = some .minus) : l.problems checkPatterns offset' previous' = [] := by
  unfold problems at h ⊢
  split
  case h_2 hk =>
    simp only [hk] at h
    exact fragmentProblems_eq_nil h _
  case h_7 hk =>
    simp only [hk] at h
    exact timestampProblems_eq_nil h _
  case h_9 hk =>
    simp only [hk] at h
    refine if_pos (integerFits_of ?_ hminus)
    by_cases hfits : integerFits previous l.text = true
    · exact hfits
    · rw [if_neg hfits] at h
      cases h
  case h_10 hk =>
    simp only [hk] at h
    cases checkPatterns with
    | false => rfl
    | true =>
      rw [if_pos rfl] at h ⊢
      cases hcheck : Pattern.check (Literal.rawValue l.text) with
      | error e =>
        rw [hcheck] at h
        cases h
      | ok u => rfl
  case h_11 => rfl
  all_goals
    rename_i hk
    simp only [hk] at h
    cases h

theorem problemsOf_append (checkPatterns : Bool) (ls ms : List Lexeme) (offset : Nat) (previous : Option Kind) :
    ∃ offset' previous', problemsOf checkPatterns offset previous (ls ++ ms) =
      problemsOf checkPatterns offset previous ls ++ problemsOf checkPatterns offset' previous' ms := by
  induction ls generalizing offset previous with
  | nil => exact ⟨offset, previous, rfl⟩
  | cons l ls ih =>
    obtain ⟨offset', previous', h⟩ := ih (offset + l.text.bytes) (some l.kind)
    exact ⟨offset', previous', by simp only [List.cons_append, problemsOf, h, List.append_assoc]⟩

theorem problemsOf_eq_nil_of {ls : List Lexeme} {checkPatterns : Bool} {offset : Nat} {previous : Option Kind}
    (h : problemsOf checkPatterns offset previous ls = []) (offset' : Nat) {previous' : Option Kind}
    (hminus : previous = some .minus → previous' = some .minus) : problemsOf checkPatterns offset' previous' ls = [] := by
  induction ls generalizing offset previous offset' previous' with
  | nil => rfl
  | cons l ls ih =>
    obtain ⟨hhere, hrest⟩ := List.append_eq_nil_iff.mp h
    exact List.append_eq_nil_iff.mpr ⟨problems_eq_nil hhere _ hminus, ih hrest _ id⟩

/-- Where nothing is wrong, no character is stray and no literal lacks its closing mark. -/
theorem kind_of_problemsOf {ls : List Lexeme} {checkPatterns : Bool} {offset : Nat} {previous : Option Kind}
    (h : problemsOf checkPatterns offset previous ls = []) {l : Lexeme} (hl : l ∈ ls) :
    l.kind ≠ .garbage ∧ l.kind.isUnclosed = false := by
  induction ls generalizing offset previous with
  | nil => cases hl
  | cons m ls ih =>
    obtain ⟨hhere, hrest⟩ := List.append_eq_nil_iff.mp h
    rcases List.mem_cons.mp hl with rfl | hl
    · unfold problems at hhere
      cases hk : l.kind <;> simp_all [Kind.isUnclosed]
    · exact ih hrest hl

/-- Stray characters stay stray when they are taken together. -/
theorem eq_of_coalesce {ls : List Lexeme} (h : ∀ l ∈ coalesce ls, l.kind ≠ .garbage) : coalesce ls = ls := by
  refine coalesce_of_ne_garbage ?_
  induction ls with
  | nil => exact fun _ hl => absurd hl List.not_mem_nil
  | cons l ls ih =>
    suffices hboth : l.kind ≠ .garbage ∧ ∀ m ∈ coalesce ls, m.kind ≠ .garbage from
      fun m hm => (List.mem_cons.mp hm).elim (fun heq => heq ▸ hboth.1) (ih hboth.2 m)
    rw [coalesce] at h
    cases hls : coalesce ls with
    | nil =>
      rw [hls] at h
      exact ⟨h l List.mem_cons_self, fun _ hm => absurd hm List.not_mem_nil⟩
    | cons m more =>
      simp only [hls] at h
      split at h
      · exact absurd rfl (h _ List.mem_cons_self)
      · exact ⟨h l List.mem_cons_self, fun k hk => h k (List.mem_cons_of_mem _ hk)⟩

/-- The lexemes of a source without lexical problems: no character in it is stray, and no literal lacks its closing mark. -/
theorem ofText_of_scan {source : Text} {checkPatterns : Bool} (h : (scan source checkPatterns).diagnostics = []) :
    ofText source = split source ∧ ∀ l ∈ split source, l.kind ≠ .garbage ∧ l.kind.isUnclosed = false := by
  have hsplit : ofText source = split source := eq_of_coalesce fun l hl => (kind_of_problemsOf h hl).1
  exact ⟨hsplit, fun l hl => kind_of_problemsOf h (hsplit ▸ hl)⟩

end Lexeme

/-! ## The tokens of joined sources -/

/-- A token apart from where it stands. -/
def Token.core (t : Token) : Kind × Text × Bool := (t.kind, t.text, t.immediate)

/-- Where tokens are placed makes a difference only to where they stand, and to whether the first one touches what is before it. -/
theorem Token.map_core_place (ps : List (Kind × Text)) (offset offset' : Nat) {previous previous' : Option Kind}
    (h : previous.any (!·.breaksAdjacency) = previous'.any (!·.breaksAdjacency)) :
    (place offset previous ps).map core = (place offset' previous' ps).map core := by
  induction ps generalizing offset offset' previous previous' with
  | nil => rfl
  | cons p ps ih =>
    obtain ⟨kind, text⟩ := p
    simp only [place, List.map_cons, ih _ (offset' + text.bytes) rfl, core, h]

/-- What stands between two rows of tokens that are joined. The first row ends with `tail` by itself; in the joined row there is
`gap` instead, and next comes a token that stops the first row, which is a newline or a closing parenthesis, and then the second
row. Or nothing comes next, and the joined row ends with `gap`. -/
structure Seam (k : Kind) where
  tail : List Token
  gap : List Token
  next : List Token
  tail_trivia : ∀ t ∈ tail, t.kind.isTrivia = true
  gap_trivia : ∀ t ∈ gap, t.kind.isTrivia = true
  next_kind : (next.head?.map Token.kind).getD .error = k
  stops : k = .newline ∨ k = .parenClose ∨ next = []

namespace Seam

variable {k : Kind}

theorem kind_cases (j : Seam k) : k = .newline ∨ k = .parenClose ∨ k = .error := by
  refine j.stops.imp id (.imp id fun hnil => ?_)
  rw [← j.next_kind, hnil]
  rfl

theorem solid (j : Seam k) : k.isTrivia = false := by
  rcases j.kind_cases with rfl | rfl | rfl <;> rfl

theorem kind_of_mem_next (j : Seam k) : ∀ t ∈ j.next.head?, t.kind = k := by
  intro t ht
  rw [← j.next_kind, Option.mem_def.mp ht]
  rfl

/-- What comes after the first row in the joined one. -/
def rest (j : Seam k) : List Token := j.gap ++ j.next

/-- That is trivia or what stops the row. -/
theorem head?_rest (j : Seam k) : ∀ t ∈ j.rest.head?, t.kind.isTrivia = true ∨ t.kind = k := by
  unfold rest
  intro t ht
  cases hgap : j.gap with
  | nil =>
    rw [hgap] at ht
    exact .inr (j.kind_of_mem_next t ht)
  | cons u us =>
    rw [hgap] at ht
    cases ht
    exact .inl (j.gap_trivia t (hgap ▸ List.mem_cons_self))

/-- The newline that stops the first row. -/
def stop (j : Seam .newline) : Token := j.next.head (by
  intro hnil
  have hkind := j.next_kind
  rw [hnil] at hkind
  cases hkind)

/-- The second row. -/
def after (j : Seam .newline) : List Token := j.next.tail

theorem next_eq (j : Seam .newline) : j.next = j.stop :: j.after := (List.cons_head_tail _).symm

theorem stop_kind (j : Seam .newline) : j.stop.kind = .newline := j.kind_of_mem_next _ (by rw [j.next_eq]; rfl)

theorem rest_eq (j : Seam .newline) : j.rest = j.gap ++ j.stop :: j.after := by rw [rest, next_eq]

end Seam

/-- A row of tokens that does not end with trivia. -/
def Firm (ts : List Token) : Prop := ∀ t ∈ ts.getLast?, t.kind.isTrivia = false

namespace Firm

theorem nil : Firm [] := fun _ h => by cases h

theorem cons {t : Token} {ts : List Token} (h : Firm ts) (ht : ts = [] → t.kind.isTrivia = false) : Firm (t :: ts) := by
  cases ts with
  | nil =>
    intro x hx
    cases hx
    exact ht rfl
  | cons u ts =>
    intro x hx
    rw [List.getLast?_cons_cons] at hx
    exact h x hx

theorem of_suffix {ts us : List Token} (h : Firm ts) (hus : us <:+ ts) : Firm us := by
  obtain ⟨before, rfl⟩ := hus
  intro x hx
  exact h x (by rw [List.getLast?_append, hx]; rfl)

/-- A firm row has a token that is no trivia, unless it is empty. -/
theorem exists_mem {ts : List Token} (h : Firm ts) (hne : ts ≠ []) : ∃ t ∈ ts, t.kind.isTrivia = false :=
  ⟨ts.getLast hne, List.getLast_mem hne, h _ (List.getLast?_eq_some_getLast hne)⟩

end Firm

/-- Every row of tokens is a firm one with trivia after it. -/
theorem exists_firm (ts : List Token) :
    ∃ front blanks, ts = front ++ blanks ∧ Firm front ∧ ∀ t ∈ blanks, t.kind.isTrivia = true := by
  induction ts with
  | nil => exact ⟨[], [], rfl, .nil, fun _ h => absurd h List.not_mem_nil⟩
  | cons t ts ih =>
    obtain ⟨front, blanks, rfl, hfirm, hblanks⟩ := ih
    by_cases h : front = [] ∧ t.kind.isTrivia = true
    · obtain ⟨rfl, ht⟩ := h
      exact ⟨[], t :: blanks, rfl, .nil, fun x hx => (List.mem_cons.mp hx).elim (fun heq => heq ▸ ht) (hblanks x)⟩
    · exact ⟨t :: front, blanks, rfl, hfirm.cons fun hnil => by simpa [hnil] using h, hblanks⟩

/-- A blank or a comment is one token. -/
theorem Lexeme.pieces_of_isSpacing {l : Lexeme} (h : l.kind.isSpacing = true) : l.pieces = [(l.kind, l.text)] := by
  unfold Lexeme.pieces
  cases hk : l.kind <;> first | rfl | (rw [hk] at h; cases h)

/-- The tokens of blanks and comments are trivia. -/
theorem Token.isTrivia_of_mem_place {ls : List Lexeme} (h : ∀ l ∈ ls, l.kind.isSpacing = true) {offset : Nat} {previous : Option Kind} {t : Token}
    (ht : t ∈ place offset previous (ls.flatMap Lexeme.pieces)) : t.kind.isTrivia = true := by
  obtain ⟨x, hx, hk⟩ := kind_of_mem_place ht
  obtain ⟨l, hl, hx⟩ := List.mem_flatMap.mp hx
  rw [Lexeme.pieces_of_isSpacing (h l hl), List.mem_singleton] at hx
  rw [hk, hx]
  exact Kind.isTrivia_of_isSpacing (h l hl)

/-- Two sources without lexical problems have none when they are joined by a newline, and their tokens are joined as well. -/
theorem scan_joined {source more : Text} {checkPatterns : Bool} (h : (scan source checkPatterns).diagnostics = [])
    (hmore : (scan more checkPatterns).diagnostics = []) :
    (scan (source ++ '\n' :: more) checkPatterns).diagnostics = [] ∧
      ∃ front, ∃ j : Seam .newline, Firm front ∧ (scan source checkPatterns).tokens = front ++ j.tail ∧
        (scan (source ++ '\n' :: more) checkPatterns).tokens = front ++ j.rest ∧
        j.after.map Token.core = (scan more checkPatterns).tokens.map Token.core := by
  obtain ⟨hsplit, hkinds⟩ := Lexeme.ofText_of_scan h
  obtain ⟨hsplit', hkinds'⟩ := Lexeme.ofText_of_scan hmore
  obtain ⟨ls, stray, nl, hstray, hsource, hjoined⟩ := Lexeme.split_newline (fun l hl => (hkinds l hl).2) more
  -- no character of the joined sources is stray, so nothing is taken together
  have hofText : Lexeme.ofText (source ++ '\n' :: more) = ls ++ ⟨.newline, nl⟩ :: Lexeme.split more := by
    rw [Lexeme.ofText, hjoined]
    refine Lexeme.coalesce_of_ne_garbage fun l hl => ?_
    rcases List.mem_append.mp hl with hl | hl
    · exact (hkinds l (hsource ▸ List.mem_append_left _ hl)).1
    · rcases List.mem_cons.mp hl with rfl | hl
      · exact fun hk => by cases hk
      · exact (hkinds' l hl).1
  simp only [scan, hsplit, hsplit', hofText, hsource] at h hmore ⊢
  obtain ⟨offset, previous, hproblems⟩ := Lexeme.problemsOf_append checkPatterns ls stray 0 none
  obtain ⟨offset', previous', hproblems'⟩ :=
    Lexeme.problemsOf_append checkPatterns ls (⟨.newline, nl⟩ :: Lexeme.split more) 0 none
  rw [hproblems] at h
  refine ⟨?_, ?_⟩
  · rw [hproblems', (List.append_eq_nil_iff.mp h).1, List.nil_append]
    exact Lexeme.problemsOf_eq_nil_of hmore _ fun hminus => by cases hminus
  · obtain ⟨o, p, hplace⟩ := Token.place_append (ls.flatMap Lexeme.pieces) (stray.flatMap Lexeme.pieces) 0 none
    obtain ⟨o', p', hplace'⟩ := Token.place_append (ls.flatMap Lexeme.pieces)
      ((.newline, nl) :: (Lexeme.split more).flatMap Lexeme.pieces) 0 none
    rw [Token.place] at hplace'
    obtain ⟨front, blanks, hfront, hfirm, hblanks⟩ := exists_firm (Token.place 0 none (ls.flatMap Lexeme.pieces))
    have hstray' : ∀ t ∈ Token.place o p (stray.flatMap Lexeme.pieces), t.kind.isTrivia = true :=
      fun t ht => Token.isTrivia_of_mem_place (fun l hl => by rw [hstray l hl]; rfl) ht
    let j : Seam .newline :=
      { tail := blanks ++ Token.place o p (stray.flatMap Lexeme.pieces)
        gap := blanks
        next := ⟨.newline, nl, o', p'.any (!·.breaksAdjacency)⟩ ::
          Token.place (o' + nl.bytes) (some .newline) ((Lexeme.split more).flatMap Lexeme.pieces)
        tail_trivia := fun t ht => (List.mem_append.mp ht).elim (hblanks t) (hstray' t)
        gap_trivia := hblanks
        next_kind := rfl
        stops := .inl rfl }
    refine ⟨front, j, hfirm, ?_, ?_, Token.map_core_place _ _ _ rfl⟩
    · rw [List.flatMap_append, hplace, hfront, List.append_assoc]
    · have hnewline : Lexeme.pieces ⟨.newline, nl⟩ = [(.newline, nl)] := rfl
      rw [List.flatMap_append, List.flatMap_cons, hnewline, List.singleton_append, hplace', hfront, Seam.rest, List.append_assoc]

end Remap
