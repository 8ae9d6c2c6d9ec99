import Remap.Proofs.Phrase

/-!
# Scanning what was written

Pieces of text that are written one after another are cut apart again if each of them is the longest lexeme at its place
(`Severable`). What decides this is the piece and the character after it, so a phrase is severable before anything that begins
with a character that cannot continue it.
-/

namespace Remap

namespace Lexeme

/-- The lexeme of kind `k` that begins a text is `t`, with `rest` after it. -/
def Cut (k : Kind) (t rest : Text) : Prop := ∃ c u, t = c :: u ∧ classify c (u ++ rest) = (k, u.length)

/-- A lexeme is cut off the text it begins. -/
theorem split_of_cut {k : Kind} {t rest : Text} (h : Cut k t rest) : split (t ++ rest) = ⟨k, t⟩ :: split rest := by
  obtain ⟨c, u, rfl, hclassify⟩ := h
  rw [List.cons_append, split, hclassify]
  simp only [List.take_left, List.drop_left]

/-- A run ends where the first character comes that does not belong to it. -/
theorem run_append {p : Char → Bool} {t rest : Text} (ht : t.all p = true) (hrest : ∀ c ∈ rest.head?, p c = false) :
    run p (t ++ rest) = t.length := by
  have hend : rest.takeWhile p = [] := by
    cases rest with
    | nil => rfl
    | cons c rest => exact List.takeWhile_cons_of_neg (by simp [hrest c rfl])
  rw [run, List.takeWhile_append_of_pos (List.all_eq_true.mp ht), hend, List.append_nil]

/-! ## Words and numbers -/

theorem isFieldPart_of_isNamePart {c : Char} (h : isNamePart c = true) : isFieldPart c = true := by
  rw [isFieldPart, h, Bool.true_or]

theorem isNamePart_eq_false {c : Char} (h : isFieldPart c = false) : isNamePart c = false :=
  (Bool.or_eq_false_iff.mp h).1

/-- What begins like a name is read as a word. -/
theorem classify_of_isNameStart {c : Char} (h : isNameStart c = true) (rest : Text) : classify c rest = word c rest := by
  have hne {d : Char} (hd : isNameStart d = false) : c ≠ d := by
    rintro rfl
    cases h.symm.trans hd
  have hspace : isSpace c = false := by
    simp [isSpace, hne (show isNameStart ' ' = false by decide), hne (show isNameStart '\t' = false by decide),
      hne (show isNameStart '\r' = false by decide), hne (show isNameStart '\x0c' = false by decide)]
  simp [classify, hspace, h, hne (show isNameStart '\n' = false by decide), hne (show isNameStart '\r' = false by decide),
    hne (show isNameStart '#' = false by decide), hne (show isNameStart '"' = false by decide)]

/-- A word ends before what can neither continue it nor make a literal of it. -/
theorem cut_word {c : Char} {t rest : Text} (hc : isNameStart c = true) (ht : t.all isNamePart = true)
    (hrest : ∀ d ∈ rest.head?, isFieldPart d = false ∧ d ≠ '\'') : Cut (wordKind (c :: t)) (c :: t) rest := by
  refine ⟨c, t, rfl, ?_⟩
  have hrun : run isNamePart (t ++ rest) = t.length := run_append ht fun d hd => isNamePart_eq_false (hrest d hd).1
  have hat : rest.head? ≠ some '@' := fun hd => by cases (hrest '@' hd).1
  have hquote : (decide (t.length = 0) && decide ((t ++ rest).head? = some '\'')) = false := by
    refine Bool.eq_false_iff.mpr fun h => ?_
    obtain ⟨hlength, hd⟩ := by simpa only [Bool.and_eq_true, decide_eq_true_eq] using h
    rw [List.length_eq_zero_iff.mp hlength] at hd
    exact (hrest '\'' hd).2 rfl
  rw [classify_of_isNameStart hc]
  simp only [word, hrun, List.drop_left, hat, if_false, List.take_left, hquote, Bool.false_and, Bool.false_eq_true]

/-- A field name with `@` in it ends before what cannot continue it. -/
theorem cut_pathField {c : Char} {t rest : Text} (hc : (isNameStart c || c == '@') = true) (ht : t.all isFieldPart = true)
    (hat : (c :: t).contains '@' = true) (hrest : ∀ d ∈ rest.head?, isFieldPart d = false) :
    Cut .pathField (c :: t) rest := by
  refine ⟨c, t, rfl, ?_⟩
  have hrun : run isFieldPart (t ++ rest) = t.length := run_append ht hrest
  by_cases hname : isNameStart c = true
  · have hmem : '@' ∈ t := by
      simp only [List.contains_cons, Bool.or_eq_true, beq_iff_eq, List.contains_iff_mem] at hat
      rcases hat with rfl | hat
      · cases hname
      · exact hat
    -- the first `@` comes right after a run of characters that a name may hold
    obtain ⟨u, v, rfl, hu⟩ := List.eq_append_cons_of_mem hmem
    have hparts : u.all isNamePart = true := by
      refine List.all_eq_true.mpr fun d hd => ?_
      have hfield := List.all_eq_true.mp ht d (List.mem_append_left _ hd)
      have hne : d ≠ '@' := fun h => hu (h ▸ hd)
      simpa [isFieldPart, hne] using hfield
    have hname' : run isNamePart (u ++ '@' :: v ++ rest) = u.length := by
      rw [List.append_assoc]
      exact run_append hparts fun d hd => by
        cases hd
        rfl
    have hdrop : ((u ++ '@' :: v ++ rest).drop u.length).head? = some '@' := by
      rw [List.append_assoc, List.drop_left]
      rfl
    rw [classify_of_isNameStart hname]
    simp only [word, hname', hdrop, if_true, hrun]
  · have hc : c = '@' := by simpa [hname] using hc
    subst hc
    show (Kind.pathField, run isFieldPart (t ++ rest)) = _
    rw [hrun]

/-- A digit begins a number. -/
theorem classify_of_isDigit {c : Char} (h : c.isDigit = true) (rest : Text) : classify c rest = number c rest := by
  have hne {d : Char} (hd : d.isDigit = false) : c ≠ d := by
    rintro rfl
    cases h.symm.trans hd
  have hspace : isSpace c = false := by
    simp [isSpace, hne (show ' '.isDigit = false by decide), hne (show '\t'.isDigit = false by decide),
      hne (show '\r'.isDigit = false by decide), hne (show '\x0c'.isDigit = false by decide)]
  have halpha : c.isAlpha = false := by
    have hdigit : c.val ≤ '9'.val := of_decide_eq_true (Bool.and_eq_true_iff.mp h).2
    have hupper : ¬(c.val ≥ 'A'.val ∧ c.val ≤ 'Z'.val) := fun h => absurd (UInt32.le_trans h.1 hdigit) (by decide)
    have hlower : ¬c.val ≥ 'a'.val := fun h => absurd (UInt32.le_trans h hdigit) (by decide)
    show (decide (c.val ≥ 'A'.val ∧ c.val ≤ 'Z'.val) || (decide (c.val ≥ 'a'.val) && decide (c.val ≤ 'z'.val))) = false
    rw [decide_eq_false hupper, decide_eq_false hlower]
    rfl
  have hname : isNameStart c = false := by simp [isNameStart, halpha, hne (show '_'.isDigit = false by decide)]
  simp [classify, hspace, h, hname, hne (show '\n'.isDigit = false by decide), hne (show '\r'.isDigit = false by decide),
    hne (show '#'.isDigit = false by decide), hne (show '"'.isDigit = false by decide), hne (show '@'.isDigit = false by decide)]

/-- The digits of a positive number begin with no zero. -/
theorem toDigits_ne_zero_cons {m : Nat} (h : 0 < m) (u : Text) : Nat.toDigits 10 m ≠ '0' :: u := by
  induction m using Nat.strongRecOn generalizing u with
  | ind m ih =>
    rw [Nat.toDigits_eq_if (by decide)]
    split
    · rename_i hlt
      intro heq
      have hdigits : ∀ d < 10, 0 < d → d.digitChar ≠ '0' := by decide
      exact hdigits m hlt h (List.cons.inj heq).1
    · rename_i hge
      have hne : Nat.toDigits 10 (m / 10) ≠ [] := Nat.toDigits_ne_nil
      cases hds : Nat.toDigits 10 (m / 10) with
      | nil => exact absurd hds hne
      | cons d ds =>
        intro heq
        have hd : d = '0' := (List.cons.inj heq).1
        exact ih (m / 10) (by omega) (by omega) ds (hd ▸ hds)

/-- The digits of a number: only the number zero begins with a zero. -/
theorem toDigits_spec (m : Nat) : ∃ c u, Nat.toDigits 10 m = c :: u ∧ c.isDigit = true ∧ u.all Char.isDigit = true ∧
    (c = '0' → u = []) := by
  have hdigit : ∀ c ∈ Nat.toDigits 10 m, c.isDigit = true := fun c hc => Nat.isDigit_of_mem_toDigits (by decide) (by decide) hc
  cases hds : Nat.toDigits 10 m with
  | nil => exact absurd hds Nat.toDigits_ne_nil
  | cons c u =>
    rw [hds] at hdigit
    refine ⟨c, u, rfl, hdigit c List.mem_cons_self, List.all_eq_true.mpr fun d hd => hdigit d (List.mem_cons_of_mem _ hd), ?_⟩
    rintro rfl
    rcases Nat.eq_zero_or_pos m with rfl | hpos
    · simpa using hds.symm
    · exact absurd hds (toDigits_ne_zero_cons hpos u)

/-- The digits of a number are a lexeme before what can continue no number. -/
theorem cut_integer (m : Nat) {rest : Text} (hrest : ∀ d ∈ rest.head?, isNumberPart d = false ∧ d ≠ '.') :
    Cut .integer (Nat.toDigits 10 m) rest := by
  obtain ⟨c, u, hds, hc, hu, hzero⟩ := toDigits_spec m
  refine ⟨c, u, hds, ?_⟩
  have hparts : u.all isNumberPart = true :=
    List.all_eq_true.mpr fun d hd => by rw [isNumberPart, List.all_eq_true.mp hu d hd, Bool.true_or]
  have hrun : run isNumberPart (u ++ rest) = u.length := run_append hparts fun d hd => (hrest d hd).1
  have hpoint : rest.head? ≠ some '.' := fun hd => (hrest '.' hd).2 rfl
  have hlead : (decide (c = '0') && decide (u.length ≠ 0)) = false := by
    refine Bool.eq_false_iff.mpr fun h => ?_
    obtain ⟨hc, hlength⟩ := by simpa only [Bool.and_eq_true, decide_eq_true_eq] using h
    exact hlength (List.length_eq_zero_iff.mpr (hzero hc))
  rw [classify_of_isDigit hc]
  simp only [number, hrun, List.drop_left, hpoint, Bool.false_eq_true, if_false, hlead]

/-- The digits of a number write that number. -/
theorem magnitude?_toDigits {m : Nat} (h : m ≤ Literal.maxMagnitude) : Literal.magnitude? (Nat.toDigits 10 m) = some m := by
  have hdigit : ∀ c ∈ Nat.toDigits 10 m, c.isDigit = true := fun c hc => Nat.isDigit_of_mem_toDigits (by decide) (by decide) hc
  have hdigits : Literal.digits (Nat.toDigits 10 m) = Nat.toDigits 10 m := by
    refine List.filter_eq_self.mpr fun c hc => ?_
    have hne : c ≠ '_' := by
      rintro rfl
      cases hdigit _ hc
    simp [hne]
  have hvalue : Literal.ofDigits (Nat.toDigits 10 m) = m := Nat.ofDigitChars_toDigits (by decide) (by decide)
  have hall : (Nat.toDigits 10 m).all Char.isDigit = true := List.all_eq_true.mpr hdigit
  simp [Literal.magnitude?, hdigits, hvalue, hall, h, Nat.toDigits_ne_nil]

/-! ## Cutting pieces apart -/

/-- Whether a lexeme of a kind is one token, of the same kind, with which nothing can be wrong but the value of an integer. -/
def isSimple : Kind → Bool
  | .stringLiteral | .unterminatedString | .unterminatedRawString | .unterminatedRegex | .unterminatedTimestamp
  | .malformedNumber | .garbage | .timestamp | .regex => false
  | _ => true

theorem pieces_of_isSimple {l : Lexeme} (h : isSimple l.kind = true) : l.pieces = [(l.kind, l.text)] := by
  unfold pieces
  split
  case h_7 => rfl
  all_goals
    rename_i hk
    rw [hk] at h
    cases h

theorem problems_of_isSimple {l : Lexeme} {checkPatterns : Bool} {offset : Nat} {previous : Option Kind}
    (h : isSimple l.kind = true) (hfits : l.kind = .integer → integerFits previous l.text = true) :
    l.problems checkPatterns offset previous = [] := by
  unfold problems
  split
  case h_9 =>
    rename_i hk
    rw [hfits hk, if_pos rfl]
  case h_11 => rfl
  all_goals
    rename_i hk
    rw [hk] at h
    cases h

/-- Where no character is stray, nothing is taken together. -/
theorem coalesce_of_ne_garbage {ls : List Lexeme} (h : ∀ l ∈ ls, l.kind ≠ .garbage) : coalesce ls = ls := by
  induction ls with
  | nil => rfl
  | cons l ls ih =>
    rw [coalesce, ih fun m hm => h m (List.mem_cons_of_mem _ hm)]
    cases ls with
    | nil => rfl
    | cons m ls => simp [h l List.mem_cons_self]

/-- The pieces are the lexemes of the text they spell out, and nothing is wrong with them after a piece of kind `previous`. -/
def Severable : Option Kind → List (Kind × Text) → Prop
  | _, [] => True
  | previous, (k, t) :: ps =>
    Cut k t (spelled ps) ∧ isSimple k = true ∧ (k = .integer → integerFits previous t = true) ∧ Severable (some k) ps

/-- The lexemes of pieces. -/
def ofPieces (ps : List (Kind × Text)) : List Lexeme := ps.map fun x => ⟨x.1, x.2⟩

theorem split_spelled {ps : List (Kind × Text)} {previous : Option Kind} (h : Severable previous ps) :
    split (spelled ps) = ofPieces ps := by
  induction ps generalizing previous with
  | nil => rw [spelled_nil, split]; rfl
  | cons x ps ih =>
    obtain ⟨hcut, -, -, hrest⟩ := h
    rw [spelled_cons, split_of_cut hcut, ih hrest]
    rfl

theorem isSimple_of_mem {ps : List (Kind × Text)} {previous : Option Kind} (h : Severable previous ps) {l : Lexeme}
    (hl : l ∈ ofPieces ps) : isSimple l.kind = true := by
  induction ps generalizing previous with
  | nil => cases hl
  | cons x ps ih =>
    obtain ⟨-, hsimple, -, hrest⟩ := h
    rcases List.mem_cons.mp hl with rfl | hl
    · exact hsimple
    · exact ih hrest hl

theorem problemsOf_eq_nil {ps : List (Kind × Text)} {checkPatterns : Bool} {offset : Nat} {previous : Option Kind}
    (h : Severable previous ps) : problemsOf checkPatterns offset previous (ofPieces ps) = [] := by
  induction ps generalizing previous offset with
  | nil => rfl
  | cons x ps ih =>
    obtain ⟨-, hsimple, hfits, hrest⟩ := h
    rw [ofPieces, List.map_cons, problemsOf, problems_of_isSimple hsimple hfits, List.nil_append]
    exact ih hrest

theorem flatMap_pieces_ofPieces {ps : List (Kind × Text)} (h : ∀ l ∈ ofPieces ps, isSimple l.kind = true) :
    (ofPieces ps).flatMap pieces = ps := by
  induction ps with
  | nil => rfl
  | cons x ps ih =>
    rw [ofPieces, List.map_cons, List.flatMap_cons, pieces_of_isSimple (h _ List.mem_cons_self)]
    exact congrArg (x :: ·) (ih fun l hl => h l (List.mem_cons_of_mem _ hl))

end Lexeme

open Lexeme (Severable Cut)

/-- Scanning gives the pieces back, and finds nothing wrong. -/
theorem scan_spelled {ps : List (Kind × Text)} (h : Severable none ps) (checkPatterns : Bool) :
    (scan (spelled ps) checkPatterns).tokens = Token.place 0 none ps ∧ (scan (spelled ps) checkPatterns).diagnostics = [] := by
  have hsimple : ∀ l ∈ Lexeme.ofPieces ps, Lexeme.isSimple l.kind = true := fun l hl => Lexeme.isSimple_of_mem h hl
  have hlexemes : Lexeme.ofText (spelled ps) = Lexeme.ofPieces ps := by
    rw [Lexeme.ofText, Lexeme.split_spelled h]
    refine Lexeme.coalesce_of_ne_garbage fun l hl hk => ?_
    have hl := hsimple l hl
    rw [hk] at hl
    cases hl
  simp only [scan, hlexemes, Lexeme.flatMap_pieces_ofPieces hsimple, Lexeme.problemsOf_eq_nil h, and_self]

/-! ## Phrases -/

namespace Phrase

/-- Pieces that are severable after anything, and whose text begins with a character that passes a test. -/
structure Ready (f : Char → Bool) (ps : List (Kind × Text)) : Prop where
  severable (previous : Option Kind) : Severable previous ps
  first : ∀ c ∈ (spelled ps).head?, f c = true

/-- What may come after a phrase. -/
def closes (c : Char) : Bool := [' ', ',', ')', ']'].contains c

/-- What may come after a segment of a path. -/
def joins (c : Char) : Bool := closes c || c == '.' || c == '['

/-- What a phrase may begin with. -/
def opens (c : Char) : Bool := Lexeme.isNameStart c || c.isDigit || ['-', '.', '%', '(', '[', '!'].contains c

/-- What may come after a phrase: after one that a path can start from, also the first segment. -/
def follows (e : Phrase) (c : Char) : Bool := if e.isRoot then joins c else closes c

/-- Any character. -/
def anything (_ : Char) : Bool := true

namespace Ready

variable {f g : Char → Bool} {k : Kind} {c : Char} {t : Text} {qs : List (Kind × Text)}

theorem imp (h : Ready f qs) (hfg : ∀ c, f c = true → g c = true) : Ready g qs :=
  ⟨h.severable, fun c hc => hfg c (h.first c hc)⟩

theorem nil : Ready f [] := ⟨fun _ => trivial, fun _ hc => by cases hc⟩

theorem cons (h : Ready g qs) (hcut : Cut k (c :: t) (spelled qs)) (hsimple : Lexeme.isSimple k = true) (hk : k ≠ .integer)
    (hf : f c = true) : Ready f ((k, c :: t) :: qs) := by
  refine ⟨fun _ => ⟨hcut, hsimple, fun h => absurd h hk, h.severable _⟩, fun d hd => ?_⟩
  rw [spelled_cons] at hd
  cases hd
  exact hf

/-- A mark of one character, before a text that begins with a character that passes a test. -/
theorem mark (h : Ready g qs) (hclassify : ∀ rest : Text, (∀ d ∈ rest.head?, g d = true) → Lexeme.classify c rest = (k, 0))
    (hsimple : Lexeme.isSimple k = true) (hk : k ≠ .integer) (hf : f c = true) : Ready f ((k, [c]) :: qs) :=
  h.cons ⟨c, [], rfl, hclassify _ h.first⟩ hsimple hk hf

end Ready

theorem joins_of_closes {c : Char} (h : closes c = true) : joins c = true := by rw [joins, h]; rfl

theorem follows_of_closes (e : Phrase) {c : Char} (h : closes c = true) : e.follows c = true := by
  unfold follows
  split
  · exact joins_of_closes h
  · exact h

/-- No name goes on with what may come after a segment. -/
theorem isFieldPart_of_joins {c : Char} (h : joins c = true) : Lexeme.isFieldPart c = false ∧ c ≠ '\'' := by
  simp only [joins, closes, List.contains_cons, List.contains_nil, Bool.or_false, Bool.or_eq_true, beq_iff_eq] at h
  rcases h with ((rfl | rfl | rfl | rfl) | rfl) | rfl <;> decide

/-- No number goes on with what may come after a phrase. -/
theorem isNumberPart_of_closes {c : Char} (h : closes c = true) : Lexeme.isNumberPart c = false ∧ c ≠ '.' := by
  simp only [closes, List.contains_cons, List.contains_nil, Bool.or_false, Bool.or_eq_true, beq_iff_eq] at h
  rcases h with rfl | rfl | rfl | rfl <;> decide

theorem ne_of_opens {c d : Char} (h : opens c = true) (hd : opens d = false) : c ≠ d := by
  rintro rfl
  cases h.symm.trans hd

theorem isSpace_of_opens {c : Char} (h : opens c = true) : Lexeme.isSpace c = false := by
  simp [Lexeme.isSpace, ne_of_opens h (show opens ' ' = false by decide), ne_of_opens h (show opens '\t' = false by decide),
    ne_of_opens h (show opens '\r' = false by decide), ne_of_opens h (show opens '\x0c' = false by decide)]

/-- A blank ends before what is no blank. -/
theorem ready_blank {f : Char → Bool} {qs : List (Kind × Text)} (h : Ready f qs) (hf : ∀ c, f c = true → Lexeme.isSpace c = false) :
    Ready closes (blank :: qs) := by
  refine h.cons ⟨' ', [], rfl, ?_⟩ rfl (by decide) rfl
  have hrun : Lexeme.run Lexeme.isSpace ([] ++ spelled qs) = 0 :=
    Lexeme.run_append rfl fun c hc => hf c (h.first c hc)
  show (Kind.whitespace, Lexeme.run Lexeme.isSpace ([] ++ spelled qs)) = _
  rw [hrun]
  rfl

/-- An operator ends before a blank, and no operator begins with one. -/
theorem ready_operator (op : BinaryOperator) {f : Char → Bool} {qs : List (Kind × Text)} (h : Ready f (blank :: qs)) :
    Ready (fun c => !Lexeme.isSpace c) (operatorPiece op :: blank :: qs) := by
  cases op <;> exact h.cons ⟨_, _, rfl, rfl⟩ rfl (by decide) rfl

/-- A `!` stands alone before anything but `=`. -/
theorem classify_bang {rest : Text} (h : ∀ d ∈ rest.head?, d ≠ '=') : Lexeme.classify '!' rest = (.bang, 0) := by
  show Lexeme.mark '!' rest = (.bang, 0)
  cases rest with
  | nil => rfl
  | cons d rest => simp [Lexeme.mark, h d rfl]

/-- A name of a variable ends before what may come after a segment, and before the `!` and the arguments of a call. -/
theorem ready_name {name : Text} {f : Char → Bool} {qs : List (Kind × Text)} (hname : isName name = true) (h : Ready f qs)
    (hf : ∀ c, f c = true → Lexeme.isFieldPart c = false ∧ c ≠ '\'') : Ready opens ((.id, name) :: qs) := by
  cases name with
  | nil => cases hname
  | cons c t =>
    simp only [isName, Bool.and_eq_true, beq_iff_eq] at hname
    obtain ⟨⟨hc, ht⟩, hkind⟩ := hname
    refine h.cons ?_ rfl (by decide) (by simp [opens, hc])
    rw [← hkind]
    exact Lexeme.cut_word hc ht fun d hd => hf d (h.first d hd)

/-- A field name ends before what may come after a segment. -/
theorem ready_field {name : Text} {qs : List (Kind × Text)} (hname : isField name = true) (h : Ready joins qs) :
    Ready anything (namePiece name :: qs) := by
  cases name with
  | nil => cases hname
  | cons c t =>
    simp only [isField, Bool.and_eq_true] at hname
    obtain ⟨hc, ht⟩ := hname
    have hend : ∀ d ∈ (spelled qs).head?, Lexeme.isFieldPart d = false ∧ d ≠ '\'' := fun d hd => isFieldPart_of_joins (h.first d hd)
    by_cases hat : (c :: t).contains '@' = true
    · have hkind : fieldKind (c :: t) = .pathField := if_pos hat
      rw [namePiece, hkind]
      exact h.cons (Lexeme.cut_pathField hc ht hat fun d hd => (hend d hd).1) rfl (by decide) rfl
    · have hkind : fieldKind (c :: t) = Lexeme.wordKind (c :: t) := if_neg hat
      have hne : ∀ d ∈ c :: t, d ≠ '@' := fun d hd hat' => hat (List.contains_iff_mem.mpr (hat' ▸ hd))
      have hstart : Lexeme.isNameStart c = true := by simpa [hne c List.mem_cons_self] using hc
      have hparts : t.all Lexeme.isNamePart = true := by
        refine List.all_eq_true.mpr fun d hd => ?_
        simpa [Lexeme.isFieldPart, hne d (List.mem_cons_of_mem _ hd)] using List.all_eq_true.mp ht d hd
      rw [namePiece, hkind]
      have hall : ∀ k ∈ Lexeme.wordKinds, Lexeme.isSimple k = true ∧ k ≠ .integer := by decide
      obtain ⟨hsimple, hinteger⟩ := hall _ (Lexeme.wordKind_mem (c :: t))
      exact h.cons (Lexeme.cut_word hstart hparts hend) hsimple hinteger rfl

/-- An integer of 64 bits ends before what may come after a phrase. -/
theorem ready_integer {i : Int} {qs : List (Kind × Text)} (hi : Fits i) (h : Ready closes qs) :
    Ready opens (integerPieces i ++ qs) := by
  obtain ⟨hlow, hhigh⟩ := hi
  have hcut : Cut .integer (Nat.toDigits 10 i.natAbs) (spelled qs) :=
    Lexeme.cut_integer _ fun d hd => isNumberPart_of_closes (h.first d hd)
  have hmagnitude : Literal.magnitude? (Nat.toDigits 10 i.natAbs) = some i.natAbs :=
    Lexeme.magnitude?_toDigits (by unfold Literal.maxMagnitude; omega)
  obtain ⟨c, u, hds, hc, -, -⟩ := Lexeme.toDigits_spec i.natAbs
  have hopens : opens c = true := by simp [opens, hc]
  by_cases hneg : i < 0
  · rw [integerPieces, if_pos hneg]
    have hfits : Lexeme.integerFits (some .minus) (Nat.toDigits 10 i.natAbs) = true := by
      simp [Lexeme.integerFits, hmagnitude]
    have hminus : Cut .minus ['-'] (spelled ((.integer, Nat.toDigits 10 i.natAbs) :: qs)) := by
      refine ⟨'-', [], rfl, ?_⟩
      have hne : c ≠ '>' := by
        rintro rfl
        cases hc
      rw [spelled_cons, hds]
      show Lexeme.mark '-' (c :: (u ++ spelled qs)) = (.minus, 0)
      simp [Lexeme.mark, hne]
    refine ⟨fun _ => ⟨hminus, rfl, fun hk => absurd hk (by decide), hcut, rfl, fun _ => hfits, h.severable _⟩, fun d hd => ?_⟩
    cases hd
    rfl
  · rw [integerPieces, if_neg hneg]
    have hfits (previous : Option Kind) : Lexeme.integerFits previous (Nat.toDigits 10 i.natAbs) = true := by
      have hlt : i.natAbs < Literal.maxMagnitude := by unfold Literal.maxMagnitude; omega
      simp [Lexeme.integerFits, hmagnitude, hlt]
    refine ⟨fun previous => ⟨hcut, rfl, fun _ => hfits previous, h.severable _⟩, fun d hd => ?_⟩
    rw [List.nil_append, List.singleton_append, spelled_cons, hds] at hd
    cases hd
    exact hopens

/-- A segment ends before what may come after it, and begins as what may come after one. -/
theorem ready_segment {x : Segment} {qs : List (Kind × Text)} (hx : Plain x) (h : Ready joins qs) :
    Ready joins (segmentPieces x ++ qs) := by
  cases hx with
  | field hname => exact (ready_field hname h).mark (fun rest _ => by cases rest <;> rfl) rfl (by decide) rfl
  | index hi =>
    have hclose : Ready closes ((.bracketClose, [']']) :: qs) := h.mark (fun rest _ => by cases rest <;> rfl) rfl (by decide) rfl
    have hopen := ready_integer hi hclose
    rw [segmentPieces, Option.getD_some, List.cons_append, List.append_assoc]
    exact hopen.mark (fun rest _ => by cases rest <;> rfl) rfl (by decide) rfl

theorem ready_segments {path : List Segment} {qs : List (Kind × Text)} (hpath : ∀ x ∈ path, Plain x) (h : Ready joins qs) :
    Ready joins (path.flatMap segmentPieces ++ qs) := by
  induction path with
  | nil => exact h
  | cons x path ih =>
    rw [List.flatMap_cons, List.append_assoc]
    exact ready_segment (hpath x List.mem_cons_self) (ih fun y hy => hpath y (List.mem_cons_of_mem _ hy))

/-- The path after the root of an event or of its metadata. -/
theorem ready_path {path : List Segment} {qs : List (Kind × Text)} (hpath : ∀ x ∈ path, Plain x) (h : Ready joins qs) :
    Ready anything (pathPieces path ++ qs) := by
  have hall := ready_segments hpath h
  unfold pathPieces
  split
  · rename_i name quoted rest
    have hfield := hpath _ List.mem_cons_self
    cases hfield with
    | field hname => exact ready_field hname (ready_segments (fun y hy => hpath y (List.mem_cons_of_mem _ hy)) h)
  · exact hall.imp fun _ _ => rfl

/-- The items of a list after the first, before what closes it. -/
theorem ready_morePieces {es : List Phrase} {qs : List (Kind × Text)}
    (hes : ∀ e ∈ es, ∀ qs, Ready closes qs → Ready opens (e.pieces ++ qs)) (h : Ready closes qs) :
    Ready closes (morePieces es ++ qs) := by
  induction es with
  | nil => exact h
  | cons e es ih =>
    have hmore := hes e List.mem_cons_self _ (ih fun d hd => hes d (List.mem_cons_of_mem _ hd))
    rw [morePieces, List.cons_append, List.cons_append, List.append_assoc]
    exact (ready_blank hmore fun c => isSpace_of_opens).mark (fun rest _ => by cases rest <;> rfl) rfl (by decide) rfl

/-- The items of a list, before what closes it. -/
theorem ready_piecesOf {es : List Phrase} {qs : List (Kind × Text)}
    (hes : ∀ e ∈ es, ∀ qs, Ready closes qs → Ready opens (e.pieces ++ qs)) (h : Ready closes qs) :
    Ready anything (piecesOf es ++ qs) := by
  cases es with
  | nil => exact h.imp fun _ _ => rfl
  | cons e es =>
    rw [piecesOf, List.append_assoc]
    exact (hes e List.mem_cons_self _ (ready_morePieces (fun d hd => hes d (List.mem_cons_of_mem _ hd)) h)).imp fun _ _ => rfl

/-- A proper phrase ends before what may come after it, and begins as a phrase may begin. -/
theorem ready_pieces {e : Phrase} (he : e.Proper) {qs : List (Kind × Text)} (h : Ready e.follows qs) :
    Ready opens (e.pieces ++ qs) := by
  induction he generalizing qs with
  | ident hname => exact ready_name hname h fun c => isFieldPart_of_joins
  | integer hi => exact ready_integer hi h
  | boolean value =>
    have hend : ∀ d ∈ (spelled qs).head?, Lexeme.isFieldPart d = false ∧ d ≠ '\'' := fun d hd =>
      isFieldPart_of_joins (joins_of_closes (h.first d hd))
    cases value with
    | true => exact h.cons (Lexeme.cut_word rfl rfl hend) rfl (by decide) rfl
    | false => exact h.cons (Lexeme.cut_word rfl rfl hend) rfl (by decide) rfl
  | null =>
    exact h.cons (Lexeme.cut_word rfl rfl fun d hd => isFieldPart_of_joins (joins_of_closes (h.first d hd))) rfl (by decide) rfl
  | event hpath | metadata hpath =>
    have hjoins : Ready joins qs := h.imp fun c => joins_of_closes
    exact (ready_path hpath hjoins).mark (fun rest _ => by cases rest <;> rfl) rfl (by decide) rfl
  | @internal root path hroot hr hne hpath ih =>
    have hsegments := ready_segments hpath (h.imp fun c => joins_of_closes)
    rw [pieces, List.append_assoc]
    refine ih (hsegments.imp fun c hc => ?_)
    rwa [follows, if_pos hr]
  | @group inner hinner ih =>
    have hclose : Ready closes ((.parenClose, [')']) :: qs) := h.mark (fun rest _ => by cases rest <;> rfl) rfl (by decide) rfl
    rw [pieces, List.cons_append, List.append_assoc]
    exact (ih (hclose.imp fun c => inner.follows_of_closes)).mark (fun rest _ => by cases rest <;> rfl) rfl (by decide) rfl
  | array helements ih =>
    have hclose : Ready closes ((.bracketClose, [']']) :: qs) := h.mark (fun rest _ => by cases rest <;> rfl) rfl (by decide) rfl
    rw [pieces, List.cons_append, List.append_assoc]
    exact (ready_piecesOf (fun e he qs hqs => ih e he (hqs.imp fun c => e.follows_of_closes)) hclose).mark
      (fun rest _ => by cases rest <;> rfl) rfl (by decide) rfl
  | @call name fallible arguments hname harguments ih =>
    have hclose : Ready closes ((.parenClose, [')']) :: qs) := h.mark (fun rest _ => by cases rest <;> rfl) rfl (by decide) rfl
    have hitems := ready_piecesOf (fun e he qs hqs => ih e he (hqs.imp fun c => e.follows_of_closes)) hclose
    have hlist : Ready (· == '(') ((.parenOpen, ['(']) :: (piecesOf arguments ++ (.parenClose, [')']) :: qs)) :=
      hitems.mark (fun rest _ => by cases rest <;> rfl) rfl (by decide) rfl
    simp only [pieces, List.cons_append, List.append_assoc, List.nil_append]
    cases fallible with
    | false => exact ready_name hname hlist fun c hc => by cases eq_of_beq hc; decide
    | true =>
      have hbang : Ready (· == '!') ((.bang, ['!']) :: (.parenOpen, ['(']) :: (piecesOf arguments ++ (.parenClose, [')']) :: qs)) :=
        hlist.mark (fun rest hrest => classify_bang fun d hd => by cases eq_of_beq (hrest d hd); decide) rfl (by decide) rfl
      exact ready_name hname hbang fun c hc => by cases eq_of_beq hc; decide
  | @negation operand hoperand hop ih =>
    have hoperand := ih (h.imp fun c => operand.follows_of_closes)
    exact hoperand.mark (fun rest hrest => classify_bang fun d hd => ne_of_opens (hrest d hd) (by decide)) rfl (by decide) rfl
  | @binary op lhs rhs hl hr hleft hright ihl ihr =>
    have hright := ready_blank (ihr (h.imp fun c => rhs.follows_of_closes)) fun c => isSpace_of_opens
    have hoperator := ready_blank (ready_operator op hright) fun c hc => by simpa using hc
    simp only [pieces, List.append_assoc, List.cons_append]
    exact ihl (hoperator.imp fun c => lhs.follows_of_closes)

/-- The pieces of a proper phrase are the lexemes of its text. -/
theorem severable_pieces {e : Phrase} (he : e.Proper) : Severable none e.pieces := by
  have h : Ready opens (e.pieces ++ []) := ready_pieces he .nil
  rw [List.append_nil] at h
  exact h.severable none

end Phrase

end Remap
