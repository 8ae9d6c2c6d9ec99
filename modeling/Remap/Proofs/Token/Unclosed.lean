import Remap.Proofs.Scanning
import Remap.Proofs.Token.LineEnds
import Remap.Proofs.Token.Quoted

/-!
# Literals that are not closed

The text behind an opening mark is read in pairs from the left: a backslash goes with the character behind it, and every other
character stands alone. A literal is closed by the first mark that stands alone, unless its line ends before. Where it is not closed
it takes the rest of its line, and that is reported at the lexeme, and nowhere else.

What is left of a text behind some of its lexemes is cut into the others as if it stood alone. So what a lexeme is can be told from the
text that begins with it.
-/

namespace Remap

/-- What is reported about a lexeme of a kind that lacks its closing mark. -/
def Kind.lack? : Kind → Option Problem
  | .unterminatedString => some .unterminatedString
  | .unterminatedRawString => some .unterminatedRawString
  | .unterminatedRegex => some .unterminatedRegex
  | .unterminatedTimestamp => some .unterminatedTimestamp
  | _ => none

/-- The problems of literals that are not closed. -/
def Problem.isUnclosed : Problem → Bool
  | .unterminatedString | .unterminatedRawString | .unterminatedRegex | .unterminatedTimestamp => true
  | _ => false

namespace Lexeme

/-! ## Reading in pairs -/

/-- A text read from the left: a backslash goes with the character behind it, every other character stands alone. -/
def units : Text → List Text
  | [] => []
  | '\\' :: c :: rest => ['\\', c] :: units rest
  | c :: rest => [c] :: units rest

theorem units_escape (c : Char) (t : Text) : units ('\\' :: c :: t) = ['\\', c] :: units t := by
  rw [units]

theorem units_cons {c : Char} (hc : c ≠ '\\') (t : Text) : units (c :: t) = [c] :: units t := by
  rw [units]
  exact fun _ _ h _ => hc h

/-- Among what is read of a text a mark stands alone, and nothing before it ends the literal. -/
def Closes (mark : Char) (ends : Text → Prop) (t : Text) : Prop :=
  ∃ us vs, units t = us ++ [mark] :: vs ∧ ∀ u ∈ us, ¬ ends u

/-- What ends a literal that is quoted in a certain way: a newline that stands alone, or one behind a backslash. -/
def Quoting.Breaks (q : Quoting) (u : Text) : Prop :=
  u = ['\n'] ∧ q.spansLines = false ∨ u = ['\\', '\n'] ∧ q.escapesNewline = false

variable {mark : Char} {ends : Text → Prop}

theorem not_closes_nil : ¬ Closes mark ends [] := by
  rintro ⟨us, vs, h, -⟩
  cases us <;> cases h

/-- A first unit that is not the mark must not end the literal. -/
theorem closes_of_units {t rest u : Text} (hu : units t = u :: units rest) (hne : u ≠ [mark]) :
    Closes mark ends t ↔ ¬ ends u ∧ Closes mark ends rest := by
  unfold Closes
  rw [hu]
  constructor
  · rintro ⟨us, vs, h, hus⟩
    cases us with
    | nil => exact absurd (List.cons.inj h).1 hne
    | cons v us =>
      obtain ⟨rfl, hrest⟩ := List.cons.inj h
      exact ⟨hus _ List.mem_cons_self, us, vs, hrest, fun w hw => hus w (List.mem_cons_of_mem _ hw)⟩
  · rintro ⟨hends, us, vs, h, hus⟩
    refine ⟨u :: us, vs, by rw [h, List.cons_append], fun w hw => ?_⟩
    rcases List.mem_cons.mp hw with rfl | hw
    · exact hends
    · exact hus w hw

theorem closes_mark {c : Char} (hc : c ≠ '\\') (t : Text) : Closes c ends (c :: t) :=
  ⟨[], units t, units_cons hc t, fun _ hu => absurd hu List.not_mem_nil⟩

theorem Closes.congr {ends' : Text → Prop} {t : Text} (h : ∀ u ∈ units t, ends u ↔ ends' u) :
    Closes mark ends t ↔ Closes mark ends' t := by
  have hmem {us vs : List Text} (hsplit : units t = us ++ [mark] :: vs) {u : Text} (hu : u ∈ us) : u ∈ units t :=
    hsplit ▸ List.mem_append_left _ hu
  constructor
  · rintro ⟨us, vs, hsplit, hus⟩
    exact ⟨us, vs, hsplit, fun u hu hends => hus u hu ((h u (hmem hsplit hu)).mpr hends)⟩
  · rintro ⟨us, vs, hsplit, hus⟩
    exact ⟨us, vs, hsplit, fun u hu hends => hus u hu ((h u (hmem hsplit hu)).mp hends)⟩

/-- A unit is a character that stands alone, or a backslash with the character behind it. -/
theorem unit_cases {t u : Text} (h : u ∈ units t) : (∃ c, u = [c]) ∨ ∃ c, u = ['\\', c] := by
  induction t using escapes_induction with
  | nil => cases h
  | stray => exact .inl ⟨_, List.mem_singleton.mp h⟩
  | escape c t ih =>
    rw [units_escape] at h
    exact (List.mem_cons.mp h).elim (fun h => .inr ⟨c, h⟩) ih
  | plain c t hc ih =>
    rw [units_cons hc] at h
    exact (List.mem_cons.mp h).elim (fun h => .inl ⟨c, h⟩) ih

/-- A literal is closed exactly if a mark stands alone behind what opens it before its line ends. -/
theorem closing_eq_none_iff {q : Quoting} (hq : q.mark ≠ '\\') (t : Text) : closing q t = none ↔ ¬ Closes q.mark q.Breaks t := by
  induction t using escapes_induction with
  | nil => exact iff_of_true rfl not_closes_nil
  | stray =>
    have hnot : ['\\'] ≠ [q.mark] := fun h => hq (List.cons.inj h).1.symm
    refine iff_of_true ?_ fun h => not_closes_nil ((closes_of_units rfl hnot).mp h).2
    simp [closing, hq.symm]
  | escape c t ih =>
    have hbreaks : q.Breaks ['\\', c] ↔ (c = '\n' && !q.escapesNewline) = true := by simp [Quoting.Breaks]
    rw [closing_escape, closes_of_units (units_escape c t) (by simp), hbreaks]
    split <;> simp_all
  | plain c t hc ih =>
    rw [closing_cons q hc]
    by_cases hmark : c = q.mark
    · rw [if_pos hmark]
      exact iff_of_false (Option.some_ne_none _) fun h => h (hmark ▸ closes_mark hc t)
    · have hbreaks : q.Breaks [c] ↔ (c = '\n' && !q.spansLines) = true := by simp [Quoting.Breaks]
      rw [if_neg hmark, closes_of_units (units_cons hc t) (by simpa using hmark), hbreaks]
      split <;> simp_all

/-- The rest of the line holds no newline. -/
theorem newline_notMem_unclosed (mark : Char) (t : Text) : '\n' ∉ t.take (unclosed mark t) := by
  induction t using escapes_induction with
  | nil => exact List.not_mem_nil
  | stray => exact fun h => absurd (List.mem_singleton.mp (List.mem_of_mem_take h)) (by decide)
  | escape c t ih =>
    rw [unclosed_escape]
    split
    · simp
    · rename_i hc
      simp [Ne.symm hc, ih]
  | plain c t hc ih =>
    rw [unclosed_cons mark hc]
    split
    · simp
    · rename_i hend
      simp only [Bool.or_eq_true, decide_eq_true_eq, not_or] at hend
      simp [Ne.symm hend.1, ih]

/-! ## What opens a literal -/

/-- What opens a literal, with how it is quoted, its kinds where it is and is not closed, and the problem that is reported where it
is not. -/
inductive Opens : Text → Quoting → Kind → Kind → Problem → Prop where
  | string : Opens ['"'] .string .stringLiteral .unterminatedString .unterminatedString
  | rawString : Opens ['s', '\''] .raw .rawString .unterminatedRawString .unterminatedRawString
  | regex : Opens ['r', '\''] .raw .regex .unterminatedRegex .unterminatedRegex
  | timestamp : Opens ['t', '\''] .timestamp .timestamp .unterminatedTimestamp .unterminatedTimestamp

/-- The first lexeme of a text, unless it is stray, and what is left for the others. -/
theorem ofText_cons {c : Char} {rest : Text} (h : (classify c rest).1 ≠ .garbage) :
    ofText (c :: rest) = ⟨(classify c rest).1, c :: rest.take (classify c rest).2⟩ :: ofText (rest.drop (classify c rest).2) := by
  rw [ofText, split]
  exact coalesce_cons h _

namespace Opens

variable {o : Text} {q : Quoting} {a b : Kind} {p : Problem}

theorem regular (h : Opens o q a b p) : q.Regular := by
  cases h
  · exact .string
  · exact .raw
  · exact .raw
  · exact .timestamp

/-- The literal is the first lexeme. -/
theorem ofText_eq (h : Opens o q a b p) (body : Text) :
    ofText (o ++ body) =
      ⟨(literal q a b body).1, o ++ body.take (literal q a b body).2⟩ :: ofText (body.drop (literal q a b body).2) := by
  cases h with
  | string =>
    have hkind : (classify '"' body).1 ≠ .garbage := by
      rw [classify_string]
      rcases literal_fst .string .stringLiteral .unterminatedString body with hk | hk <;> rw [hk] <;> nofun
    exact ofText_cons hkind
  | rawString => exact Introduces.rawString.ofText_eq body
  | regex => exact Introduces.regex.ofText_eq body
  | timestamp => exact Introduces.timestamp.ofText_eq body

/-- The kind of the literal tells whether it is closed. -/
theorem lack?_literal (h : Opens o q a b p) (body : Text) : (literal q a b body).1.lack? = if closing q body = none then some p else none := by
  unfold literal
  cases closing q body with
  | none => cases h <;> rfl
  | some n => cases h <;> rfl

end Opens

/-- What lacks its closing mark begins with something that opens a literal. -/
theorem exists_opens {c : Char} {rest : Text} (h : (classify c rest).1.isUnclosed = true) :
    ∃ o q a b p body, Opens o q a b p ∧ c :: rest = o ++ body := by
  rcases quoted_of_isUnclosed h with rfl | ⟨body, rfl, rfl | rfl | rfl⟩
  · exact ⟨_, _, _, _, _, rest, .string, rfl⟩
  · exact ⟨_, _, _, _, _, body, .rawString, rfl⟩
  · exact ⟨_, _, _, _, _, body, .regex, rfl⟩
  · exact ⟨_, _, _, _, _, body, .timestamp, rfl⟩

/-! ## What is left behind some lexemes -/

theorem split_eq_append {t : Text} {us vs : List Lexeme} (h : split t = us ++ vs) :
    ∃ rest, t = us.flatMap text ++ rest ∧ split rest = vs := by
  induction us generalizing t with
  | nil => exact ⟨t, rfl, h⟩
  | cons u us ih =>
    cases t with
    | nil =>
      rw [split] at h
      cases h
    | cons c t =>
      rw [split] at h
      obtain ⟨rfl, hus⟩ := List.cons.inj h
      obtain ⟨rest, htext, hvs⟩ := ih hus
      refine ⟨rest, ?_, hvs⟩
      rw [List.flatMap_cons, List.append_assoc, ← htext, List.cons_append, List.take_append_drop]

/-- The first of some lexemes keeps its kind when stray characters are taken together. -/
theorem kind_of_coalesce {l m : Lexeme} {ls ms : List Lexeme} (h : coalesce (l :: ls) = m :: ms) : m.kind = l.kind := by
  rw [coalesce] at h
  split at h
  · split at h
    · rename_i hboth
      simp only [Bool.and_eq_true, decide_eq_true_eq] at hboth
      obtain ⟨rfl, -⟩ := List.cons.inj h
      exact hboth.1.symm
    · obtain ⟨rfl, -⟩ := List.cons.inj h
      rfl
  · obtain ⟨rfl, -⟩ := List.cons.inj h
    rfl

theorem coalesce_eq_append {ls xs ys : List Lexeme} (h : coalesce ls = xs ++ ys) :
    ∃ us vs, ls = us ++ vs ∧ us.flatMap text = xs.flatMap text ∧ coalesce vs = ys := by
  induction ls generalizing xs with
  | nil =>
    obtain ⟨rfl, rfl⟩ := List.append_eq_nil_iff.mp h.symm
    exact ⟨[], [], rfl, rfl, rfl⟩
  | cons l ls ih =>
    cases xs with
    | nil => exact ⟨[], l :: ls, rfl, rfl, h⟩
    | cons x xs =>
      -- what was taken together with the first lexeme is put before the others again
      have hstep (zs : List Lexeme) (hls : coalesce ls = zs ++ ys) (hx : x.text ++ xs.flatMap text = l.text ++ zs.flatMap text) :
          ∃ us vs, l :: ls = us ++ vs ∧ us.flatMap text = (x :: xs).flatMap text ∧ coalesce vs = ys := by
        obtain ⟨us, vs, rfl, htext, hvs⟩ := ih hls
        exact ⟨l :: us, vs, rfl, by rw [List.flatMap_cons, List.flatMap_cons, htext, hx], hvs⟩
      rw [coalesce] at h
      split at h
      · rename_i m more hls
        split at h
        · obtain ⟨rfl, rfl⟩ := List.cons.inj h
          exact hstep (m :: xs) hls (by simp)
        · obtain ⟨rfl, hxs⟩ := List.cons.inj h
          exact hstep xs (hls.trans hxs) rfl
      · rename_i hls
        obtain ⟨rfl, hxs⟩ := List.cons.inj h
        exact hstep xs (hls.trans hxs) rfl

/-- What is left of a text behind some of its lexemes is cut into the others. -/
theorem ofText_of_append {t : Text} {xs ys : List Lexeme} (h : ofText t = xs ++ ys) : ofText (ys.flatMap text) = ys := by
  obtain ⟨us, vs, hsplit, -, rfl⟩ := coalesce_eq_append h
  obtain ⟨rest, -, rfl⟩ := split_eq_append hsplit
  rw [← ofText, flatMap_text_ofText]

/-- Where a lexeme lacks its closing mark there is a literal that is not closed, and it takes the rest of its line. -/
theorem exists_of_isUnclosed {t : Text} {l : Lexeme} {xs ys : List Lexeme} (h : ofText t = xs ++ l :: ys) (hk : l.kind.isUnclosed = true) :
    ∃ o q a b p body, Opens o q a b p ∧ (l :: ys).flatMap text = o ++ body ∧ closing q body = none ∧
      l = ⟨b, o ++ body.take (unclosed q.mark body)⟩ := by
  have hrest := ofText_of_append h
  cases htext : (l :: ys).flatMap text with
  | nil =>
    rw [htext, ofText, split] at hrest
    cases hrest
  | cons c rest =>
    rw [htext] at hrest
    have hkind : l.kind = (classify c rest).1 := by
      rw [ofText, split] at hrest
      exact kind_of_coalesce hrest
    obtain ⟨o, q, a, b, p, body, hopens, hbody⟩ := exists_opens (hkind ▸ hk)
    rw [hbody, hopens.ofText_eq] at hrest
    obtain ⟨rfl, -⟩ := List.cons.inj hrest
    refine ⟨o, q, a, b, p, body, hopens, hbody, ?_⟩
    unfold literal at hk ⊢
    cases hclosing : closing q body with
    | none => exact ⟨rfl, rfl⟩
    | some n =>
      rw [hclosing] at hk
      cases hopens <;> cases hk

/-- The literal that is not closed is told by what opens it. -/
theorem Opens.isUnclosed_iff {o : Text} {q : Quoting} {a b : Kind} {p : Problem} (hopens : Opens o q a b p) {t body : Text} {xs ys : List Lexeme}
    (h : ofText t = xs ++ ys) (hys : ys.flatMap text = o ++ body) :
    (∃ l ∈ ys.head?, l.kind.lack? = some p) ↔ closing q body = none := by
  have hrest := ofText_of_append h
  rw [hys, hopens.ofText_eq] at hrest
  rw [← hrest]
  simp [hopens.lack?_literal]

/-! ## What is reported -/

/-- A lexeme is reported to lack its closing mark exactly if its kind says so. -/
theorem mem_problems_iff {l : Lexeme} {checkPatterns : Bool} {offset : Nat} {previous : Option Kind} {d : Diagnostic}
    (hd : d.problem.isUnclosed = true) :
    d ∈ l.problems checkPatterns offset previous ↔ ∃ p, l.kind.lack? = some p ∧ d = { problem := p, span := .ofSize offset l.text.bytes } := by
  have hfragments {offset : Nat} {fs : List Fragment} (h : d ∈ fragmentProblems offset fs) : False := by
    rcases problem_of_mem_fragmentProblems h with h | h <;> rw [h] at hd <;> cases hd
  have htimestamp {offset : Nat} {t : Text} (h : d ∈ timestampProblems offset t) : False := by
    rw [problem_of_mem_timestampProblems h] at hd
    cases hd
  have hother {e : Diagnostic} (he : e.problem.isUnclosed = false) (h : d = e) : False := by
    rw [h, he] at hd
    cases hd
  unfold problems
  split
  case h_1 hk | h_8 hk => exact ⟨fun h => (hother rfl (List.mem_singleton.mp h)).elim, by simp [hk, Kind.lack?]⟩
  case h_2 hk => exact ⟨fun h => (hfragments h).elim, by simp [hk, Kind.lack?]⟩
  case h_3 hk =>
    simp only [hk, Kind.lack?, Option.some.injEq, exists_eq_left', List.mem_cons]
    exact or_iff_left hfragments
  case h_4 hk | h_5 hk | h_6 hk => simp [hk, Kind.lack?]
  case h_7 hk => exact ⟨fun h => (htimestamp h).elim, by simp [hk, Kind.lack?]⟩
  case h_9 hk =>
    refine ⟨fun h => ?_, by simp [hk, Kind.lack?]⟩
    split at h
    · cases h
    · exact (hother rfl (List.mem_singleton.mp h)).elim
  case h_10 hk =>
    refine ⟨fun h => ?_, by simp [hk, Kind.lack?]⟩
    split at h
    · split at h
      · cases h
      · exact (hother rfl (List.mem_singleton.mp h)).elim
    · cases h
  case h_11 =>
    refine ⟨fun h => absurd h List.not_mem_nil, ?_⟩
    rintro ⟨p, hp, -⟩
    unfold Kind.lack? at hp
    split at hp <;> contradiction

/-- Literals are reported to lack their closing marks where they stand. -/
theorem mem_problemsOf_iff {ls : List Lexeme} {checkPatterns : Bool} {offset : Nat} {previous : Option Kind} {d : Diagnostic}
    (hd : d.problem.isUnclosed = true) :
    d ∈ problemsOf checkPatterns offset previous ls ↔
      ∃ xs l ys p, ls = xs ++ l :: ys ∧ l.kind.lack? = some p ∧
        d = { problem := p, span := .ofSize (offset + Text.bytes (xs.flatMap text)) l.text.bytes } := by
  induction ls generalizing offset previous with
  | nil => simp [problemsOf]
  | cons m ls ih =>
    rw [problemsOf, List.mem_append, mem_problems_iff hd, ih]
    constructor
    · rintro (⟨p, hp, rfl⟩ | ⟨xs, l, ys, p, rfl, hp, rfl⟩)
      · exact ⟨[], m, ls, p, rfl, hp, rfl⟩
      · exact ⟨m :: xs, l, ys, p, rfl, hp, by rw [List.flatMap_cons, Text.bytes_append, Nat.add_assoc]⟩
    · rintro ⟨xs, l, ys, p, hls, hp, rfl⟩
      cases xs with
      | nil =>
        obtain ⟨rfl, rfl⟩ := List.cons.inj hls
        exact .inl ⟨p, hp, rfl⟩
      | cons x xs =>
        obtain ⟨rfl, rfl⟩ := List.cons.inj hls
        exact .inr ⟨xs, l, ys, p, rfl, hp, by rw [List.flatMap_cons, Text.bytes_append, Nat.add_assoc]⟩

/-- Where some lexemes of a text end tells how many they are. -/
theorem eq_of_bytes {ls xs ms ys : List Lexeme} (hne : ∀ l ∈ ls ++ ms, l.text ≠ []) (h : ls ++ ms = xs ++ ys)
    (hbytes : Text.bytes (ls.flatMap text) = Text.bytes (xs.flatMap text)) : ls = xs := by
  induction ls generalizing xs with
  | nil =>
    cases xs with
    | nil => rfl
    | cons x xs =>
      have hx := Text.bytes_pos (hne x (by rw [h]; exact List.mem_cons_self))
      simp only [List.flatMap_nil, List.flatMap_cons, Text.bytes_nil, Text.bytes_append] at hbytes
      omega
  | cons l ls ih =>
    cases xs with
    | nil =>
      have hl := Text.bytes_pos (hne l List.mem_cons_self)
      simp only [List.flatMap_nil, List.flatMap_cons, Text.bytes_nil, Text.bytes_append] at hbytes
      omega
    | cons x xs =>
      obtain ⟨rfl, hrest⟩ := List.cons.inj h
      simp only [List.flatMap_cons, Text.bytes_append, Nat.add_left_cancel_iff] at hbytes
      rw [ih (fun m hm => hne m (List.mem_cons_of_mem _ hm)) hrest hbytes]

end Lexeme

/-! ## Scanning -/

open Lexeme

/-- Every literal that is reported not to be closed stands in the source, holds no newline and is followed by one or by nothing. -/
theorem exists_of_unclosed {source : Text} {checkPatterns : Bool} {d : Diagnostic} (h : d ∈ (scan source checkPatterns).diagnostics)
    (hd : d.problem.isUnclosed = true) :
    ∃ before text after, source = before ++ (text ++ after) ∧ d.span = .ofSize before.bytes text.bytes ∧ '\n' ∉ text ∧
      (after = [] ∨ ∃ rest, after = '\n' :: rest) := by
  obtain ⟨xs, l, ys, p, hls, hp, rfl⟩ := (mem_problemsOf_iff hd).mp h
  have hk : l.kind.isUnclosed = true := by
    unfold Kind.lack? at hp
    split at hp
    case h_5 => cases hp
    all_goals rename_i hk; rw [hk]; rfl
  obtain ⟨o, q, a, b, p', body, hopens, hbody, hopen, rfl⟩ := exists_of_isUnclosed hls hk
  have hlength : (body.take (unclosed q.mark body)).length = unclosed q.mark body := List.length_take_of_le (unclosed_le _ _)
  refine ⟨xs.flatMap text, o ++ body.take (unclosed q.mark body), body.drop (unclosed q.mark body), ?_, by rw [Nat.zero_add], ?_, ?_⟩
  · rw [List.append_assoc, List.take_append_drop, ← hbody, ← List.flatMap_append, ← hls, flatMap_text_ofText]
  · have ho : '\n' ∉ o := by cases hopens <;> decide
    rw [List.mem_append, not_or]
    exact ⟨ho, newline_notMem_unclosed _ _⟩
  · exact unclosed_end hopens.regular (v := body.take (unclosed q.mark body)) (by rw [List.take_append_drop]; exact hopen)
      (by rw [List.take_append_drop, hlength])

/-- A literal is reported not to be closed exactly if it is not. -/
theorem reported_iff {source : Text} (checkPatterns : Bool) {ls ms : List Lexeme} {o body : Text} {q : Quoting} {a b : Kind} {p : Problem}
    (hopens : Opens o q a b p) (h : Lexeme.ofText source = ls ++ ms) (hms : ms.flatMap text = o ++ body) :
    (∃ d ∈ (scan source checkPatterns).diagnostics, d.problem = p ∧ d.span.start = Text.bytes (ls.flatMap text)) ↔ closing q body = none := by
  have hp : p.isUnclosed = true := by cases hopens <;> rfl
  rw [← hopens.isUnclosed_iff h hms]
  constructor
  · rintro ⟨d, hd, rfl, hstart⟩
    obtain ⟨xs, l, ys, p', hls, hlack, heq⟩ := (mem_problemsOf_iff hp).mp hd
    have hfirst : ls = xs := by
      refine eq_of_bytes (fun m hm => (fit_of_mem_ofText (h ▸ hm)).text_ne_nil) (h.symm.trans hls) ?_
      rw [heq] at hstart
      simpa [Span.ofSize] using hstart.symm
    subst hfirst
    obtain rfl := List.append_cancel_left (h.symm.trans hls)
    exact ⟨l, rfl, by rw [hlack, heq]⟩
  · rintro ⟨l, hl, hlack⟩
    obtain ⟨ys, rfl⟩ := List.head?_eq_some_iff.mp hl
    refine ⟨_, (mem_problemsOf_iff hp).mpr ⟨ls, l, ys, p, h, hlack, rfl⟩, rfl, Nat.zero_add _⟩

end Remap
