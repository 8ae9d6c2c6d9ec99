import Mathlib.Data.List.Chain
import Mathlib.Data.List.TakeWhile
import Remap.Expr
import Remap.Proofs.Token.Join

/-!
# Scanning strings that were written

Fragments that are written one after another are cut apart again where each of them can be told by its own text
(`Fragment.Written`): plain characters that mean nothing else, known escapes, and templates. Between double quotes such fragments
are one string, with which nothing is wrong.

The texts and templates a string stands for are written with fragments of this kind, and the fragments stand for them.
-/

namespace Remap

namespace Fragment

/-- The fragments that are told by their own text, whatever comes after them. -/
inductive Written : Fragment → Prop
  | plain {c : Char} (hslash : c ≠ '\\') (hquote : c ≠ '"') (hnewline : c ≠ '\n') (hbrace : c ≠ '\x7b') : Written (.plain c)
  | escape {c : Char} (hc : Literal.isEscape c = true) : Written (.escape (some c))
  | template {lead name trail : Text} (hlead : lead.all isPad = true) (hstart : name.head?.any Lexeme.isNameStart = true)
      (hname : name.all Lexeme.isNamePart = true) (htrail : trail.all isPad = true) : Written (.template lead name trail)

/-! ## Cutting fragments apart -/

/-- The longest beginning of which every character passes a test ends where the first comes that does not. -/
theorem span_append {p : Char → Bool} {t : Text} (rest : Text) (ht : t.all p = true) (hrest : ∀ c ∈ rest.head?, p c = false) :
    (t ++ rest).takeWhile p = t ∧ (t ++ rest).dropWhile p = rest := by
  have hall := List.all_eq_true.mp ht
  cases rest with
  | nil =>
    rw [List.append_nil]
    exact ⟨List.takeWhile_eq_self_iff.mpr hall, List.dropWhile_eq_nil_iff.mpr hall⟩
  | cons c rest =>
    have hc : ¬ p c = true := by simp [hrest c rfl]
    rw [List.takeWhile_append_of_pos hall, List.dropWhile_append_of_pos hall, List.takeWhile_cons_of_neg hc,
      List.dropWhile_cons_of_neg hc, List.append_nil]
    exact ⟨rfl, rfl⟩

theorem isPad_eq_false {c : Char} (h : Lexeme.isNameStart c = true) : isPad c = false := by
  refine Bool.eq_false_iff.mpr fun hc => ?_
  simp only [isPad, Bool.or_eq_true, decide_eq_true_eq] at hc
  rcases hc with rfl | rfl <;> cases h

theorem isNamePart_eq_false {c : Char} (h : isPad c = true) : Lexeme.isNamePart c = false := by
  simp only [isPad, Bool.or_eq_true, decide_eq_true_eq] at h
  rcases h with rfl | rfl <;> rfl

/-- A name between two pairs of braces is a template. -/
theorem template?_append {lead name trail : Text} (hlead : lead.all isPad = true) (hstart : name.head?.any Lexeme.isNameStart = true)
    (hname : name.all Lexeme.isNamePart = true) (htrail : trail.all isPad = true) (rest : Text) :
    template? (lead ++ (name ++ (trail ++ '\x7d' :: '\x7d' :: rest))) = some (.template lead name trail) := by
  obtain ⟨c, more, rfl⟩ : ∃ c more, name = c :: more := by
    cases name with
    | nil => cases hstart
    | cons c more => exact ⟨c, more, rfl⟩
  obtain ⟨hlead₁, hlead₂⟩ := span_append (c :: more ++ (trail ++ '\x7d' :: '\x7d' :: rest)) hlead fun d hd => by
    cases hd
    exact isPad_eq_false hstart
  obtain ⟨hname₁, hname₂⟩ := span_append (trail ++ '\x7d' :: '\x7d' :: rest) hname fun d hd => by
    cases trail with
    | nil =>
      cases hd
      rfl
    | cons _ trail =>
      cases hd
      exact isNamePart_eq_false (List.all_eq_true.mp htrail d List.mem_cons_self)
  obtain ⟨htrail₁, htrail₂⟩ := span_append ('\x7d' :: '\x7d' :: rest) htrail fun d hd => by cases hd; rfl
  simp only [template?, hlead₁, hlead₂, hname₁, hname₂, htrail₁, htrail₂, hstart, Bool.true_and]
  rfl

namespace Written

variable {f : Fragment} {fs : List Fragment}

/-- A written fragment is the first one of every text it begins. -/
theorem first (h : f.Written) {c : Char} {u : Text} (htext : f.text = c :: u) (rest : Text) : Fragment.first c (u ++ rest) = f := by
  cases h with
  | plain hslash _ _ hbrace =>
    cases htext
    simp [Fragment.first, hslash, hbrace]
  | escape _ =>
    cases htext
    rfl
  | @template lead name trail hlead hstart hname htrail =>
    have htemplate := template?_append hlead hstart hname htrail rest
    have hrest : u ++ rest = '\x7b' :: (lead ++ (name ++ (trail ++ '\x7d' :: '\x7d' :: rest))) := by
      rw [← List.cons.inj htext |>.2]
      simp
    rw [← List.cons.inj htext |>.1, hrest, Fragment.first, if_neg (by decide), if_pos (by rfl)]
    exact congrArg (Option.getD · _) htemplate

theorem split_append (h : f.Written) (rest : Text) : split (f.text ++ rest) = f :: split rest := by
  obtain ⟨c, u, htext⟩ := List.exists_cons_of_ne_nil (text_ne_nil f)
  rw [htext, List.cons_append, split, h.first htext]
  simp only [htext, List.length_cons, Nat.add_sub_cancel, List.drop_left]

/-- Written fragments are cut apart again. -/
theorem split_flatMap (h : ∀ f ∈ fs, f.Written) : split (fs.flatMap text) = fs := by
  induction fs with
  | nil => rw [List.flatMap_nil, split]
  | cons f fs ih =>
    rw [List.flatMap_cons, (h f List.mem_cons_self).split_append, ih fun g hg => h g (List.mem_cons_of_mem _ hg)]

/-! ## One string -/

/-- A string goes on over characters that are neither backslashes, quotes nor newlines. -/
theorem closing_plain {t : Text} (ht : ∀ c ∈ t, c ≠ '\\' ∧ c ≠ '"' ∧ c ≠ '\n') (rest : Text) :
    Lexeme.closing .string (t ++ rest) = (Lexeme.closing .string rest).map (· + t.length) := by
  induction t with
  | nil => simp
  | cons c t ih =>
    obtain ⟨hslash, hquote, hnewline⟩ := ht c List.mem_cons_self
    have hmark : c ≠ Lexeme.Quoting.string.mark := hquote
    rw [List.cons_append, Lexeme.closing_cons _ hslash, if_neg hmark, if_neg (by simp [hnewline]),
      ih fun d hd => ht d (List.mem_cons_of_mem _ hd), Option.map_map]
    rfl

/-- A string goes on over a written fragment. -/
theorem closing_append (h : f.Written) (rest : Text) :
    Lexeme.closing .string (f.text ++ rest) = (Lexeme.closing .string rest).map (· + f.text.length) := by
  cases h with
  | plain hslash hquote hnewline _ =>
    exact closing_plain (fun d hd => by rw [List.mem_singleton.mp hd]; exact ⟨hslash, hquote, hnewline⟩) rest
  | escape _ =>
    simp only [text, List.cons_append, List.nil_append, Lexeme.closing]
    rw [if_neg (by simp [Lexeme.Quoting.string])]
    rfl
  | @template lead name trail hlead _ hname htrail =>
    refine closing_plain (fun d hd => ?_) rest
    have hpart {p : Char → Bool} {u : Text} (hu : u.all p = true) (hslash : p '\\' = false) (hquote : p '"' = false)
        (hnewline : p '\n' = false) (hmem : d ∈ u) : d ≠ '\\' ∧ d ≠ '"' ∧ d ≠ '\n' := by
      have hp := List.all_eq_true.mp hu d hmem
      refine ⟨?_, ?_, ?_⟩ <;> rintro rfl
      · cases hslash.symm.trans hp
      · cases hquote.symm.trans hp
      · cases hnewline.symm.trans hp
    simp only [text, List.mem_append, List.mem_cons, List.not_mem_nil, or_false] at hd
    rcases hd with ((((rfl | rfl) | hd) | hd) | hd) | (rfl | rfl)
    · decide
    · decide
    · exact hpart hlead rfl rfl rfl hd
    · exact hpart hname rfl rfl rfl hd
    · exact hpart htrail rfl rfl rfl hd
    · decide
    · decide

theorem closing_flatMap (h : ∀ f ∈ fs, f.Written) (rest : Text) :
    Lexeme.closing .string (fs.flatMap text ++ '"' :: rest) = some ((fs.flatMap text).length + 1) := by
  induction fs with
  | nil => rfl
  | cons f fs ih =>
    rw [List.flatMap_cons, List.append_assoc, (h f List.mem_cons_self).closing_append,
      ih fun g hg => h g (List.mem_cons_of_mem _ hg), List.length_append]
    simp only [Option.map_some, Option.some.injEq]
    omega

/-- Nothing is wrong with written fragments. -/
theorem fragmentProblems_eq_nil (h : ∀ f ∈ fs, f.Written) (offset : Nat) : Lexeme.fragmentProblems offset fs = [] := by
  induction fs generalizing offset with
  | nil => rfl
  | cons f fs ih =>
    refine List.append_eq_nil_iff.mpr ⟨?_, ih (fun g hg => h g (List.mem_cons_of_mem _ hg)) _⟩
    cases h f List.mem_cons_self with
    | plain _ _ _ _ | template _ _ _ _ => rfl
    | escape hc => exact if_pos hc

end Written

/-- The pieces of a string that holds fragments. -/
def stringPieces (fs : List Fragment) : List (Kind × Text) := (.doubleQuote, ['"']) :: (piecesOf fs ++ [(.doubleQuote, ['"'])])

/-- Written fragments between double quotes are one string, with which nothing is wrong. -/
theorem scan_written {fs : List Fragment} (h : ∀ f ∈ fs, f.Written) (checkPatterns : Bool) :
    (scan ('"' :: (fs.flatMap text ++ ['"'])) checkPatterns).tokens = Token.place 0 none (stringPieces fs) ∧
      (scan ('"' :: (fs.flatMap text ++ ['"'])) checkPatterns).diagnostics = [] := by
  let whole : Lexeme := ⟨.stringLiteral, '"' :: (fs.flatMap text ++ ['"'])⟩
  have hcut : Lexeme.Cut .stringLiteral whole.text [] := by
    refine ⟨'"', fs.flatMap text ++ ['"'], rfl, ?_⟩
    have hclosing := Written.closing_flatMap h []
    have hliteral : Lexeme.classify '"' (fs.flatMap text ++ ['"']) =
        Lexeme.literal .string .stringLiteral .unterminatedString (fs.flatMap text ++ ['"']) := rfl
    rw [List.append_nil, hliteral, Lexeme.literal, hclosing, List.length_append]
    rfl
  have hlexemes : Lexeme.ofText whole.text = [whole] := by
    have hsplit := Lexeme.split_of_cut hcut
    rw [List.append_nil, Lexeme.split] at hsplit
    rw [Lexeme.ofText, hsplit]
    rfl
  have hbody : split whole.stringBody = fs := by
    have hbody : whole.stringBody = fs.flatMap text := by
      simp only [Lexeme.stringBody, whole, if_true, List.drop_succ_cons, List.drop_zero, List.dropLast_concat]
    rw [hbody, Written.split_flatMap h]
  have hpieces : whole.pieces = stringPieces fs := by
    show [(Kind.doubleQuote, ['"'])] ++ piecesOf (split whole.stringBody) ++ [(Kind.doubleQuote, ['"'])] = _
    rw [hbody]
    rfl
  have hproblems : whole.problems checkPatterns 0 none = [] := by
    show Lexeme.fragmentProblems (0 + 1) (split whole.stringBody) = []
    rw [hbody, Written.fragmentProblems_eq_nil h]
  have hscan : scan whole.text checkPatterns = ⟨Token.place 0 none (stringPieces fs), []⟩ := by
    simp only [scan, hlexemes, List.flatMap_cons, List.flatMap_nil, List.append_nil, hpieces, Lexeme.problemsOf, hproblems]
  exact ⟨congrArg Scanned.tokens hscan, congrArg Scanned.diagnostics hscan⟩

/-! ## What fragments stand for -/

/-- The parts of a string that fragments stand for: text next to text is taken together. -/
def partsOf : List Fragment → List StringPart
  | [] => []
  | .template _ name _ :: rest => .template name :: partsOf rest
  | .escape c :: rest => StringPart.prepend (Literal.decodeEscape (Fragment.escape c).text) (partsOf rest)
  | .plain c :: rest => StringPart.prepend [c] (partsOf rest)
  | .openBraces :: rest => StringPart.prepend Fragment.openBraces.text (partsOf rest)

end Fragment

namespace StringPart

/-- Text put before parts in two steps. -/
theorem prepend_append (s t : Text) (parts : List StringPart) : prepend s (prepend t parts) = prepend (s ++ t) parts := by
  cases parts with
  | nil =>
    cases t with
    | nil => simp [prepend]
    | cons c t => simp [prepend]
  | cons p parts =>
    cases p with
    | text u => simp [prepend]
    | template name =>
      cases t with
      | nil => simp [prepend]
      | cons c t => simp [prepend]

/-- Pieces of the inside of a string, and the parts they stand for. -/
inductive Pieces : List (Kind × Text) → List StringPart → Prop
  | nil : Pieces [] []
  | text {ps : List (Kind × Text)} {parts : List StringPart} (t : Text) (h : Pieces ps parts) :
      Pieces ((.strText, t) :: ps) (prepend t parts)
  | escape {ps : List (Kind × Text)} {parts : List StringPart} (t : Text) (h : Pieces ps parts) :
      Pieces ((.escape, t) :: ps) (prepend (Literal.decodeEscape t) parts)
  | template {ps : List (Kind × Text)} {parts : List StringPart} (lead name trail : Text) (h : Pieces ps parts) :
      Pieces ((Fragment.template lead name trail).pieces ++ ps) (.template name :: parts)

/-- Text that is put before the pieces of fragments joins the text they begin with. -/
theorem Pieces.cons_text {f : Fragment} {fs : List Fragment} {parts : List StringPart} (hf : f.isText = true)
    (h : Pieces (Fragment.piecesOf fs) parts) : Pieces (Fragment.piecesOf (f :: fs)) (prepend f.text parts) := by
  rw [Fragment.piecesOf, if_pos hf]
  split
  · rename_i t more hfs
    rw [hfs] at h
    cases h with
    | text t h => rw [prepend_append]; exact .text _ h
  · exact .text _ h

/-- The pieces of fragments stand for what the fragments stand for. -/
theorem pieces_piecesOf (fs : List Fragment) : Pieces (Fragment.piecesOf fs) (Fragment.partsOf fs) := by
  induction fs with
  | nil => exact .nil
  | cons f fs ih =>
    cases f with
    | plain c => exact ih.cons_text (f := .plain c) rfl
    | openBraces => exact ih.cons_text (f := .openBraces) rfl
    | escape c => exact .escape _ ih
    | template lead name trail => exact .template lead name trail ih

/-- How a character of a text is written: what would end the string or its line, or begin an escape or a template, is escaped. -/
def escaped (c : Char) : Text :=
  if c = '\n' then ['\\', 'n'] else if c = '\\' || c = '"' || c = '\x7b' then ['\\', c] else [c]

/-- How a part of a string is written. -/
def source : StringPart → Text
  | .text t => t.flatMap escaped
  | .template name => (StringPart.template name).written

/-- How a string is written that has given parts. -/
def quoted (parts : List StringPart) : Text := '"' :: (parts.flatMap source ++ ['"'])

/-- Texts are not empty, and templates hold names. -/
def isProper : StringPart → Bool
  | .text t => !t.isEmpty
  | .template name => name.head?.any Lexeme.isNameStart && name.all Lexeme.isNamePart

/-- Not both parts are texts. -/
def Apart : StringPart → StringPart → Prop
  | .text _, .text _ => False
  | _, _ => True

/-- The fragment that a character of a text is written with. -/
def fragment (c : Char) : Fragment :=
  if c = '\n' then .escape (some 'n') else if c = '\\' || c = '"' || c = '\x7b' then .escape (some c) else .plain c

/-- The fragments that a part of a string is written with. -/
def fragments : StringPart → List Fragment
  | .text t => t.map fragment
  | .template name => [.template [' '] name [' ']]

theorem text_fragment (c : Char) : (fragment c).text = escaped c := by
  unfold fragment escaped
  split
  · rfl
  · split <;> rfl

theorem flatMap_text_fragments (p : StringPart) : p.fragments.flatMap Fragment.text = p.source := by
  cases p with
  | text t => rw [fragments, source, List.flatMap_map]; simp only [text_fragment]
  | template name => simp [fragments, source, written, Fragment.text]

/-- A string is written with the fragments of its parts. -/
theorem quoted_eq (parts : List StringPart) :
    quoted parts = '"' :: ((parts.flatMap fragments).flatMap Fragment.text ++ ['"']) := by
  rw [quoted, List.flatMap_assoc]
  simp only [flatMap_text_fragments]

theorem written_fragment (c : Char) : (fragment c).Written := by
  unfold fragment
  split
  · exact .escape rfl
  · split
    · rename_i h
      rw [Bool.or_eq_true, Bool.or_eq_true, decide_eq_true_iff, decide_eq_true_iff, decide_eq_true_iff] at h
      rcases h with (rfl | rfl) | rfl <;> exact .escape rfl
    · rename_i hnewline h
      rw [Bool.or_eq_true, Bool.or_eq_true, decide_eq_true_iff, decide_eq_true_iff, decide_eq_true_iff, not_or, not_or] at h
      exact .plain h.1.1 h.1.2 hnewline h.2

theorem written_fragments {parts : List StringPart} (h : ∀ p ∈ parts, p.isProper = true) :
    ∀ f ∈ parts.flatMap fragments, f.Written := by
  intro f hf
  obtain ⟨p, hp, hf⟩ := List.mem_flatMap.mp hf
  cases p with
  | text t =>
    obtain ⟨c, -, rfl⟩ := List.mem_map.mp hf
    exact written_fragment c
  | template name =>
    obtain ⟨hstart, hname⟩ := Bool.and_eq_true_iff.mp (h _ hp)
    rw [List.mem_singleton.mp hf]
    exact .template rfl hstart hname rfl

/-- The fragment of a character stands for that character. -/
theorem partsOf_fragment (c : Char) (fs : List Fragment) :
    Fragment.partsOf (fragment c :: fs) = prepend [c] (Fragment.partsOf fs) := by
  unfold fragment
  split
  · rename_i hc
    subst hc
    rfl
  · split
    · rename_i h
      rw [Bool.or_eq_true, Bool.or_eq_true, decide_eq_true_iff, decide_eq_true_iff, decide_eq_true_iff] at h
      rcases h with (rfl | rfl) | rfl <;> rfl
    · rfl

theorem partsOf_text (t : Text) (fs : List Fragment) :
    Fragment.partsOf (t.map fragment ++ fs) = prepend t (Fragment.partsOf fs) := by
  induction t with
  | nil =>
    rw [List.map_nil, List.nil_append]
    cases Fragment.partsOf fs with
    | nil => rfl
    | cons p parts => cases p <;> rfl
  | cons c t ih => rw [List.map_cons, List.cons_append, partsOf_fragment, ih, prepend_append]; rfl

/-- The fragments of parts stand for these parts, if no two texts come one after the other. -/
theorem partsOf_fragments {parts : List StringPart} (h : ∀ p ∈ parts, p.isProper = true) (hapart : parts.IsChain Apart) :
    Fragment.partsOf (parts.flatMap fragments) = parts := by
  induction parts with
  | nil => rfl
  | cons p parts ih =>
    have hrest := ih (fun q hq => h q (List.mem_cons_of_mem _ hq)) hapart.tail
    rw [List.flatMap_cons]
    cases p with
    | template name => exact congrArg (StringPart.template name :: ·) hrest
    | text t =>
      rw [fragments, partsOf_text, hrest]
      have hne : t.isEmpty = false := by simpa [isProper] using h _ List.mem_cons_self
      cases parts with
      | nil => simp [prepend, hne]
      | cons q parts =>
        cases q with
        | text u => exact absurd (List.isChain_cons_cons.mp hapart).1 id
        | template name => simp [prepend, hne]

end StringPart

end Remap
