import Remap.Proofs.Token.Squeeze

/-!
# Blanks after a source

A blank or a comment at the end of a source takes in the blanks that are put after it, and without one they are a token of their own. So no
lexical problem is added, and but for the blanks and comments at the very end the tokens are the same.
-/

namespace Remap

namespace Lexeme

variable {b v : Text}

/-- A run that takes all of a text takes nothing else. -/
theorem all_of_run {p : Char → Bool} {t : Text} (h : run p t = t.length) : t.all p = true := by
  rw [← (List.takeWhile_prefix p).eq_of_length h]
  exact List.all_takeWhile

/-- A text of blanks is one lexeme. -/
theorem cut_blanks {c : Char} (hc : isSpace c = true) (hb : b.all isSpace = true) : Cut .whitespace (c :: b) [] := by
  refine ⟨c, b, rfl, ?_⟩
  have hnewline : c ≠ '\n' := by
    rintro rfl
    cases hc
  have hreturn : ¬ (decide (c = '\r') && decide ((b ++ []).head? = some '\n')) = true := by
    rw [List.append_nil, Bool.and_eq_true, decide_eq_true_eq, decide_eq_true_eq]
    rintro ⟨-, hhead⟩
    cases List.all_eq_true.mp hb _ (List.mem_of_mem_head? hhead)
  rw [classify, if_neg hnewline, if_neg hreturn, if_pos hc, run_append hb (by simp)]

/-- The rest of a line behind the sign of a comment is one lexeme. -/
theorem cut_comment (hb : b.all (· ≠ '\n') = true) : Cut .comment ('#' :: b) [] :=
  ⟨'#', b, rfl, congrArg (Prod.mk Kind.comment) (run_append hb (by simp))⟩

/-- A blank or a comment at the end takes in the blanks after it. -/
theorem Cut.absorb {k : Kind} (h : Cut k v []) (hk : k.isSpacing = true) (hb : b.all isSpace = true) : Cut k (v ++ b) [] := by
  obtain ⟨c, v, rfl, hclassify⟩ := h
  rw [List.append_nil] at hclassify
  have hspacing : (classify c v).1.isSpacing = true := by rw [hclassify]; exact hk
  rcases classify_of_isSpacing hspacing with ⟨hc, heq⟩ | ⟨rfl, heq⟩
  · obtain ⟨rfl, hrun⟩ := Prod.mk.inj (hclassify.symm.trans heq)
    have hall : (v ++ b).all isSpace = true := by rw [List.all_append, all_of_run hrun.symm, hb]; rfl
    exact cut_blanks hc hall
  · obtain ⟨rfl, hrun⟩ := Prod.mk.inj (hclassify.symm.trans heq)
    have hline : b.all (· ≠ '\n') = true := by
      refine List.all_eq_true.mpr fun d hd => ?_
      have hspace := List.all_eq_true.mp hb d hd
      refine decide_eq_true ?_
      rintro rfl
      cases hspace
    have hall : (v ++ b).all (· ≠ '\n') = true := by rw [List.all_append, all_of_run hrun.symm, hline]; rfl
    exact cut_comment hall

/-- The lexemes of a text with blanks after it, if no literal in it lacks its closing mark. -/
theorem split_blanks {t : Text} (h : ∀ l ∈ split t, l.kind.isUnclosed = false) (hne : b ≠ []) (hb : b.all isSpace = true) :
    ∃ ls stray blank, split t = ls ++ stray ∧ split (t ++ b) = ls ++ [blank] ∧ blank.kind.isSpacing = true ∧
      ∀ l ∈ stray, l.kind.isSpacing = true := by
  obtain ⟨e, u, rfl⟩ := List.exists_cons_of_ne_nil hne
  have hspaces := hb
  rw [List.all_cons, Bool.and_eq_true] at hspaces
  fun_induction split t with
  | case1 =>
    have hsplit := split_of_cut (cut_blanks hspaces.1 hspaces.2)
    rw [List.append_nil, split] at hsplit
    exact ⟨[], [], _, rfl, hsplit, rfl, fun l hl => absurd hl List.not_mem_nil⟩
  | case2 c rest kind n hclassify ih =>
    by_cases hlast : kind.isSpacing = true ∧ rest.length ≤ n
    · obtain ⟨hspacing, hle⟩ := hlast
      have hcut := cut_classify c rest
      rw [hclassify] at hcut
      simp only [List.take_of_length_le hle, List.drop_eq_nil_of_le hle] at hcut ⊢
      have hsplit := split_of_cut (hcut.absorb hspacing hb)
      rw [List.append_nil, split] at hsplit
      refine ⟨[], [⟨kind, c :: rest⟩], _, by rw [split]; rfl, hsplit, hspacing, fun l hl => ?_⟩
      rw [List.mem_singleton.mp hl]
      exact hspacing
    · have hclosed : (classify c rest).1.isUnclosed = false := by
        rw [hclassify]
        exact h _ List.mem_cons_self
      have hends (hspacing : (classify c rest).1.isSpacing = true) : (classify c rest).2 < rest.length := by
        rw [hclassify] at hspacing ⊢
        exact Nat.lt_of_not_le fun hle => hlast ⟨hspacing, hle⟩
      obtain ⟨heq, hle⟩ := classify_before (e := e) (by simp [isStop, hspaces.1]) hclosed (fun hspacing => .inr (hends hspacing)) u
      rw [hclassify] at heq hle
      obtain ⟨ls, stray, blank, hsplit, hpadded, hblank, hstray⟩ := ih fun l hl => h l (List.mem_cons_of_mem _ hl)
      refine ⟨⟨kind, c :: rest.take n⟩ :: ls, stray, blank, by rw [hsplit, List.cons_append], ?_, hblank, hstray⟩
      rw [List.cons_append, split, heq]
      simp only [List.take_append_of_le_length hle, List.drop_append_of_le_length hle, hpadded, List.cons_append]

/-- A blank or a comment is no problem. -/
theorem problems_of_isSpacing {l : Lexeme} (h : l.kind.isSpacing = true) (checkPatterns : Bool) (offset : Nat) (previous : Option Kind) :
    l.problems checkPatterns offset previous = [] := by
  unfold problems
  cases hk : l.kind <;> first | rfl | (rw [hk] at h; cases h)

end Lexeme

/-- A source without lexical problems has none with blanks after it, and its tokens are the same but for trivia at the end. -/
theorem scan_padded {source b : Text} {checkPatterns : Bool} (h : (scan source checkPatterns).diagnostics = []) (hne : b ≠ [])
    (hb : b.all Lexeme.isSpace = true) :
    (scan (source ++ b) checkPatterns).diagnostics = [] ∧
      ∃ front, ∃ j : Seam .error, Firm front ∧ j.gap ≠ [] ∧ (scan source checkPatterns).tokens = front ++ j.tail ∧
        (scan (source ++ b) checkPatterns).tokens = front ++ j.rest := by
  obtain ⟨hsplit, hkinds⟩ := Lexeme.ofText_of_scan h
  obtain ⟨ls, stray, blank, hsource, hpadded, hblank, hstray⟩ := Lexeme.split_blanks (fun l hl => (hkinds l hl).2) hne hb
  have hofText : Lexeme.ofText (source ++ b) = ls ++ [blank] := by
    rw [Lexeme.ofText, hpadded]
    refine Lexeme.coalesce_of_ne_garbage fun l hl => ?_
    rcases List.mem_append.mp hl with hl | hl
    · exact (hkinds l (hsource ▸ List.mem_append_left _ hl)).1
    · rw [List.mem_singleton.mp hl]
      exact fun hk => by rw [hk] at hblank; cases hblank
  simp only [scan, hsplit, hofText, hsource] at h ⊢
  obtain ⟨offset, previous, hproblems⟩ := Lexeme.problemsOf_append checkPatterns ls stray 0 none
  obtain ⟨offset', previous', hproblems'⟩ := Lexeme.problemsOf_append checkPatterns ls [blank] 0 none
  rw [hproblems] at h
  refine ⟨?_, ?_⟩
  · rw [hproblems', (List.append_eq_nil_iff.mp h).1, List.nil_append, Lexeme.problemsOf, Lexeme.problems_of_isSpacing hblank]
    rfl
  · obtain ⟨o, p, hplace⟩ := Token.place_append (ls.flatMap Lexeme.pieces) (stray.flatMap Lexeme.pieces) 0 none
    obtain ⟨o', p', hplace'⟩ := Token.place_append (ls.flatMap Lexeme.pieces) ([blank].flatMap Lexeme.pieces) 0 none
    obtain ⟨front, blanks, hfront, hfirm, hblanks⟩ := exists_firm (Token.place 0 none (ls.flatMap Lexeme.pieces))
    have hone : ∀ l ∈ [blank], l.kind.isSpacing = true := fun l hl => by rw [List.mem_singleton.mp hl]; exact hblank
    let j : Seam .error :=
      { tail := blanks ++ Token.place o p (stray.flatMap Lexeme.pieces)
        gap := blanks ++ Token.place o' p' ([blank].flatMap Lexeme.pieces)
        next := []
        tail_trivia := fun t ht => (List.mem_append.mp ht).elim (hblanks t) fun ht => Token.isTrivia_of_mem_place hstray ht
        gap_trivia := fun t ht => (List.mem_append.mp ht).elim (hblanks t) fun ht => Token.isTrivia_of_mem_place hone ht
        next_kind := rfl
        stops := .inr (.inr rfl) }
    refine ⟨front, j, hfirm, ?_, ?_, ?_⟩
    · refine List.append_ne_nil_of_right_ne_nil _ ?_
      rw [List.flatMap_singleton, Lexeme.pieces_of_isSpacing hblank]
      exact List.cons_ne_nil _ _
    · rw [List.flatMap_append, hplace, hfront, List.append_assoc]
    · rw [List.flatMap_append, hplace', hfront, Seam.rest, List.append_nil, List.append_assoc]

end Remap
