import Mathlib.Data.List.Forall2
import Remap.Proofs.Parser.Offsets
import Remap.Proofs.Token.Squeeze

/-!
# Two layouts of one source

A source and the squeezed source are read side by side, patch by patch: a patch is one token of both, or a run of blanks and
comments of the one and the space of the other. Offsets in the two meet if they are as far into one patch. Offsets that meet
are in the same order in both sources, so neither a comparison nor sorting tells the two apart.
-/

namespace Remap

open Parser.State (sizeOfTokens sizeOfTokens_append sizeOfTokens_eq_spelled)

/-- A stretch of two rows of tokens that differ in layout. -/
inductive Patch where
  /-- A token of both rows. -/
  | same (t t' : Token) (core : t'.core = t.core)
  /-- Blanks and comments of the first row, and the blank of the second row in their place. -/
  | gap (t : Token) (more : List Token) (blank : Token) (spacing : ∀ x ∈ t :: more, x.kind.isSpacing = true)
      (size : 0 < t.text.bytes) (kind : blank.kind = .whitespace) (size' : 0 < blank.text.bytes)

namespace Patch

/-- The tokens of the first row. -/
def left : Patch → List Token
  | .same t _ _ => [t]
  | .gap t more _ _ _ _ _ => t :: more

/-- The tokens of the second row. -/
def right : Patch → List Token
  | .same _ t' _ => [t']
  | .gap _ _ blank _ _ _ _ => [blank]

/-- One token for the patch. It tells a gap from the blanks inside a template. -/
def mark : Patch → Token
  | .same t _ _ => t
  | .gap _ _ blank _ _ _ _ => { blank with kind := .comment }

/-- The first row. -/
def lefts (bs : List Patch) : List Token := bs.flatMap left

/-- The second row. -/
def rights (bs : List Patch) : List Token := bs.flatMap right

variable {b : Patch} {bs cs : List Patch}

@[simp] theorem lefts_nil : lefts [] = [] := rfl

@[simp] theorem rights_nil : rights [] = [] := rfl

@[simp] theorem lefts_cons : lefts (b :: bs) = b.left ++ lefts bs := List.flatMap_cons

@[simp] theorem rights_cons : rights (b :: bs) = b.right ++ rights bs := List.flatMap_cons

@[simp] theorem lefts_append : lefts (bs ++ cs) = lefts bs ++ lefts cs := List.flatMap_append

@[simp] theorem rights_append : rights (bs ++ cs) = rights bs ++ rights cs := List.flatMap_append

theorem left_ne_nil (b : Patch) : b.left ≠ [] := by
  cases b <;> exact List.cons_ne_nil _ _

theorem right_ne_nil (b : Patch) : b.right ≠ [] := by
  cases b <;> exact List.cons_ne_nil _ _

theorem kind_eq {t t' : Token} (h : t'.core = t.core) : t'.kind = t.kind := congrArg Prod.fst h

theorem piece_eq {t t' : Token} (h : t'.core = t.core) : t'.piece = t.piece :=
  congrArg (fun c : Kind × Text × Bool => (c.1, c.2.1)) h

end Patch

open Patch (lefts rights)

/-! ## Offsets that meet -/

/-- An offset in the first row and one in the second that is as far into the same patch. -/
inductive Meets : List Patch → Nat → Nat → Prop where
  | done : Meets [] 0 0
  | inside {b : Patch} {bs : List Patch} {k : Nat} (left : k < sizeOfTokens b.left) (right : k < sizeOfTokens b.right) :
      Meets (b :: bs) k k
  | later {b : Patch} {bs : List Patch} {o o' : Nat} (rest : Meets bs o o') :
      Meets (b :: bs) (sizeOfTokens b.left + o) (sizeOfTokens b.right + o')

namespace Meets

variable {bs cs : List Patch} {o o' n n' : Nat}

/-- Offsets that meet are in the same order in both rows. -/
theorem lt_iff (h : Meets bs o o') (h' : Meets bs n n') : o < n ↔ o' < n' := by
  induction h generalizing n n' with
  | done =>
    cases h'
    exact Iff.rfl
  | inside left right =>
    cases h' with
    | inside => exact Iff.rfl
    | later => omega
  | later _ ih =>
    cases h' with
    | inside => omega
    | later rest =>
      have := ih rest
      omega

/-- An offset in one row meets no more than one in the other. -/
theorem eq_iff (h : Meets bs o o') (h' : Meets bs n n') : o = n ↔ o' = n' := by
  have hlt := h.lt_iff h'
  have hgt := h'.lt_iff h
  omega

/-- After the same patches. -/
theorem append (h : Meets cs o o') : Meets (bs ++ cs) (sizeOfTokens (lefts bs) + o) (sizeOfTokens (rights bs) + o') := by
  induction bs with
  | nil => simpa [sizeOfTokens, Tree.bytesOf] using h
  | cons b bs ih =>
    have hlater := Meets.later (b := b) ih
    simp only [Patch.lefts_cons, Patch.rights_cons, sizeOfTokens_append, Nat.add_assoc]
    exact hlater

theorem size_same {t t' : Token} (core : t'.core = t.core) : sizeOfTokens [t'] = sizeOfTokens [t] := by
  rw [sizeOfTokens_eq_spelled, sizeOfTokens_eq_spelled, List.map_singleton, List.map_singleton, Patch.piece_eq core]

/-- The two rows begin together. -/
theorem zero : (bs : List Patch) → Meets bs 0 0
  | [] => .done
  | .same t t' core :: bs => by
    have hsize := size_same core
    rcases Nat.eq_zero_or_pos (sizeOfTokens [t]) with hzero | hpos
    · have hlater := Meets.later (b := .same t t' core) (zero bs)
      simp only [Patch.left, Patch.right, hsize, hzero] at hlater
      exact hlater
    · exact .inside hpos (hsize ▸ hpos)
  | .gap t more blank spacing size kind size' :: bs => by
    refine .inside ?_ ?_
    · simp only [Patch.left, sizeOfTokens, List.map_cons, Tree.bytesOf, Token.leaf, Tree.bytes]
      omega
    · simp only [Patch.right, sizeOfTokens, List.map_cons, Tree.bytesOf, Token.leaf, Tree.bytes]
      omega

end Meets

/-- Two places in the rows before which the same tokens stand, trivia apart, and right after which there is no trivia. -/
theorem meets_of_solids {bs : List Patch} {xs ys xs' ys' : List (Kind × Text)} {x x' : Kind × Text}
    (hleft : (lefts bs).map Token.piece = xs ++ x :: ys) (hright : (rights bs).map Token.piece = xs' ++ x' :: ys')
    (hx : x.1.isTrivia = false) (hx' : x'.1.isTrivia = false)
    (hsolids : xs'.filter (!·.1.isTrivia) = xs.filter (!·.1.isTrivia)) :
    Meets bs (spelled xs).bytes (spelled xs').bytes := by
  induction bs generalizing xs xs' with
  | nil => simp at hleft
  | cons b bs ih =>
    cases b with
    | same t t' core =>
      have hpiece := Patch.piece_eq core
      simp only [Patch.lefts_cons, Patch.rights_cons, Patch.left, Patch.right, List.singleton_append, List.map_cons, hpiece]
        at hleft hright
      cases xs with
      | nil =>
        obtain ⟨hhead, -⟩ := List.cons.inj hleft
        cases xs' with
        | nil => exact .zero _
        | cons y xs' =>
          obtain ⟨hhead', -⟩ := List.cons.inj hright
          simp [← hhead', hhead, hx] at hsolids
      | cons y xs =>
        obtain ⟨rfl, hleft'⟩ := List.cons.inj hleft
        cases xs' with
        | nil =>
          obtain ⟨rfl, -⟩ := List.cons.inj hright
          simp [hx'] at hsolids
        | cons y xs' =>
          obtain ⟨rfl, hright'⟩ := List.cons.inj hright
          have hrest : xs'.filter (!·.1.isTrivia) = xs.filter (!·.1.isTrivia) := by
            simp only [List.filter_cons] at hsolids
            split at hsolids
            · exact (List.cons.inj hsolids).2
            · exact hsolids
          have hlater := Meets.later (b := .same t t' core) (ih hleft' hright' hrest)
          simp only [Patch.left, Patch.right, sizeOfTokens_eq_spelled, List.map_singleton, hpiece, spelled_cons, spelled_nil,
            List.append_nil] at hlater
          simpa only [spelled_cons, Text.bytes_append] using hlater
    | gap t more blank spacing size kind size' =>
      have htrivia : ∀ y ∈ (t :: more).map Token.piece, y.1.isTrivia = true := by
        intro y hy
        obtain ⟨u, hu, rfl⟩ := List.mem_map.mp hy
        exact Kind.isTrivia_of_isSpacing (spacing u hu)
      have hblank : blank.piece.1.isTrivia = true := by
        show blank.kind.isTrivia = true
        rw [kind]
        rfl
      simp only [Patch.lefts_cons, Patch.rights_cons, Patch.left, Patch.right, List.map_append, List.singleton_append,
        List.map_cons (a := blank)] at hleft hright
      -- the place is after the gap in both rows
      obtain ⟨zs, rfl, hzs⟩ : ∃ zs, xs = (t :: more).map Token.piece ++ zs ∧ (lefts bs).map Token.piece = zs ++ x :: ys := by
        rcases List.append_eq_append_iff.mp hleft with ⟨zs, hxs, hrest⟩ | ⟨zs, hrun, hrest⟩
        · exact ⟨zs, hxs, hrest⟩
        · cases zs with
          | nil => exact ⟨[], by simpa using hrun.symm, by simpa using hrest.symm⟩
          | cons z zs =>
            obtain ⟨rfl, -⟩ := List.cons.inj hrest
            have := htrivia x (hrun ▸ List.mem_append_right _ List.mem_cons_self)
            rw [hx] at this
            cases this
      cases xs' with
      | nil =>
        obtain ⟨rfl, -⟩ := List.cons.inj hright
        rw [hx'] at hblank
        cases hblank
      | cons y xs' =>
        obtain ⟨rfl, hright'⟩ := List.cons.inj hright
        have hnone : ((t :: more).map Token.piece).filter (!·.1.isTrivia) = [] :=
          List.filter_eq_nil_iff.mpr fun y hy => by simp [htrivia y hy]
        rw [List.filter_append, hnone, List.nil_append, List.filter_cons_of_neg (by simp [hblank])] at hsolids
        have hlater := Meets.later (b := .gap t more blank spacing size kind size') (ih hzs hright' hsolids)
        simp only [Patch.left, Patch.right, sizeOfTokens_eq_spelled] at hlater
        simpa only [spelled_append, spelled_cons, Text.bytes_append, List.map_singleton, spelled_nil, List.append_nil] using hlater

/-! ## Problems -/

/-- The same problem, as far from one offset as from the other, and no further than a size. -/
def Diagnostic.Shifted (size offset offset' : Nat) (d d' : Diagnostic) : Prop :=
  d'.problem = d.problem ∧ ∃ k ≤ size, d.span.start = offset + k ∧ d'.span.start = offset' + k

theorem Diagnostic.Shifted.later {size offset offset' n m : Nat} (hn : n + size ≤ m) {d d' : Diagnostic}
    (h : Shifted size (offset + n) (offset' + n) d d') : Shifted m offset offset' d d' := by
  obtain ⟨hproblem, k, hk, hstart, hstart'⟩ := h
  exact ⟨hproblem, n + k, by omega, by omega, by omega⟩

namespace Lexeme

open List (Forall₂)

theorem shifted_fragmentProblems (offset offset' : Nat) (fs : List Fragment) :
    Forall₂ (Diagnostic.Shifted (Text.bytes (fs.flatMap Fragment.text)) offset offset') (fragmentProblems offset fs)
      (fragmentProblems offset' fs) := by
  induction fs generalizing offset offset' with
  | nil => exact .nil
  | cons f fs ih =>
    have hrest := (ih (offset + f.text.bytes) (offset' + f.text.bytes)).imp fun d d' h =>
      h.later (m := Text.bytes ((f :: fs).flatMap Fragment.text)) (Nat.le_of_eq (by rw [List.flatMap_cons, Text.bytes_append]))
    refine List.rel_append ?_ hrest
    have hhere {x : Problem} {y : Option Detail} : Diagnostic.Shifted (Text.bytes ((f :: fs).flatMap Fragment.text)) offset offset'
        { problem := x, span := .ofSize offset f.text.bytes, detail := y }
        { problem := x, span := .ofSize offset' f.text.bytes, detail := y } := ⟨rfl, 0, Nat.zero_le _, rfl, rfl⟩
    cases f with
    | escape c =>
      cases c with
      | none => exact .nil
      | some c =>
        by_cases hc : Literal.isEscape c = true
        · simp only [hc, if_true]
          exact .nil
        · simp only [hc, if_false, Bool.false_eq_true]
          exact .cons hhere .nil
    | openBraces => exact .cons hhere .nil
    | plain c | template lead name trail => exact .nil

theorem shifted_timestampProblems (offset offset' : Nat) (t : Text) :
    Forall₂ (Diagnostic.Shifted t.bytes offset offset') (timestampProblems offset t) (timestampProblems offset' t) := by
  fun_induction timestampProblems offset t generalizing offset' with
  | case1 => exact .nil
  | case2 offset c rest size here ih =>
    rw [timestampProblems]
    refine List.rel_append ?_ ((ih (offset' + size)).imp fun d d' h => h.later (by simp [size, Nat.add_assoc]))
    simp only [here]
    split
    · exact .nil
    · exact .cons ⟨rfl, 0, Nat.zero_le _, rfl, rfl⟩ .nil
  | case3 offset c rest hesc ih =>
    rw [timestampProblems]
    · exact (ih (offset' + c.utf8Size)).imp fun d d' h => h.later (by simp)
    · exact hesc

/-- The problems of a lexeme are the same wherever it stands, as long as a minus sign stands before it or not. -/
theorem shifted_problems {l : Lexeme} (hl : l.Genuine) (checkPatterns : Bool) (offset offset' : Nat)
    {previous previous' : Option Kind} (hminus : previous = some .minus ↔ previous' = some .minus) :
    Forall₂ (Diagnostic.Shifted l.text.bytes offset offset') (l.problems checkPatterns offset previous)
      (l.problems checkPatterns offset' previous') := by
  have hone {x : Problem} {y : Option Detail} : Forall₂ (Diagnostic.Shifted l.text.bytes offset offset')
      [{ problem := x, span := .ofSize offset l.text.bytes, detail := y }]
      [{ problem := x, span := .ofSize offset' l.text.bytes, detail := y }] :=
    .cons ⟨rfl, 0, Nat.zero_le _, rfl, rfl⟩ .nil
  have hfits : integerFits previous l.text = integerFits previous' l.text := by
    unfold integerFits
    simp only [hminus]
  have hquote : '"'.utf8Size = 1 := by decide
  rcases hl with hplain | ⟨hk, body, htext⟩ | ⟨hk, body, htext⟩
  · unfold problems
    split
    case h_2 hk | h_3 hk =>
      rw [hk] at hplain
      cases hplain
    case h_7 =>
      match l.text with
      | [] | [_] => exact .nil
      | c :: d :: rest =>
        have hc := c.utf8Size_pos
        have hd := d.utf8Size_pos
        exact (shifted_timestampProblems (offset + 2) (offset' + 2) rest).imp fun _ _ h => h.later (by simp; omega)
    case h_9 =>
      rw [hfits]
      split
      · exact .nil
      · exact hone
    case h_10 =>
      split
      · split
        · exact .nil
        · exact hone
      · exact .nil
    case h_11 => exact .nil
    all_goals exact hone
  · have hbody : l.stringBody = body := by simp [stringBody, hk, htext]
    have hfragments := shifted_fragmentProblems (offset + 1) (offset' + 1) (Fragment.split body)
    rw [Fragment.flatMap_text_split] at hfragments
    simp only [problems, hk, hbody]
    exact hfragments.imp fun _ _ h => h.later (by simp [htext, hquote])
  · have hbody : l.stringBody = body := by simp [stringBody, hk, htext]
    have hfragments := shifted_fragmentProblems (offset + 1) (offset' + 1) (Fragment.split body)
    rw [Fragment.flatMap_text_split] at hfragments
    simp only [problems, hk, hbody]
    exact .cons ⟨rfl, 0, Nat.zero_le _, rfl, rfl⟩ (hfragments.imp fun _ _ h => h.later (by simp [htext, hquote]))

/-! ## From lexemes to patches -/

/-- The lexemes of a source are read one at a time, or a whole run of blanks and comments at a time. -/
@[elab_as_elim]
theorem runs_induction {motive : List Lexeme → Prop} (nil : motive [])
    (keep : ∀ l rest, ¬ l.kind.isSpacing = true → motive rest → motive (l :: rest))
    (gap : ∀ l run rest, (∀ m ∈ l :: run, m.kind.isSpacing = true) → ¬ rest.head?.any (·.kind.isSpacing) = true →
      motive rest → motive (l :: run ++ rest)) : (ls : List Lexeme) → motive ls
  | [] => nil
  | l :: rest => by
    by_cases hl : l.kind.isSpacing = true
    · rw [← rest.takeWhile_append_dropWhile (p := (·.kind.isSpacing))]
      refine gap l _ _ (fun m hm => ?_) ?_ (runs_induction nil keep gap (rest.dropWhile (·.kind.isSpacing)))
      · rcases List.mem_cons.mp hm with rfl | hm
        · exact hl
        · exact List.all_eq_true.mp List.all_takeWhile m hm
      · have hnot := List.head?_dropWhile_not (·.kind.isSpacing) rest
        cases hhead : (rest.dropWhile (·.kind.isSpacing)).head? with
        | none => exact Bool.false_ne_true
        | some m =>
          rw [hhead] at hnot
          simpa using hnot
    · exact keep l rest hl (runs_induction nil keep gap rest)
termination_by ls => ls.length
decreasing_by
  · simp only [List.length_cons]
    exact Nat.lt_succ_of_le (List.dropWhile_suffix _).length_le
  · simp

/-- A run of blanks and comments becomes one space. -/
theorem squeeze_run {l : Lexeme} {run rest : List Lexeme} (hrun : ∀ m ∈ l :: run, m.kind.isSpacing = true)
    (hrest : ¬ rest.head?.any (·.kind.isSpacing) = true) : squeeze (l :: run ++ rest) = space :: squeeze rest := by
  induction run generalizing l with
  | nil => rw [List.singleton_append, squeeze, if_pos (hrun l List.mem_cons_self), if_neg hrest]
  | cons m run ih =>
    have hm : m.kind.isSpacing = true := hrun m (List.mem_cons_of_mem _ List.mem_cons_self)
    rw [List.cons_append, squeeze, if_pos (hrun l List.mem_cons_self), if_pos (by simpa using hm)]
    exact ih fun x hx => hrun x (List.mem_cons_of_mem _ hx)

/-- Each of them is one token. -/
theorem flatMap_pieces_run {run : List Lexeme} (hrun : ∀ m ∈ run, m.kind.isSpacing = true) :
    run.flatMap pieces = run.map fun m => (m.kind, m.text) := by
  induction run with
  | nil => rfl
  | cons m run ih =>
    have hm : isSimple m.kind = true := by
      have hspacing := hrun m List.mem_cons_self
      revert hspacing
      cases m.kind <;> decide
    rw [List.flatMap_cons, pieces_of_isSimple hm, ih fun x hx => hrun x (List.mem_cons_of_mem _ hx), List.map_cons,
      List.singleton_append]

/-- Nothing is wrong with blanks and comments. -/
theorem problemsOf_run {run : List Lexeme} (hrun : ∀ m ∈ run, m.kind.isSpacing = true) (rest : List Lexeme) (checkPatterns : Bool)
    (offset : Nat) (previous : Option Kind) :
    problemsOf checkPatterns offset previous (run ++ rest) =
      problemsOf checkPatterns (offset + (Text.bytes (run.flatMap text))) ((run.getLast?.map kind).or previous) rest := by
  induction run generalizing offset previous with
  | nil => rfl
  | cons m run ih =>
    have hm := hrun m List.mem_cons_self
    have hnone : m.problems checkPatterns offset previous = [] := by
      unfold problems
      split <;> first
        | rfl
        | (rename_i hk; rw [hk] at hm; cases hm)
    rw [List.cons_append, problemsOf, hnone, List.nil_append, ih fun x hx => hrun x (List.mem_cons_of_mem _ hx)]
    have hlast : ((run.getLast?.map kind).or (some m.kind)) = (((m :: run).getLast?.map kind).or previous) := by
      cases h : run.getLast? <;> simp [List.getLast?_cons, h]
    rw [hlast, List.flatMap_cons, Text.bytes_append, Nat.add_assoc]

end Lexeme

/-- Consecutive pieces are placed part by part, each after the size of what comes before it. -/
theorem Token.place_append_eq (xs ys : List (Kind × Text)) (offset : Nat) (previous : Option Kind) :
    place offset previous (xs ++ ys) = place offset previous xs ++
      place (offset + (spelled xs).bytes) ((xs.getLast?.map Prod.fst).or previous) ys := by
  induction xs generalizing offset previous with
  | nil => rfl
  | cons x xs ih =>
    have hlast : ((xs.getLast?.map Prod.fst).or (some x.1)) = (((x :: xs).getLast?.map Prod.fst).or previous) := by
      cases h : xs.getLast? <;> simp [List.getLast?_cons, h]
    rw [List.cons_append, place, ih, hlast, place, List.cons_append, spelled_cons, Text.bytes_append, Nat.add_assoc]

/-- Tokens that differ in where they stand only, as patches. -/
theorem Patch.exists_same {ts ts' : List Token} (h : ts'.map Token.core = ts.map Token.core) :
    ∃ bs : List Patch, lefts bs = ts ∧ rights bs = ts' ∧ bs.map mark = ts ∧
      ∀ more k, k ≤ sizeOfTokens ts → Meets (bs ++ more) k k := by
  induction ts generalizing ts' with
  | nil =>
    rw [List.map_nil, List.map_eq_nil_iff] at h
    subst h
    refine ⟨[], rfl, rfl, rfl, fun more k hk => ?_⟩
    obtain rfl : k = 0 := Nat.le_zero.mp hk
    exact .zero more
  | cons t ts ih =>
    obtain ⟨t', ts', rfl, core, hrest⟩ := List.map_eq_cons_iff.mp h
    obtain ⟨bs, rfl, rfl, hmark, hmeets⟩ := ih hrest
    refine ⟨.same t t' core :: bs, rfl, rfl, by rw [List.map_cons, hmark]; rfl, fun more k hk => ?_⟩
    have hsize := Meets.size_same core
    rcases Nat.lt_or_ge k (sizeOfTokens [t]) with hlt | hge
    · exact .inside hlt (hsize ▸ hlt)
    · have hsplit : sizeOfTokens (t :: lefts bs) = sizeOfTokens [t] + sizeOfTokens (lefts bs) := sizeOfTokens_append [t] _
      obtain ⟨j, rfl⟩ := Nat.exists_eq_add_of_le hge
      have hlater := Meets.later (b := .same t t' core) (hmeets more j (by omega))
      simp only [Patch.left, Patch.right, hsize] at hlater
      exact hlater

/-- Blanks and comments with a space in their place, as a patch. -/
theorem Patch.exists_gap {xs : List (Kind × Text)} (hne : xs ≠ []) (h : ∀ x ∈ xs, x.1.isSpacing = true ∧ 0 < x.2.bytes)
    (offset offset' : Nat) (previous previous' : Option Kind) :
    ∃ b : Patch, b.left = Token.place offset previous xs ∧ b.right = Token.place offset' previous' [(.whitespace, [' '])] ∧
      b.mark.kind = .comment := by
  cases xs with
  | nil => exact absurd rfl hne
  | cons x xs =>
    have hspacing : ∀ t ∈ Token.place offset previous (x :: xs), t.kind.isSpacing = true := by
      intro t ht
      obtain ⟨y, hy, hk⟩ := Token.kind_of_mem_place ht
      rw [hk]
      exact (h y hy).1
    have hsize : 0 < Text.bytes [' '] := by decide
    exact ⟨.gap _ _ _ hspacing (h x List.mem_cons_self).2 rfl hsize, rfl, rfl, rfl⟩

/-- The same problem at two offsets that meet, where the rows of patches begin at two given offsets. -/
def Diagnostic.Concurs (bs : List Patch) (offset offset' : Nat) (d d' : Diagnostic) : Prop :=
  d'.problem = d.problem ∧ ∃ k k', Meets bs k k' ∧ d.span.start = offset + k ∧ d'.span.start = offset' + k'

theorem Diagnostic.Concurs.append {bs cs : List Patch} {offset offset' : Nat} {d d' : Diagnostic}
    (h : Concurs cs (offset + sizeOfTokens (lefts bs)) (offset' + sizeOfTokens (rights bs)) d d') :
    Concurs (bs ++ cs) offset offset' d d' := by
  obtain ⟨hproblem, k, k', hmeets, hstart, hstart'⟩ := h
  exact ⟨hproblem, _, _, hmeets.append, by rw [hstart, Nat.add_assoc], by rw [hstart', Nat.add_assoc]⟩

namespace Lexeme

open List (Forall₂)

theorem sizeOfTokens_place (offset : Nat) (previous : Option Kind) (ps : List (Kind × Text)) :
    sizeOfTokens (Token.place offset previous ps) = (spelled ps).bytes := by
  rw [sizeOfTokens_eq_spelled, Token.map_piece_place]

/-- Every template in a lexeme is closed. -/
theorem Genuine.whole {l : Lexeme} (hl : l.Genuine) {ts : List Token} (h : Whole ts) (offset : Nat) (previous : Option Kind) :
    Whole (Token.place offset previous l.pieces ++ ts) := by
  have hquote {t : Token} (ht : t.kind = .doubleQuote) {us : List Token} (hus : Whole us) : Whole (t :: us) :=
    hus.cons (by rw [ht]; decide)
  rcases hl with hplain | ⟨hk, -⟩ | ⟨hk, -⟩
  · have hpiece : ∃ k, l.pieces = [(k, l.text)] ∧ k ≠ .templateOpen := by
      unfold pieces
      split
      case h_1 hk | h_2 hk =>
        rw [hk] at hplain
        cases hplain
      case h_6 => exact ⟨_, rfl, by split <;> decide⟩
      case h_7 =>
        refine ⟨_, rfl, fun hk => ?_⟩
        rw [hk] at hplain
        cases hplain
      all_goals exact ⟨_, rfl, by decide⟩
    obtain ⟨k, hpieces, hk⟩ := hpiece
    rw [hpieces]
    exact h.cons hk
  · simp only [pieces, hk, List.cons_append, List.nil_append, Token.place]
    rw [Token.place_append_eq, List.append_assoc]
    exact hquote rfl ((Fragment.stringBody_place _ _ _).whole (hquote rfl h))
  · simp only [pieces, hk, List.cons_append, List.nil_append, Token.place]
    exact hquote rfl ((Fragment.stringBody_place _ _ _).whole h)

/-- The tokens of lexemes and of the squeezed lexemes, patch by patch, and the problems of the two. -/
theorem exists_patches {ls : List Lexeme} (hgenuine : ∀ l ∈ ls, l.Genuine) (hsize : ∀ l ∈ ls, 0 < l.text.bytes)
    (checkPatterns : Bool) (offset offset' : Nat) {previous previous' : Option Kind}
    (hadjacent : previous.any (!·.breaksAdjacency) = previous'.any (!·.breaksAdjacency)) :
    ∃ bs : List Patch, lefts bs = Token.place offset previous (ls.flatMap pieces) ∧
      rights bs = Token.place offset' previous' ((squeeze ls).flatMap pieces) ∧ Whole (bs.map Patch.mark) ∧
      ∀ q q', (q = some .minus ↔ q' = some .minus) → Forall₂ (Diagnostic.Concurs bs offset offset')
        (problemsOf checkPatterns offset q ls) (problemsOf checkPatterns offset' q' (squeeze ls)) := by
  induction ls using runs_induction generalizing offset offset' previous previous' with
  | nil => exact ⟨[], rfl, rfl, .nil, fun _ _ _ => .nil⟩
  | keep l rest hspacing ih =>
    have hl := hgenuine l List.mem_cons_self
    have hspelled := hl.spelled_pieces
    have hnext : ((l.pieces.getLast?.map Prod.fst).or previous).any (!·.breaksAdjacency) =
        ((l.pieces.getLast?.map Prod.fst).or previous').any (!·.breaksAdjacency) := by
      cases l.pieces.getLast? with
      | none => exact hadjacent
      | some x => rfl
    obtain ⟨cs, hleft, hright, hwhole, hproblems⟩ := ih (fun m hm => hgenuine m (List.mem_cons_of_mem _ hm))
      (fun m hm => hsize m (List.mem_cons_of_mem _ hm)) (offset + l.text.bytes) (offset' + l.text.bytes) hnext
    obtain ⟨bs, hbl, hbr, hmark, hmeets⟩ :=
      Patch.exists_same (Token.map_core_place l.pieces offset' offset hadjacent.symm)
    have hsizes : sizeOfTokens (lefts bs) = l.text.bytes ∧ sizeOfTokens (rights bs) = l.text.bytes := by
      rw [hbl, hbr, sizeOfTokens_place, sizeOfTokens_place, hspelled]
      exact ⟨rfl, rfl⟩
    have hsqueeze : squeeze (l :: rest) = l :: squeeze rest := by rw [squeeze, if_neg hspacing]
    refine ⟨bs ++ cs, ?_, ?_, ?_, fun q q' hminus => ?_⟩
    · rw [Patch.lefts_append, hbl, hleft, List.flatMap_cons, Token.place_append_eq, hspelled]
    · rw [Patch.rights_append, hbr, hright, hsqueeze, List.flatMap_cons, Token.place_append_eq, hspelled]
    · rw [List.map_append, hmark]
      exact hl.whole hwhole offset previous
    · rw [hsqueeze]
      refine List.rel_append ((shifted_problems hl checkPatterns offset offset' hminus).imp fun d d' h => ?_)
        ((hproblems (some l.kind) (some l.kind) Iff.rfl).imp fun d d' h => ?_)
      · obtain ⟨hproblem, k, hk, hstart, hstart'⟩ := h
        refine ⟨hproblem, k, k, hmeets cs k ?_, hstart, hstart'⟩
        rw [← hbl, hsizes.1]
        exact hk
      · refine .append ?_
        rw [hsizes.1, hsizes.2]
        exact h
  | gap l run rest hrun hrest ih =>
    have hpieces := flatMap_pieces_run hrun
    obtain ⟨xs, hxs⟩ : ∃ xs, xs = (l :: run).map fun m => (m.kind, m.text) := ⟨_, rfl⟩
    have hmem {x : Kind × Text} (hx : x ∈ xs) : x.1.isSpacing = true ∧ 0 < x.2.bytes := by
      rw [hxs] at hx
      obtain ⟨m, hm, rfl⟩ := List.mem_map.mp hx
      exact ⟨hrun m hm, hsize m (List.mem_append_left rest hm)⟩
    have hspelled : spelled xs = (l :: run).flatMap text := by
      rw [hxs, spelled, List.flatMap_map]
    -- the last of them is no minus sign and touches nothing
    obtain ⟨last, hlast, hspacing⟩ : ∃ k, ((l :: run).getLast?.map kind) = some k ∧ k.isSpacing = true :=
      ⟨_, by rw [List.getLast?_eq_some_getLast (List.cons_ne_nil l run)]; rfl, hrun _ (List.getLast_mem _)⟩
    have hxslast : xs.getLast?.map Prod.fst = some last := by
      rw [hxs, List.getLast?_map, Option.map_map]
      exact hlast
    have hbreaks : (some last).any (!·.breaksAdjacency) = (some Kind.whitespace).any (!·.breaksAdjacency) := by
      revert hspacing
      cases last <;> decide
    have hminus : some last = some Kind.minus ↔ some Kind.whitespace = some Kind.minus := by
      revert hspacing
      cases last <;> decide
    obtain ⟨cs, hleft, hright, hwhole, hproblems⟩ := ih
      (fun m hm => hgenuine m (List.mem_append_right _ hm))
      (fun m hm => hsize m (List.mem_append_right _ hm))
      (offset + (spelled xs).bytes) (offset' + Text.bytes [' ']) hbreaks
    have hne : xs ≠ [] := by simp [hxs]
    obtain ⟨b, hbl, hbr, hbmark⟩ := Patch.exists_gap hne (fun x => hmem) offset offset' previous previous'
    refine ⟨b :: cs, ?_, ?_, hwhole.cons (by rw [hbmark]; decide), fun q q' _ => ?_⟩
    · rw [Patch.lefts_cons, hbl, hleft, List.flatMap_append, hpieces, ← hxs, Token.place_append_eq, hxslast]
      rfl
    · rw [Patch.rights_cons, hbr, hright, squeeze_run hrun hrest]
      rfl
    · have hleftSize : sizeOfTokens (lefts [b]) = (spelled xs).bytes := by
        rw [Patch.lefts_cons, Patch.lefts_nil, List.append_nil, hbl, sizeOfTokens_place]
      have hrightSize : sizeOfTokens (rights [b]) = Text.bytes [' '] := by
        rw [Patch.rights_cons, Patch.rights_nil, List.append_nil, hbr]
        rfl
      have hspace : problemsOf checkPatterns offset' q' (space :: squeeze rest) =
          problemsOf checkPatterns (offset' + Text.bytes [' ']) (some .whitespace) (squeeze rest) := rfl
      rw [problemsOf_run hrun, squeeze_run hrun hrest, hspace, hlast, ← hspelled]
      refine (hproblems (some last) (some .whitespace) hminus).imp fun d d' h => ?_
      show Diagnostic.Concurs ([b] ++ cs) offset offset' d d'
      refine .append ?_
      rw [hleftSize, hrightSize]
      exact h

/-- No lexeme is empty. -/
theorem size_of_mem_split {t : Text} : ∀ l ∈ split t, 0 < l.text.bytes := by
  fun_induction split t with
  | case1 => exact fun _ hl => absurd hl List.not_mem_nil
  | case2 c rest kind n hclassify ih =>
    refine List.forall_mem_cons.mpr ⟨?_, ih⟩
    have hpos := c.utf8Size_pos
    simp only [Text.bytes_cons]
    omega

end Lexeme

/-- Two layouts of one row of tokens, in which every template is closed. -/
structure Layouts where
  patches : List Patch
  first : List (Kind × Text)
  second : List (Kind × Text)
  lefts_eq : lefts patches = Token.place 0 none first
  rights_eq : rights patches = Token.place 0 none second
  whole : Whole (patches.map Patch.mark)

/-- The tokens of a source and of the squeezed source are two layouts of one row, and the two have the same lexical problems at
offsets that meet. -/
theorem exists_layouts {source : Text} {checkPatterns : Bool} (h : ∀ t ∈ (scan source checkPatterns).tokens, t.kind ≠ .garbage) :
    ∃ w : Layouts, lefts w.patches = (scan source checkPatterns).tokens ∧
      rights w.patches = (scan (squeezed source) checkPatterns).tokens ∧
      List.Forall₂ (Diagnostic.Concurs w.patches 0 0) (scan source checkPatterns).diagnostics
        (scan (squeezed source) checkPatterns).diagnostics := by
  have hgarbage : ∀ l ∈ Lexeme.ofText source, l.kind ≠ .garbage := by
    intro l hl hk
    have hpiece : (Kind.garbage, l.text) ∈ (scan source checkPatterns).tokens.map Token.piece := by
      simp only [scan, Token.map_piece_place]
      exact List.mem_flatMap.mpr ⟨l, hl, by simp [Lexeme.pieces, hk]⟩
    obtain ⟨t, ht, heq⟩ := List.mem_map.mp hpiece
    exact h t ht (congrArg Prod.fst heq)
  have hsize : ∀ l ∈ Lexeme.ofText source, 0 < l.text.bytes := by
    rw [Lexeme.ofText, Lexeme.eq_of_coalesce hgarbage]
    exact Lexeme.size_of_mem_split
  have hstart : (none : Option Kind).any (!·.breaksAdjacency) = (none : Option Kind).any (!·.breaksAdjacency) := rfl
  obtain ⟨bs, hleft, hright, hwhole, hproblems⟩ :=
    Lexeme.exists_patches (fun l hl => Lexeme.genuine_of_mem_ofText hl) hsize checkPatterns 0 0 hstart
  refine ⟨⟨bs, _, _, hleft, hright, hwhole⟩, hleft, ?_, ?_⟩
  · simp only [scan, Lexeme.ofText_squeezed hgarbage]
    exact hright
  · simp only [scan, Lexeme.ofText_squeezed hgarbage]
    exact hproblems none none Iff.rfl

end Remap
