import Remap.Proofs.Parser.Builds.Strings
import Remap.Proofs.Parser.Scope

/-!
# What the grammar builds

Every rule of the grammar, entered without error recovery, adds what it is named after: a rule for an expression adds one
node of an expression, a rule for a list adds some trees. Where a report would be made nothing has to be shown, so what is
left of each routine is its way through a source without mistakes.
-/

namespace Remap.Parser

open State (SameFrame Still)

variable {α β : Type}

/-- An expression of a kind was added to a row. -/
def AddsExpr (r : List Tree) (k : Kind) (r' : List Tree) : Prop := k.isExpr = true ∧ ∃ cs, r' = r ++ [.node k cs]

theorem AddsExpr.append {r r' xs : List Tree} {k : Kind} (h : AddsExpr r' k xs) : AddsExpr (r ++ r') k (r ++ xs) := by
  obtain ⟨hk, cs, rfl⟩ := h
  exact ⟨hk, cs, (List.append_assoc ..).symm⟩

/-- What a literal or a container adds to an empty row can be added to any row. -/
theorem AddsExpr.of_nil {r xs : List Tree} {k : Kind} (h : AddsExpr [] k xs) : AddsExpr r k (r ++ xs) := by
  have happend : AddsExpr (r ++ []) k (r ++ xs) := h.append
  rwa [List.append_nil] at happend

/-- Whether a path segment comes next, right after what was just read. -/
def AtSegment (ts : List Token) : Prop :=
  ∃ t rest, ts = t :: rest ∧ (t.kind = .dot ∨ t.kind = .bracketOpen) ∧ t.immediate = true

/-- Some trees were added to a row. -/
def AddsSome (r r' : List Tree) : Prop := ∃ xs, r' = r ++ xs

theorem AddsSome.refl (r : List Tree) : AddsSome r r := ⟨[], (List.append_nil r).symm⟩

theorem AddsSome.trans {r r' r'' : List Tree} (h : AddsSome r r') (h' : AddsSome r' r'') : AddsSome r r'' := by
  obtain ⟨xs, rfl⟩ := h
  obtain ⟨ys, rfl⟩ := h'
  exact ⟨xs ++ ys, List.append_assoc ..⟩

theorem AddsSome.one (r : List Tree) (x : Tree) : AddsSome r (r ++ [x]) := ⟨[x], rfl⟩

theorem AddsExpr.some {r r' : List Tree} {k : Kind} (h : AddsExpr r k r') : AddsSome r r' := by
  obtain ⟨_, cs, rfl⟩ := h
  exact .one r _

namespace Rule

/-- The rows a rule may start with. Newlines and the parts of strings are treated on their own, and no silent run skips
over an error. -/
def Takes : {α : Type} → Rule α → List Tree → Prop
  | _, .newlines, _ | _, .absorb, _ | _, .skipTo _ _, _ | _, .stringParts, _ | _, .templateParts, _ => False
  | _, .binaryRest _ lhs, r => AddsExpr [] lhs r
  | _, _, _ => True

/-- What a rule makes of a row, given the tokens ahead of it. -/
def Yields : {α : Type} → Rule α → List Token → List Tree → α → List Tree → Prop
  | _, .pathSegments, ts, r, _, r' => ∃ xs, r' = r ++ xs ∧
      (AtSegment ts → ∃ k cs, .node k cs ∈ xs ∧ (k = .fieldSegment ∨ k = .indexSegment))
  | _, .conditions count, _, r, count', r' => ∃ xs, r' = r ++ xs ∧ (xs = [] ∧ count' = count ∨ ∃ x ∈ xs, x.isExpr = true)
  | _, .elseBranches, _, r, _, r' => ∃ xs, r' = r ++ xs ∧ Branches xs
  | _, .statements _, _, r, _, r' => AddsSome r r'
  | _, .statement, _, r, k, r' | _, .assignment, _, r, k, r' | _, .binary _, _, r, k, r' | _, .unary, _, r, k, r' => AddsExpr r k r'
  | _, .binaryRest _ _, _, _, k, r' => AddsExpr [] k r'
  | _, _, _, _, _, _ => True

end Rule

/-! ## Further ways to look -/

namespace Builds

variable {n : Nat} {κ κ' : List Token → Prop} {r : List Tree} {Q : α → List Tree → Prop}

/-- What is known of the tokens ahead may be taken one list of tokens at a time. -/
theorem each {x : Routine α} (h : ∀ ts, κ ts → Builds n (· = ts) r x Q) : Builds n κ r x Q :=
  fun s hs hκ hr => h s.unread hκ s hs rfl hr

/-- A node of the right shape is added. -/
theorem shaped {k : Kind} {body : Routine α} (h : Builds n κ [] body fun _ xs => Shape k xs) :
    Builds n κ r (Parser.node k body) fun _ r' => ∃ cs, r' = r ++ [.node k cs] :=
  .node (h.imp fun _ _ hshape => ⟨hshape, fun cs _ => ⟨cs, rfl⟩⟩)

/-- A node of an expression is added, and its kind is returned. -/
theorem expr {k : Kind} {body : Routine Kind} (hk : k.isExpr = true) (h : Builds n κ [] body fun k' xs => k' = k ∧ Shape k xs) :
    Builds n κ r (Parser.node k body) (AddsExpr r) := by
  refine .node (h.imp fun k' xs h => ?_)
  obtain ⟨rfl, hshape⟩ := h
  exact ⟨hshape, fun cs _ => ⟨hk, cs, rfl⟩⟩

/-- Nothing comes after what never returns silently. -/
theorem never {x : Routine β} {f : β → Routine α} (h : Builds n κ r x fun _ _ => False) : Builds n κ r (x >>= f) Q :=
  h.seq fun _ _ hfalse => hfalse.elim

theorem peekIs {k : Kind} {f : Bool → Routine α} (htrue : Builds n (Next k) r (f true) Q)
    (hfalse : ∀ k', k' ≠ k → Builds n (Next k') r (f false) Q) : Builds n κ r (Parser.peekIs k >>= f) Q := by
  refine .peek (f := fun k' => f (k' == k)) fun k' => ?_
  by_cases hk : k' = k
  · subst hk
    rw [beq_self_eq_true]
    exact htrue
  · rw [beq_false_of_ne hk]
    exact hfalse k' hk

theorem peekIs_next {k j : Kind} {f : Bool → Routine α} (hk : Solid j) (hκ : ∀ ts, κ ts → Next j ts)
    (h : Builds n κ r (f (j == k)) Q) : Builds n κ r (Parser.peekIs k >>= f) Q :=
  .peek_next (f := fun k' => f (k' == k)) hk hκ h

/-- A token that a question about the tokens ahead has found is consumed. -/
theorem eat_ahead {k : Kind} {f : Bool → Routine α} (hk : Solid k ∧ k ≠ .doubleQuote)
    (hκ : ∀ ts, κ ts → Lookahead.startsWith k (Lookahead.significant false ts) = true)
    (h : ∀ t, Builds n Anything (r ++ [.leaf k t]) (f true) Q) : Builds n κ r (Parser.eat k >>= f) Q := by
  rw [eat_bind]
  rintro s hs hs' rfl
  refine Accepts.act fun _ k' t hperform _ => ?_
  have hkind : s.skip.nextKind = k := State.nextKind_skip_of_startsWith hk.1.1 hk.1.2 (hκ _ hs')
  have hnext := s.skip.next_nextKind
  rw [hkind] at hnext
  have htake : Builds n (Next k) s.row (if k == k then Parser.advance >>= fun _ => f true else f false) Q := by
    rw [beq_self_eq_true, if_pos rfl]
    exact .take hk (fun _ h => h) h
  simp only [Action.perform, look] at hperform
  split at hperform <;> cases hperform
  rw [hkind]
  exact htake.resume (s.still_looked _) hs hnext

end Builds

/-! ## Reports -/

section Reports

variable {n : Nat} {κ : List Token → Prop} {r : List Tree}

theorem builds_reportFound {Q : Unit → List Tree → Prop} (p : Problem) (e : Option Expectation) :
    Builds n κ r (reportFound p e) Q := fun _ _ _ _ => .reportFound p e

theorem builds_reportAndAdvance {Q : Unit → List Tree → Prop} (p : Problem) (d : Detail) :
    Builds n κ r (reportAndAdvance p d) Q := fun _ _ _ _ => .reportAndAdvance p d

theorem builds_missingOperand {Q : Unit → List Tree → Prop} : Builds n κ r missingOperand Q := fun _ _ _ _ => .missingOperand

end Reports

/-! ## Newlines -/

/-- Reading newlines changes nothing but blanks. -/
theorem accepts_newlines {n : Nat} {s : State} : Accepts n newlines s fun _ t => Still s t := by
  induction n generalizing s with
  | zero => exact .rule fun m hm => by cases hm
  | succ n ih =>
    refine .rule fun m hm => ?_
    cases hm
    change Accepts n (.act .peek fun k => if k == Kind.newline then advance >>= fun _ => rule .newlines else pure ()) s _
    refine .act fun _ k t hperform _ => ?_
    simp only [Action.perform, look] at hperform
    split at hperform <;> cases hperform
    have hlooked := s.still_looked (s.skip.patience - 1)
    split
    · rename_i hk
      have hk : s.skip.nextKind = .newline := eq_of_beq hk
      have hne : s.skip.unread ≠ [] := by
        intro hnil
        simp [State.nextKind, hnil] at hk
      obtain ⟨token, rest, hu⟩ := List.exists_cons_of_ne_nil hne
      have hkind : token.kind = .newline := by simpa [State.nextKind, hu] using hk
      refine .advance hu fun hsteady => ih.imp fun _ u hstill => (hlooked.trans ?_).trans hstill
      refine ⟨⟨[token], hu, fun b hb => .inr ((List.mem_singleton.mp hb) ▸ hkind)⟩, ?_, rfl, rfl⟩
      rw [hsteady.row_consumed, Token.leaf, hkind]
      exact List.append_nil _
    · exact .done hlooked

/-- After newlines, what is known of tokens after blanks is known. -/
theorem Builds.newlines_sight {n : Nat} {κ ρ : List Token → Prop} {r : List Tree} {f : Unit → Routine α}
    {Q : α → List Tree → Prop}
    (hκ : ∀ blanks ts, (∀ b ∈ blanks, b.kind.isTrivia = true ∨ b.kind = .newline) → κ (blanks ++ ts) → ρ ts)
    (h : Builds n ρ r (f ()) Q) : Builds n κ r (Parser.newlines >>= f) Q := by
  rintro s hs hs' rfl
  refine .bind (accepts_newlines.imp fun _ t hstill => ?_)
  obtain ⟨blanks, hunread, hblanks⟩ := hstill.unread
  rw [hunread] at hs'
  exact h.resume hstill hs (hκ blanks t.unread hblanks hs')

theorem Builds.newlines {n : Nat} {κ : List Token → Prop} {r : List Tree} {f : Unit → Routine α} {Q : α → List Tree → Prop}
    (h : Builds n Anything r (f ()) Q) : Builds n κ r (Parser.newlines >>= f) Q :=
  .newlines_sight (fun _ _ _ _ => trivial) h

/-- The number that a sign touches comes right after it. -/
theorem next_of_signs {number : Kind} {t : Token} {rest : List Token}
    (h : (Lookahead.signs number).holds (t :: rest) = true) : Next number rest := by
  cases rest with
  | nil => simp [Lookahead.holds] at h
  | cons u rest =>
    simp only [Lookahead.holds, List.drop_succ_cons, List.drop_zero, List.head?_cons, Option.any_some, Bool.and_eq_true,
      decide_eq_true_eq] at h
    exact h.1

/-! ## Routines that enter no rule -/

section Plain

variable {n : Nat} {κ : List Token → Prop} {r : List Tree}

/-- The mate of a delimiter is added, if it is there. -/
theorem builds_close {closer : Kind} (hk : Solid closer ∧ closer ≠ .doubleQuote) :
    Builds n κ r (close closer) fun _ r' => r' = r ∨ ∃ t, r' = r ++ [.leaf closer t] := by
  have hpop {r' : List Tree} (h : r' = r ∨ ∃ t, r' = r ++ [.leaf closer t]) {κ : List Token → Prop} :
      Builds n κ r' (act .popDelimiter) fun _ r' => r' = r ∨ ∃ t, r' = r ++ [.leaf closer t] :=
    .still (f := pure) rfl fun _ => .done h
  refine .eat hk (fun t => hpop (.inr ⟨t, rfl⟩)) fun k' _ => .still rfl fun b => ?_
  cases b with
  | false => exact .report
  | true => exact .still rfl fun b => .ite (fun _ => .still rfl fun _ => hpop (.inl rfl)) fun _ => hpop (.inl rfl)

/-- Where a delimiter is open, its mate comes next: no silent run goes on without it. -/
theorem accepts_mate {closer : Kind} {s : State} {Q : Unit → State → Prop} (hopen : s.delimiters ≠ [])
    (h : ∀ patience, s.skip.nextKind = closer → Accepts n (do advance; act .popDelimiter) { s.skip with patience } Q) :
    Accepts n (close closer) s Q := by
  unfold close
  rw [eat_bind]
  refine .bind (.single fun _ k t hperform _ => ?_)
  simp only [Action.perform, look] at hperform
  split at hperform <;> cases hperform
  by_cases hkind : s.skip.nextKind = closer
  · rw [hkind, beq_self_eq_true]
    exact h _ hkind
  · rw [beq_false_of_ne hkind]
    -- Before the end of the input a report is made about the token in its place, and at the end one about the delimiter.
    have hopen' : s.skip.delimiters ≠ [] := by
      rw [State.skip_eq]
      exact hopen
    refine .bind (.single fun _ b t hperform hsilent => ?_)
    simp only [Action.perform, Except.ok.injEq, Prod.mk.injEq] at hperform
    obtain ⟨hb, rfl⟩ := hperform
    cases b with
    | false => exact .report _ _ _
    | true =>
      have hend : s.skip.unread.isEmpty = true := by
        have hfuelled : s.skip.exhausted = false := hsilent.fuelled
        simpa [hfuelled] using hb
      change Accepts n (atEnd >>= fun b => if b = true then act (.reportUnclosed closer) >>= fun _ => act .popDelimiter
        else act .popDelimiter) _ _
      refine .bind (.single fun _ b t hperform _ => ?_)
      cases hperform
      rw [if_pos hend]
      exact .reportUnclosed _ _ hopen'

/-- Where a delimiter is open, its mate is added. -/
theorem accepts_close {closer : Kind} (hk : Solid closer ∧ closer ≠ .doubleQuote) {s : State} (hs : s.Fit)
    (hopen : s.delimiters ≠ []) :
    Accepts n (close closer) s fun _ t => t.Fit ∧ SameFrame s t ∧ ∃ c, t.row = s.row ++ [.leaf closer c] := by
  have htaken : Builds n (Next closer) s.row (do advance; act .popDelimiter) fun _ r' => ∃ c, r' = s.row ++ [.leaf closer c] :=
    .take hk (fun _ h => h) fun c => .still (f := pure) rfl fun _ => .done ⟨c, rfl⟩
  exact accepts_mate hopen fun _ hkind => htaken.resume (s.still_looked _) hs (hkind ▸ s.skip.next_nextKind)

/-- A scoped routine keeps the surroundings. -/
theorem Accepts.scoped {x : Routine α} {s : State} (h : Scoped (runRule n) false x) : Accepts n x s fun _ t => Kept s t :=
  fun _ _ _ hrun _ => (h.kept s).of_ok hrun

/-- What stands between a delimiter and its mate. -/
theorem Builds.enclosed {opener closer : Kind} {body : Routine β} {f : β → Routine α} {P : Text → β → List Tree → Prop}
    {Q : α → List Tree → Prop} (ho : Solid opener ∧ opener ≠ .doubleQuote) (hc : Solid closer ∧ closer ≠ .doubleQuote)
    (hκ : ∀ ts, κ ts → Next opener ts) (hbody : ∀ o, Builds n Anything (r ++ [.leaf opener o]) body (P o))
    (hscoped : Scoped (runRule n) false body)
    (h : ∀ o c b r', P o b r' → Builds n Anything (r' ++ [.leaf closer c]) (f b) Q) :
    Builds n κ r (do act (.pushDelimiter opener); Parser.advance; let b ← body; close closer; f b) Q := by
  rintro s hs hs' rfl
  have hadvance : Builds n (Next opener) s.row Parser.advance fun _ r' => ∃ o, r' = s.row ++ [.leaf opener o] :=
    .take (f := pure) ho (fun _ h => h) fun o => .done ⟨o, rfl⟩
  refine .bind (.single fun hsteady _ s₁ hpush _ => ?_)
  have hstill := still_perform hsteady rfl hpush
  have hnext : Next opener s₁.unread := hstill.unread_of_next ho.1 (hκ _ hs') ▸ hκ _ hs'
  cases hpush
  refine .bind (((hadvance _ (hstill.fit hs) hnext hstill.row).and (.scoped (.plain rfl))).imp fun _ s₂ h₂ => ?_)
  obtain ⟨⟨hfit₂, hframe₂, o, hrow₂⟩, hkept₂⟩ := h₂
  refine .bind ((((hbody o) s₂ hfit₂ trivial hrow₂).and (.scoped hscoped)).imp fun b s₃ h₃ => ?_)
  obtain ⟨⟨hfit₃, hframe₃, hP⟩, hkept₃⟩ := h₃
  have hopen : s₃.delimiters ≠ [] := by
    rw [hkept₃.delimiters, hkept₂.delimiters]
    exact List.cons_ne_nil _ _
  refine .bind ((accepts_close hc hfit₃ hopen).imp fun _ s₄ h₄ => ?_)
  obtain ⟨hfit₄, hframe₄, c, hrow₄⟩ := h₄
  refine ((h o c b s₃.row hP) s₄ hfit₄ trivial hrow₄).imp fun a t ht => ⟨ht.1, ?_, ht.2.2⟩
  exact (((hstill.frame.trans hframe₂).trans hframe₃).trans hframe₄).trans ht.2.1

/-- A literal of one token. -/
theorem builds_simpleLiteral {token k : Kind} (htoken : Solid token ∧ token ≠ .doubleQuote) (hne : token ≠ .minus)
    (hκ : ∀ ts, κ ts → Next token ts) (hshape : ∀ t, Shape k [.leaf token t]) (hk : k.isExpr = true) :
    Builds n κ r (simpleLiteral k) (AddsExpr r) := by
  refine .expr hk (.peekIs_next htoken.1 hκ ?_)
  rw [beq_false_of_ne hne]
  exact .take htoken hκ fun t => .done ⟨rfl, hshape t⟩

/-- A number with a sign that touches it. -/
theorem builds_signedLiteral {m k : Kind} (hm : Solid m ∧ m ≠ .doubleQuote) (hshape : k ∈ Shape.free)
    (hk : k.isExpr = true) :
    Builds n (fun ts => Next .minus ts ∧ (Lookahead.signs m).holds ts = true) r (simpleLiteral k) (AddsExpr r) := by
  refine .expr hk (.peekIs_next (j := .minus) (by decide) (fun _ h => h.1) ?_)
  refine .advance (k := .minus) (by decide) (fun _ h => h.1) fun t rest _ hκ _ => ?_
  refine .take hm ?_ fun _ => .done ⟨rfl, .of_free hshape _⟩
  rintro _ rfl
  exact next_of_signs hκ.2

theorem builds_literal : Builds n κ r literal (AddsExpr r) := by
  refine .peek fun k => ?_
  split
  case h_3 =>
    refine .ahead fun b => ?_
    cases b with
    | true => exact builds_signedLiteral (by decide) (by decide) rfl
    | false =>
      refine .ahead fun b => ?_
      cases b with
      | true => exact (builds_signedLiteral (m := .float) (by decide) (by decide) rfl).sight fun _ h => ⟨h.1.1, h.2⟩
      | false => exact .never (builds_reportAndAdvance _ _)
  case h_4 => exact builds_string.imp fun k r' h => ⟨by rw [h.1]; rfl, by rw [h.1]; exact h.2⟩
  case h_5 => exact builds_simpleLiteral (by decide) (by decide) (fun _ h => h) (fun _ => .quoted (by decide) List.mem_cons_self) rfl
  case h_6 => exact builds_simpleLiteral (by decide) (by decide) (fun _ h => h) (fun _ => .quoted (by decide) List.mem_cons_self) rfl
  case h_7 => exact builds_simpleLiteral (by decide) (by decide) (fun _ h => h) (fun _ => .quoted (by decide) List.mem_cons_self) rfl
  case h_11 => exact .fail _
  all_goals exact builds_simpleLiteral (by decide) (by decide) (fun _ h => h) (fun _ => .of_free (by decide) _) rfl

theorem solid_of_isFieldName {k : Kind} (h : k.isFieldName = true) : Solid k := by
  constructor
  · cases k <;> first | rfl | cases h
  · rintro rfl
    cases h

/-- The name of a field. -/
theorem builds_fieldName {k : Kind} (hk : k.isFieldName = true ∨ k = .doubleQuote) (hκ : ∀ ts, κ ts → Next k ts) :
    Builds n κ r fieldName fun _ r' => ∃ x, r' = r ++ [x] ∧ Shape.IsFieldName x := by
  by_cases hquote : k = .doubleQuote
  · subst hquote
    refine .peekIs_next (by decide) hκ (.seq builds_string fun k' r' h => .done ?_)
    obtain ⟨-, cs, rfl⟩ := h
    exact ⟨_, rfl, .inr ⟨cs, rfl⟩⟩
  · have hname : k.isFieldName = true := hk.resolve_right hquote
    have hsolid : Solid k := solid_of_isFieldName hname
    refine .peekIs_next hsolid hκ ?_
    rw [beq_false_of_ne hquote]
    exact .take (f := pure) ⟨hsolid, hquote⟩ hκ fun t => .done ⟨_, rfl, .inl ⟨k, t, rfl, hname⟩⟩

end Plain

/-! ## The routines of the grammar -/

section Grammar

variable {n : Nat} {κ : List Token → Prop} {r : List Tree}

/-- A field segment has its name. -/
theorem builds_fieldSegment : Builds n κ r fieldSegment fun _ r' => ∃ cs, r' = r ++ [.node .fieldSegment cs] := by
  have hmissing {r' : List Tree} {κ : List Token → Prop} {Q : Unit → List Tree → Prop} :
      Builds n κ r' (reportFound .invalidPathContinuation (some .fieldAfterDot)) Q := builds_reportFound _ _
  refine .shaped (.require (.take (by decide) (fun _ h => h) fun dot => .peek fun k => ?_))
  split
  · rename_i hk
    have hk : k.isFieldName = true ∨ k = .doubleQuote := by simpa using hk
    have hsolid : Solid k := by
      rcases hk with hk | rfl
      · exact solid_of_isFieldName hk
      · decide
    refine .touches hsolid (fun _ h => h) fun b => ?_
    cases b with
    | false => exact hmissing
    | true =>
      refine (builds_fieldName hk fun _ h => h.1).imp fun _ r' h => ?_
      obtain ⟨x, rfl, hx⟩ := h
      exact .fieldSegment (List.mem_append_right _ List.mem_cons_self) hx
  · exact hmissing

/-- An index segment has its value. -/
theorem builds_indexSegment (hκ : ∀ ts, κ ts → Next .bracketOpen ts) :
    Builds n κ r indexSegment fun _ r' => ∃ cs, r' = r ++ [.node .indexSegment cs] := by
  have hrest (sign : List Tree) {signed : Bool} {o t : Text} {κ : List Token → Prop}
      (hsign : sign = [] ∧ signed = false ∨ (∃ m, sign = [.leaf .minus m]) ∧ signed = true)
      (hvalue : (Literal.integer? signed t).isSome = true) :
      Builds n κ ([.leaf .bracketOpen o] ++ (sign ++ [.leaf .integer t])) (do newlines; close .bracketClose) fun _ xs =>
        Shape .indexSegment xs := by
    refine .newlines ((builds_close (by decide)).imp fun _ r' h => ?_)
    rcases h with rfl | ⟨c, rfl⟩
    · exact .indexSegment hsign (.inl rfl) hvalue
    · simp only [List.cons_append, List.nil_append, List.append_assoc]
      exact .indexSegment hsign (.inr ⟨c, rfl⟩) hvalue
  have hmissing {r' : List Tree} {κ : List Token → Prop} {Q : Unit → List Tree → Prop} :
      Builds n κ r' (do reportFound .unexpectedToken (some .indexInteger); newlines; close .bracketClose) Q :=
    .never (builds_reportFound _ _)
  have hblanks (blanks ts : List Token) (hb : ∀ b ∈ blanks, b.kind.isTrivia = true ∨ b.kind = .newline)
      (h : Tidy false (blanks ++ ts)) : Tidy false ts := by
    obtain ⟨signed, hsigned, htidy⟩ := h.of_blanks hb
    rwa [hsigned rfl] at htidy
  refine .shaped (.still_next rfl (k := .bracketOpen) (by decide) hκ fun _ => .advance (k := .bracketOpen) (by decide) hκ
    fun open_ rest _ _ htidy => .newlines_sight (ρ := Tidy false) ?_ (.peek_sight hblanks fun k => ?_))
  · rintro blanks ts hb rfl
    exact hblanks blanks ts hb htidy
  split
  · refine .advance (by decide) (fun _ h => h.1) fun t rest ht hκ _ => ?_
    exact hrest [] (.inl ⟨rfl, rfl⟩) (hκ.2.isSome_integer ht)
  · refine .ahead fun b => ?_
    cases b with
    | false => exact hmissing
    | true =>
      refine .advance (k := .minus) (by decide) (fun _ h => h.1.1) fun m rest _ hκ htidy => ?_
      refine .advance (k := .integer) (by decide) ?_ fun t rest ht hκ _ => ?_
      · rintro _ rfl
        exact next_of_signs hκ.2
      · subst hκ
        simp only [List.append_assoc]
        exact hrest _ (.inr ⟨⟨m.text, rfl⟩, rfl⟩) (htidy.isSome_integer ht)
  · exact hmissing

/-- Whether a path segment comes next is known from then on. -/
theorem builds_atSegment {ts : List Token} {f : Bool → Routine α} {Q : α → List Tree → Prop}
    (htrue : ∀ k, k = .dot ∨ k = .bracketOpen → Builds n (fun ts => Next k ts ∧ AtSegment ts) r (f true) Q)
    (hfalse : ¬ AtSegment ts → Builds n Anything r (f false) Q) : Builds n (· = ts) r (atSegment >>= f) Q := by
  have hsolid {k : Kind} (hk : k = .dot ∨ k = .bracketOpen) : Solid k := by
    rcases hk with rfl | rfl <;> decide
  have htouches {k : Kind} (hk : k = .dot ∨ k = .bracketOpen) {ts : List Token} (hnext : Next k ts)
      (himm : ts.head?.any (·.immediate) = true) : AtSegment ts := by
    cases ts with
    | nil => cases himm
    | cons t rest =>
      have hkind : t.kind = k := hnext
      exact ⟨t, rest, rfl, hkind ▸ hk, himm⟩
  rw [atSegment_bind]
  by_cases hat : AtSegment ts
  · obtain ⟨t, rest, rfl, hk, himm⟩ := id hat
    have hnext : ∀ ts, ts = t :: rest → Next t.kind ts := by
      rintro _ rfl
      rfl
    refine .peek_next (hsolid hk) hnext ?_
    rw [if_pos (by simpa using hk)]
    refine .touches (hsolid hk) hnext fun b => ?_
    cases b with
    | true => exact (htrue _ hk).sight fun ts h => ⟨hnext ts h.1, h.1 ▸ hat⟩
    | false =>
      intro s _ hs
      have hfalse : t.immediate = false := by simpa [hs.1] using hs.2
      rw [himm] at hfalse
      cases hfalse
  · refine .peek fun k => ?_
    split
    · rename_i hk
      have hk : k = .dot ∨ k = .bracketOpen := by simpa using hk
      refine .touches (hsolid hk) (fun _ h => h) fun b => ?_
      cases b with
      | true => exact (htrue k hk).sight fun ts h => ⟨h.1, htouches hk h.1 h.2⟩
      | false => exact (hfalse hat).anywhere
    · exact (hfalse hat).anywhere

variable (he : ∀ {γ : Type} (rule : Rule γ) (ts : List Token) (r : List Tree), rule.Takes r →
  Builds n (· = ts) r (Parser.rule rule) (rule.Yields ts r))

include he

/-- A rule does what it is for. -/
theorem builds_rule (rule : Rule α) (hr : rule.Takes r) {Q : α → List Tree → Prop}
    (h : ∀ ts, κ ts → ∀ a r', rule.Yields ts r a r' → Q a r') : Builds n κ r (Parser.rule rule) Q :=
  .each fun ts hκ => (he rule ts r hr).imp (h ts hκ)

/-! Paths. -/

theorem builds_pathSegmentsBody (ts : List Token) :
    Builds n (· = ts) r pathSegmentsBody (Rule.pathSegments.Yields ts r) := by
  have hmore {k : Kind} {cs : List Tree} (hk : k = .fieldSegment ∨ k = .indexSegment) :
      Builds n Anything (r ++ [.node k cs]) (rule .pathSegments) (Rule.pathSegments.Yields ts r) := by
    refine builds_rule he .pathSegments trivial fun _ _ _ r' h => ?_
    obtain ⟨xs, rfl, -⟩ := h
    exact ⟨.node k cs :: xs, by simp, fun _ => ⟨k, cs, List.mem_cons_self, hk⟩⟩
  refine builds_atSegment (fun k hk => ?_) fun hat => .done ⟨[], (List.append_nil r).symm, fun h => absurd h hat⟩
  rcases hk with rfl | rfl
  · refine .peekIs_next (j := .dot) (by decide) (fun _ h => h.1) (.seq builds_fieldSegment fun _ r' h => ?_)
    obtain ⟨cs, rfl⟩ := h
    exact hmore (.inl rfl)
  · refine .peekIs_next (j := .bracketOpen) (by decide) (fun _ h => h.1) (.seq (builds_indexSegment fun _ h => h.1) fun _ r' h => ?_)
    obtain ⟨cs, rfl⟩ := h
    exact hmore (.inr rfl)

/-- The path after the root of an event. -/
theorem builds_firstSegment {k : Kind} (hk : k.isFieldName = true ∨ k = .doubleQuote ∨ k = .bracketOpen)
    (hκ : ∀ ts, κ ts → Next k ts) : Builds n κ r (node .path do
      if ← peekIs .bracketOpen then indexSegment else node .fieldSegment fieldName
      rule .pathSegments) fun _ r' => AddsSome r r' := by
  have hsolid : Solid k := by
    rcases hk with hk | rfl | rfl
    · exact solid_of_isFieldName hk
    · decide
    · decide
  have hmore {r' : List Tree} : Builds n Anything r' (rule .pathSegments) fun _ xs => Shape .path xs :=
    builds_rule he .pathSegments trivial fun _ _ _ _ _ => .of_free (by decide) _
  refine (Builds.shaped (.peekIs_next hsolid hκ ?_)).imp fun _ r' h => h.imp' (fun cs => [.node .path cs]) fun _ h => h
  by_cases hbracket : k = .bracketOpen
  · subst hbracket
    exact .seq (builds_indexSegment hκ) fun _ _ _ => hmore
  · have hname : k.isFieldName = true ∨ k = .doubleQuote := by simpa [hbracket] using hk
    rw [beq_false_of_ne hbracket]
    refine .seq (P := fun _ _ => True) (.node ((builds_fieldName hname hκ).imp fun _ xs h => ?_)) fun _ _ _ => hmore
    obtain ⟨x, rfl, hx⟩ := h
    exact ⟨.fieldSegment List.mem_cons_self hx, fun _ _ => trivial⟩

theorem builds_externalQuery {k : Kind} (hk : k = .dot ∨ k = .percent) (hκ : ∀ ts, κ ts → Next k ts) :
    Builds n κ r externalQuery (AddsExpr r) := by
  have hsolid : Solid k ∧ k ≠ .doubleQuote := by
    rcases hk with rfl | rfl <;> decide
  have hdone {t : Text} {xs : List Tree} (h : AddsSome ([] ++ [.leaf k t]) xs) : Shape .query xs := by
    obtain ⟨ys, rfl⟩ := h
    exact .externalQuery hk
  have hloose (t : Text) {κ : List Token → Prop} : Builds n κ ([] ++ [.leaf k t]) (do
      if ← atSegment then
        report .invalidPathContinuation (some (.expected .segmentAfterRoot))
        node .path (rule .pathSegments)
      return Kind.query) fun k' xs => k' = .query ∧ Shape .query xs :=
    .each fun ts _ => builds_atSegment (fun _ _ => .report) fun _ => .done ⟨rfl, hdone (.refl _)⟩
  refine .expr rfl (.take hsolid hκ fun t => ?_)
  rw [atFirstSegment_bind]
  refine .peek fun k' => ?_
  split
  · rename_i hk'
    have hk' : k'.isFieldName = true ∨ k' = .doubleQuote ∨ k' = .bracketOpen := by simpa [or_assoc] using hk'
    have hsolid' : Solid k' := by
      rcases hk' with hk' | rfl | rfl
      · exact solid_of_isFieldName hk'
      · decide
      · decide
    refine .touches hsolid' (fun _ h => h) fun b => ?_
    cases b with
    | false => exact hloose t
    | true => exact .seq (builds_firstSegment he hk' fun _ h => h.1) fun _ _ h => .done ⟨rfl, hdone h⟩
  · exact hloose t

/-- A term whose path touches it becomes a query. -/
theorem builds_continuePath {k : Kind} (hr : AddsExpr [] k r) : Builds n κ r (continuePath k) (AddsExpr []) := by
  obtain ⟨hk, cs, rfl⟩ := hr
  have hquery {k' : Kind} : Builds n (fun ts => Next k' ts ∧ AtSegment ts) [.node k cs] (do
      wrapped .query (node .path (rule .pathSegments))
      return Kind.query) (AddsExpr []) := by
    refine .seq (P := fun _ r' => ∃ cs, r' = [.node .query cs]) (.wrapped (.node ?_)) fun _ r' h => .done ⟨rfl, h⟩
    refine builds_rule he .pathSegments trivial fun ts hts _ xs h => ⟨.of_free (by decide) _, fun ss hss => ⟨?_, fun cs _ => ⟨cs, rfl⟩⟩⟩
    obtain ⟨_, rfl, hsegment⟩ := h
    obtain ⟨seg, scs, hmem, hseg⟩ := hsegment hts.2
    rw [← hss] at hmem
    exact .internalQuery hk (List.mem_filter.mp hmem).1 hseg
  unfold continuePath
  split
  · exact .each fun ts _ => builds_atSegment (fun _ _ => hquery) fun _ => .done ⟨hk, cs, rfl⟩
  · exact .done ⟨hk, cs, rfl⟩

/-! Containers, calls and terms. -/

theorem builds_group (hκ : ∀ ts, κ ts → Next .parenOpen ts) : Builds n κ r group (AddsExpr r) := by
  refine .expr rfl (.still_next rfl (k := .parenOpen) (by decide) hκ fun _ => .take (by decide) hκ fun open_ => ?_)
  refine .seq (P := fun _ xs => ∃ x ∈ xs, x.isExpr = true) (.separating <| .peek fun k => ?_) fun _ xs h => .done ⟨rfl, ?_⟩
  · refine .ite (fun _ => .seq (builds_rule he .assignment trivial fun _ _ _ _ h => h) fun k' r' h => ?_) fun _ =>
      .never (builds_reportFound _ _)
    obtain ⟨hk', cs, rfl⟩ := h
    refine (builds_close (by decide)).imp fun _ r' h => ⟨.node k' cs, ?_, hk'⟩
    rcases h with rfl | ⟨c, rfl⟩
    · exact List.mem_append_right _ List.mem_cons_self
    · exact List.mem_append_left _ (List.mem_append_right _ List.mem_cons_self)
  · obtain ⟨x, hx, hexpr⟩ := h
    exact .inner (.inr (.inr rfl)) hx hexpr

/-- A list between its delimiters. -/
theorem builds_delimited {opener : Kind} {list : ItemList} (hopener : Solid opener ∧ opener ≠ .doubleQuote)
    (hκ : ∀ ts, κ ts → Next opener ts) : Builds n κ r (delimited opener list) fun _ _ => True := by
  refine .still_next rfl hopener.1 hκ fun _ => .take hopener hκ fun _ => .separating ?_
  refine .seq (builds_rule he (.items list) trivial fun _ _ _ _ h => h) fun _ _ _ => (builds_close ?_).imp fun _ _ _ => trivial
  cases list <;> decide

theorem builds_array (hκ : ∀ ts, κ ts → Next .bracketOpen ts) : Builds n κ r array (AddsExpr r) :=
  .expr rfl (.seq (builds_delimited he (by decide) hκ) fun _ _ _ => .done ⟨rfl, .of_free (by decide) _⟩)

theorem builds_object (hκ : ∀ ts, κ ts → Next .braceOpen ts) : Builds n κ r object (AddsExpr r) :=
  .expr rfl (.seq (builds_delimited he (by decide) hκ) fun _ _ _ => .done ⟨rfl, .of_free (by decide) _⟩)

/-- A block is a block: no silent run goes on without its opening brace. -/
theorem builds_block : Builds n κ r block fun k r' => k = .block ∧ ∃ cs, r' = r ++ [.node .block cs] := by
  refine .peekIs (.node (.still_next rfl (k := .braceOpen) (by decide) (fun _ h => h) fun _ => .take (by decide) (fun _ h => h)
    fun _ => .seq (.separating (builds_rule he (.statements (some .braceClose)) trivial fun _ _ _ _ h => h)) fun _ _ _ => ?_))
    fun _ _ => .never (builds_reportFound _ _)
  exact .seq (builds_close (by decide)) fun _ _ _ => .done ⟨.of_free (by decide) _, fun cs _ => ⟨rfl, cs, rfl⟩⟩

/-- An element is found, and it is an expression. -/
theorem builds_element : Builds n κ r element fun b r' => b = true ∧ ∃ x, x.isExpr = true ∧ r' = r ++ [x] := by
  refine .peek fun k => .ite (fun _ => .seq (builds_rule he (.binary 0) trivial fun _ _ _ _ h => h) fun k' r' h => .done ?_)
    fun _ => .never (builds_reportFound _ _)
  obtain ⟨hk', cs, rfl⟩ := h
  exact ⟨rfl, .node k' cs, hk', rfl⟩

theorem builds_entry : Builds n κ r entry fun _ _ => True := by
  refine .peekIs (.seq (P := fun _ _ => True) (.node ?_) fun _ _ _ => .done trivial) fun _ _ => .never (builds_reportFound _ _)
  refine .seq builds_string fun _ r' h => ?_
  obtain ⟨-, key, rfl⟩ := h
  refine .newlines (.eat (by decide) (fun colon => .newlines (.seq (builds_element he) fun _ r' h => .done ?_)) fun _ _ =>
    .report (f := pure))
  obtain ⟨-, x, hx, rfl⟩ := h
  exact ⟨.entry hx, fun _ _ => trivial⟩

/-- An argument with a name has a value. -/
theorem builds_namedArgument {k : Kind} (hk : k = .id ∨ k.isKeyword = true)
    (hκ : ∀ ts, κ ts → Next k ts ∧ Lookahead.namesArgument.holds ts = true) : Builds n κ r (node .namedArgument do
      advance
      let _ ← eat .colon
      newlines
      let _ ← element) fun _ _ => True := by
  have hsolid : Solid k ∧ k ≠ .doubleQuote := by
    refine ⟨solid_of_isFieldName ?_, ?_⟩
    · rcases hk with rfl | hk
      · rfl
      · cases k <;> first | rfl | cases hk
    · rintro rfl
      rcases hk with hk | hk <;> cases hk
  refine .node (.advance hsolid (fun ts h => (hκ ts h).1) fun name rest _ hκ' _ => .eat_ahead (k := .colon) (by decide) ?_ fun colon =>
    .newlines (.seq (builds_element he) fun _ r' h => .done ?_))
  · rintro _ rfl
    exact (hκ _ hκ').2
  · obtain ⟨-, x, hx, rfl⟩ := h
    exact ⟨.namedArgument hk hx, fun _ _ => trivial⟩

theorem builds_argument : Builds n κ r argument fun _ _ => True := by
  have helement {κ : List Token → Prop} : Builds n κ r element fun _ _ => True := (builds_element he).imp fun _ _ _ => trivial
  refine .peek fun k => ?_
  split
  · rename_i hk
    refine .ahead fun b => ?_
    cases b with
    | false => exact helement
    | true => exact .seq (builds_namedArgument he (by simpa using hk) fun _ h => h) fun _ _ _ => .done trivial
  · exact helement

omit he in
theorem builds_parameter : Builds n κ r parameter fun _ _ => True := by
  refine .peek fun k => .ite (fun hk => ?_) fun _ => .never (builds_reportFound _ _)
  have hsolid : Solid k ∧ k ≠ .doubleQuote := by
    have hk : k = .id ∨ k = .underscore := by simpa using hk
    rcases hk with rfl | rfl <;> decide
  exact .take hsolid (fun _ h => h) fun t => .done trivial

theorem builds_item (list : ItemList) : Builds n κ r (item list) fun _ _ => True := by
  cases list with
  | elements => exact (builds_element he).imp fun _ _ _ => trivial
  | entries => exact builds_entry he
  | arguments => exact builds_argument he
  | parameters => exact builds_parameter

theorem builds_itemsBody (list : ItemList) : Builds n κ r (itemsBody list) fun _ _ => True := by
  refine .newlines (.still rfl fun _ => .ite (fun _ => .done trivial) fun _ => .peekIs (.done trivial) fun _ _ =>
    .seq (builds_item he list) fun b r' _ => .ite (fun _ => .newlines (.eat (by decide) (fun t => ?_) fun _ _ => .done trivial)) fun _ =>
      .done trivial)
  exact builds_rule he (.items list) trivial fun _ _ _ _ _ => trivial

theorem builds_closure (hκ : ∀ ts, κ ts → Next .arrow ts) : Builds n κ r closure fun _ r' => AddsSome r r' := by
  refine .node (.take (k := .arrow) (by decide) hκ fun arrow => .seq (P := fun _ _ => True) (.node (.peek fun k => ?_)) fun _ r' _ => ?_)
  · have hfree {xs : List Tree} : Shape .closureParams xs ∧ ∀ cs, Tree.solid cs = xs → True :=
      ⟨.of_free (by decide) _, fun _ _ => trivial⟩
    split
    · exact .take (f := pure) (by decide) (fun _ h => h) fun _ => .done hfree
    · exact .still_next rfl (k := .pipe) (by decide) (fun _ h => h) fun _ => .take (by decide) (fun _ h => h) fun _ =>
        .seq (builds_rule he (.items .parameters) trivial fun _ _ _ _ h => h) fun _ _ _ => (builds_close (by decide)).imp fun _ _ _ => hfree
    · exact builds_reportFound _ _
  · refine .still rfl fun _ => .newlines (.seq (builds_block he) fun _ r'' h => .done ?_)
    obtain ⟨-, cs, rfl⟩ := h
    exact ⟨.closure (List.mem_append_right _ List.mem_cons_self), fun cs _ => .one r _⟩

theorem builds_argumentList : Builds n κ r argumentList fun _ r' => AddsSome r r' :=
  .node (.require ((builds_delimited he (by decide) fun _ h => h).imp fun _ _ _ => ⟨.of_free (by decide) _, fun _ _ => .one r _⟩))

theorem builds_identOrCall : Builds n κ r identOrCall (AddsExpr r) := by
  refine .require (.ahead fun b => .ite (fun _ => ?_) fun _ => ?_)
  · refine .expr rfl (.take (k := .id) (by decide) (fun _ h => h.1) fun name => ?_)
    have hrest {r' : List Tree} (h : AddsSome ([] ++ [.leaf .id name]) r') : Builds n Anything r' (do
        argumentList
        if ← peekIs .arrow then closure
        return Kind.functionCall) fun k xs => k = .functionCall ∧ Shape .functionCall xs := by
      have hnamed {xs : List Tree} (hxs : AddsSome ([] ++ [.leaf .id name]) xs) : Shape .functionCall xs := by
        obtain ⟨ys, rfl⟩ := hxs
        exact .named (.inr rfl) List.mem_cons_self
      refine .seq (builds_argumentList he) fun _ _ h' => .peekIs (.seq (builds_closure he fun _ h => h) fun _ _ h'' => .done ⟨rfl, ?_⟩)
        fun _ _ => .done ⟨rfl, hnamed (h.trans h')⟩
      exact hnamed ((h.trans h').trans h'')
    exact .eat (by decide) (fun t => hrest (.one _ _)) fun _ _ => (hrest (.refl _)).anywhere
  · exact .expr rfl (.take (by decide) (fun _ h => h.1) fun t => .done ⟨rfl, .named (.inl rfl) List.mem_cons_self⟩)

theorem builds_objectOrBlock : Builds n κ r objectOrBlock (AddsExpr r) := by
  refine .require (.ahead fun b => .ite (fun _ => builds_object he fun _ h => h.1) fun _ => (builds_block he).imp fun k r' h => ?_)
  obtain ⟨rfl, cs, rfl⟩ := h
  exact ⟨rfl, cs, rfl⟩

theorem builds_term : Builds n κ r term (AddsExpr r) := by
  have hone {x : Routine Kind} {κ : List Token → Prop} (hx : Builds n κ [] x (AddsExpr [])) :
      Builds n κ [] (do let k ← x; continuePath k) fun k xs => AddsExpr r k (r ++ xs) :=
    .seq hx fun _ _ h => (builds_continuePath he h).imp fun _ _ h' => h'.of_nil
  refine .nested (.marked (.peek fun k => ?_))
  split
  case h_1 => exact hone (builds_externalQuery he (.inl rfl) fun _ h => h)
  case h_2 => exact hone (builds_externalQuery he (.inr rfl) fun _ h => h)
  case h_13 => exact hone (builds_group he fun _ h => h)
  case h_14 => exact hone (builds_array he fun _ h => h)
  case h_15 => exact hone (builds_objectOrBlock he)
  case h_16 => exact hone (builds_identOrCall he)
  case h_17 => exact .never builds_missingOperand
  all_goals exact hone builds_literal

/-! Operators. -/

theorem builds_unaryBody : Builds n κ r unaryBody (AddsExpr r) := by
  refine .newlines (.peekIs (.nested (.expr rfl ?_)) fun _ _ => builds_term he)
  refine .take (k := .bang) (by decide) (fun _ h => h) fun _ => .newlines (.seq (builds_rule he .unary trivial fun _ _ _ _ h => h)
    fun k r' h => .done ⟨rfl, ?_⟩)
  obtain ⟨hk, cs, rfl⟩ := h
  exact .inner (.inl rfl) (List.mem_append_right _ List.mem_cons_self) hk

theorem builds_binaryBody (min : Nat) : Builds n κ r (binaryBody min) (AddsExpr r) :=
  .marked (.seq (builds_rule he .unary trivial fun _ _ _ _ h => h) fun lhs _ h =>
    builds_rule he (.binaryRest min lhs) h fun _ _ _ _ h' => h'.of_nil)

/-- Operators fold onto the operand they follow. -/
theorem builds_binaryRestBody (min : Nat) {lhs : Kind} (hr : AddsExpr [] lhs r) :
    Builds n κ r (binaryRestBody min lhs) (AddsExpr []) := by
  refine .peek fun k => ?_
  split
  · exact .done hr
  · rename_i op hop
    refine .ite (fun _ => .done hr) fun _ => .nested ?_
    have hsolid : Solid k ∧ k ≠ .doubleQuote := by
      unfold BinaryOperator.ofKind? at hop
      split at hop <;> first | decide | cases hop
    obtain ⟨hlhs, cs, rfl⟩ := hr
    refine .seq (P := fun _ r' => AddsExpr [] .binaryOp r') (.wrapped ?_) fun _ _ h =>
      builds_rule he (.binaryRest min .binaryOp) h fun _ _ _ _ h' => h'
    refine .take hsolid (fun _ h => h) fun t => .newlines (.seq (builds_rule he (.binary (op.precedence + 1)) (by trivial)
      fun _ _ _ _ h => h) fun k' r' h => .done ⟨?_, fun cs _ => ⟨rfl, cs, rfl⟩⟩)
    obtain ⟨hk', cs', rfl⟩ := h
    exact .binaryOp hlhs hop hk'

/-! Statements. -/

theorem builds_assignedValue : Builds n κ r assignedValue fun _ r' => ∃ x, x.isExpr = true ∧ r' = r ++ [x] := by
  refine .newlines (.peek fun k => .ite (fun _ => .seq (builds_rule he .statement trivial fun _ _ _ _ h => h) fun k' r' h => .done ?_)
    fun _ => builds_reportFound _ _)
  obtain ⟨hk', cs, rfl⟩ := h
  exact ⟨.node k' cs, hk', rfl⟩

/-- A target before it is checked: `_` or an expression. -/
theorem builds_target : Builds n κ r target fun k r' => (k = .noop ∨ k.isExpr = true) ∧ ∃ cs, r' = r ++ [.node k cs] := by
  refine .peekIs (.node (.take (by decide) (fun _ h => h) fun t => .done ⟨.of_free (by decide) _, fun cs _ => ⟨.inl rfl, cs, rfl⟩⟩))
    fun _ _ => builds_rule he (.binary 0) trivial fun _ _ _ _ h => ⟨.inr h.1, h.2⟩

omit he in
/-- Only targets pass the check. -/
theorem checkTarget_eq {k : Kind} (hk : k = .noop ∨ k.isExpr = true) :
    checkTarget k = if k.isTarget then pure () else act (.reportTarget .notAssignable) := by
  unfold checkTarget
  split
  case h_4 => rcases hk with hk | hk <;> cases hk
  case h_5 hnoop hquery hident _ =>
    have htarget : k.isTarget = false := by
      cases k <;> first | rfl | exact absurd rfl hnoop | exact absurd rfl hquery | exact absurd rfl hident
    rw [htarget]
    rfl
  all_goals rfl

omit he in
/-- What is assigned to can be. -/
theorem builds_checkTarget {k : Kind} (hk : k = .noop ∨ k.isExpr = true) {f : Unit → Routine α} {Q : α → List Tree → Prop}
    (h : k.isTarget = true → Builds n κ r (f ()) Q) : Builds n κ r (checkTarget k >>= f) Q := by
  rw [checkTarget_eq hk]
  split
  · exact h ‹_›
  · exact .reportTarget

/-- An operator of assignment and the value after it. -/
theorem builds_assign {x : Tree} {k : Kind} (hx : Shape.IsAssignee x) (hk : KindSet.assignOperators.contains k = true)
    (hκ : ∀ ts, κ ts → Next k ts) : Builds n κ [x] (do advance; assignedValue) fun _ xs => Shape .assignment xs := by
  obtain ⟨hsolid, op, hop⟩ : (Solid k ∧ k ≠ .doubleQuote) ∧ ∃ op, AssignOperator.ofKind? k = some op := by
    have hk : k = .equals ∨ k = .pipeEquals := by simpa [KindSet.assignOperators, KindSet.ofList] using hk
    rcases hk with rfl | rfl
    · exact ⟨by decide, _, rfl⟩
    · exact ⟨by decide, _, rfl⟩
  refine .take hsolid hκ fun t => (builds_assignedValue he).imp fun _ r' h => ?_
  obtain ⟨v, hv, rfl⟩ := h
  exact .assignment hx hop hv

theorem builds_assignment : Builds n κ r assignment (AddsExpr r) := by
  have hassignment {x : Tree} {body : Routine Unit} {κ : List Token → Prop} (h : Builds n κ [x] body fun _ xs => Shape .assignment xs) :
      Builds n κ [x] (do wrapped .assignment body; return Kind.assignment) fun k xs => AddsExpr r k (r ++ xs) :=
    .seq (P := fun _ r' => ∃ cs, r' = [.node .assignment cs]) (.wrapped (h.imp fun _ _ hshape => ⟨hshape, fun cs _ => ⟨cs, rfl⟩⟩))
      fun _ _ h' => .done (by obtain ⟨cs, rfl⟩ := h'; exact ⟨rfl, cs, rfl⟩)
  refine .marked (.seq (builds_target he) fun lhs r' h => ?_)
  obtain ⟨hlhs, cs, rfl⟩ := h
  refine .peek fun k => .ite (fun hk => ?_) fun _ => .ite (fun hk => ?_) fun _ => ?_
  · exact builds_checkTarget hlhs fun htarget => hassignment (builds_assign he (.inl ⟨lhs, cs, rfl, htarget⟩) hk fun _ h => h)
  · subst hk
    refine builds_checkTarget hlhs fun htarget => .seq (P := fun _ r' => ∃ x, r' = [x] ∧ Shape.IsAssignee x) (.wrapped ?_)
      fun _ r' h => ?_
    · refine .take (k := .comma) (by decide) (fun _ h => h) fun comma => .newlines (.marked (.seq (builds_target he) fun err r' h => ?_))
      obtain ⟨herr, cs', rfl⟩ := h
      rw [checkTarget_eq herr]
      refine .ite (fun htarget' => .done ⟨.of_free (by decide) _, fun ts hts => ⟨_, rfl, .inr ?_⟩⟩) fun _ => .reportTarget (f := pure)
      exact ⟨ts, lhs, err, cs, cs', comma, rfl, hts, htarget, htarget'⟩
    · obtain ⟨x, rfl, hx⟩ := h
      exact hassignment (.peek fun k' => .ite (fun hk' => builds_assign he hx hk' fun _ h => h) fun _ => builds_reportFound _ _)
  · rcases hlhs with rfl | hlhs
    · exact .reportTarget
    · exact .ite (fun _ => .reportTarget) fun _ => .done ⟨hlhs, cs, rfl⟩

theorem builds_conditionsBody (count : Nat) (ts : List Token) :
    Builds n κ r (conditionsBody count) ((Rule.conditions count).Yields ts r) := by
  have hnone : (Rule.conditions count).Yields ts r count r := ⟨[], (List.append_nil r).symm, .inl ⟨rfl, rfl⟩⟩
  refine .newlines (.still rfl fun _ => .ite (fun _ => .done hnone) fun _ => .peekIs (.done hnone) fun _ _ => .peek fun k =>
    .ite (fun _ => .never (builds_reportAndAdvance _ _)) fun _ => .ite (fun _ => ?_) fun _ => .never (builds_reportFound _ _))
  refine .seq (builds_rule he .assignment trivial fun _ _ _ _ h => h) fun k' r' h => ?_
  obtain ⟨hk', cs, rfl⟩ := h
  have hone (xs : List Tree) {count' : Nat} : (Rule.conditions count).Yields ts r count' (r ++ [.node k' cs] ++ xs) := by
    exact ⟨.node k' cs :: xs, by simp, .inr ⟨_, List.mem_cons_self, hk'⟩⟩
  have hmore (xs : List Tree) : Builds n Anything (r ++ [.node k' cs] ++ xs) (rule (.conditions (count + 1)))
      ((Rule.conditions count).Yields ts r) :=
    builds_rule he (.conditions (count + 1)) (by trivial) fun _ _ _ r'' h' => by
      obtain ⟨ys, rfl, -⟩ := h'
      rw [List.append_assoc]
      exact hone _
  refine .peek fun k => ?_
  split
  · exact .newlines (by simpa using hmore [])
  · exact .take (k := .semicolon) (by decide) (fun _ h => h) fun t => .newlines (hmore _)
  · exact .done (by simpa using hone [])

/-- A condition in parentheses, which may turn out to be a group. -/
theorem builds_parenthesised (hκ : ∀ ts, κ ts → Next .parenOpen ts) :
    Builds n κ r parenthesised fun _ r' => ∃ xs, r' = r ++ xs ∧ Layout .predicate xs := by
  refine .marked (.enclosed (by decide) (by decide) hκ (fun o => builds_rule he (.conditions 0) trivial fun _ _ _ _ h => h)
    (scoped_runRule n (.conditions 0)) fun o c count r' h => ?_)
  obtain ⟨xs, rfl, hxs⟩ := h
  have hgroup {κ : List Token → Prop} (hcount : count = 1) (b : Bool) :
      Builds n κ ([.leaf .parenOpen o] ++ xs ++ [.leaf .parenClose c]) (if b then (do
        wrapped .group (pure ())
        let k ← continuePath .group
        let _ ← rule (.binaryRest 0 k)) else pure ()) fun _ ys => Layout .predicate ys := by
    have hexpr : ∃ x ∈ xs, x.isExpr = true := hxs.resolve_left fun h => by simp [hcount] at h
    obtain ⟨x, hx, hexpr⟩ := hexpr
    have hmem : x ∈ [.leaf .parenOpen o] ++ xs ++ [.leaf .parenClose c] := List.mem_append_left _ (List.mem_append_right _ hx)
    refine .ite (fun _ => ?_) fun _ => .done (.inl ⟨x, hmem, hexpr⟩)
    refine .seq (P := fun _ r' => AddsExpr [] .group r') (.wrapped (.done ⟨.inner (.inr (.inr rfl)) hmem hexpr, fun cs _ => ⟨rfl, cs, rfl⟩⟩))
      fun _ _ h => .seq (builds_continuePath he h) fun k _ h' => .seq (builds_rule he (.binaryRest 0 k) h' fun _ _ _ _ h => h) fun k' _ h'' =>
        .done ?_
    obtain ⟨hk', cs, rfl⟩ := h''
    exact .inl ⟨_, List.mem_cons_self, hk'⟩
  have hdone : Layout .predicate ([.leaf .parenOpen o] ++ xs ++ [.leaf .parenClose c]) := by
    rcases hxs with ⟨rfl, -⟩ | ⟨x, hx, hexpr⟩
    · exact .inr ⟨o, c, rfl⟩
    · exact .inl ⟨x, List.mem_append_left _ (List.mem_append_right _ hx), hexpr⟩
  split
  · rename_i hcount
    refine .seq (P := fun _ r'' => r'' = _) (.peek fun k => .ite (fun _ => .done rfl) fun _ => .ite (fun _ => ?_) fun _ => .done rfl)
      fun b _ h => h ▸ (hgroup hcount b).imp fun _ ys h => ⟨ys, rfl, h⟩
    exact .still (f := pure) rfl fun _ => .done rfl
  · exact .done ⟨_, rfl, hdone⟩

/-- The node of a condition is added. -/
theorem builds_predicate : Builds n κ r predicate fun _ r' => ∃ p, r' = r ++ [.node .predicate p] := by
  refine .newlines (.shaped (.peek fun k => .ite (fun hk => ?_) fun _ => .ite (fun _ => ?_) fun _ => builds_reportFound _ _))
  · subst hk
    refine (builds_parenthesised he fun _ h => h).imp fun _ r' h => ?_
    obtain ⟨xs, rfl, hxs⟩ := h
    exact .predicate hxs
  · refine .seq (builds_rule he (.binary 0) trivial fun _ _ _ _ h => h) fun k' r' h => .done ?_
    obtain ⟨hk', cs, rfl⟩ := h
    exact .predicate (.inl ⟨_, List.mem_cons_self, hk'⟩)

/-- A condition and its block are added. -/
theorem builds_branch : Builds n κ r branch fun _ r' => ∃ p b, r' = r ++ [.node .predicate p, .node .block b] := by
  refine .seq (builds_predicate he) fun _ r' h => .newlines (.seq (builds_block he) fun _ r'' h' => .done ?_)
  obtain ⟨p, rfl⟩ := h
  obtain ⟨-, b, rfl⟩ := h'
  exact ⟨p, b, by simp⟩

theorem builds_elseBranchesBody (ts : List Token) :
    Builds n κ r elseBranchesBody (Rule.elseBranches.Yields ts r) := by
  refine .eat (by decide) (fun e => .newlines (.eat (by decide) (fun i => ?_) fun _ _ => ?_)) fun _ _ =>
    .done ⟨[], (List.append_nil r).symm, .nil⟩
  · refine .seq (builds_branch he) fun _ r' h => builds_rule he .elseBranches trivial fun _ _ _ r'' h' => ?_
    obtain ⟨p, b, rfl⟩ := h
    obtain ⟨xs, rfl, hxs⟩ := h'
    exact ⟨.leaf .kwElse e :: .leaf .kwIf i :: .node .predicate p :: .node .block b :: xs, by simp, .elseIf hxs⟩
  · refine .seq (builds_block he) fun _ r' h => .done ?_
    obtain ⟨-, b, rfl⟩ := h
    exact ⟨[.leaf .kwElse e, .node .block b], by simp, .otherwise e b⟩

theorem builds_ifStatement : Builds n κ r ifStatement (AddsExpr r) := by
  refine .expr rfl (.require (.take (by decide) (fun _ h => h) fun i => .seq (builds_branch he) fun _ r' h =>
    .seq (builds_rule he .elseBranches trivial fun _ _ _ _ h => h) fun _ r'' h' => .done ⟨rfl, ?_⟩))
  obtain ⟨p, b, rfl⟩ := h
  obtain ⟨xs, rfl, hxs⟩ := h'
  exact .ifStatement hxs

theorem builds_abortStatement (hκ : ∀ ts, κ ts → Next .kwAbort ts) : Builds n κ r abortStatement (AddsExpr r) :=
  .expr rfl (.take (k := .kwAbort) (by decide) hκ fun _ => .peek fun _ => .ite
    (fun _ => .seq (builds_rule he .statement trivial fun _ _ _ _ h => h) fun _ _ _ => .done ⟨rfl, .of_free (by decide) _⟩)
    fun _ => .done ⟨rfl, .of_free (by decide) _⟩)

theorem builds_returnStatement (hκ : ∀ ts, κ ts → Next .kwReturn ts) : Builds n κ r returnStatement (AddsExpr r) := by
  refine .expr rfl (.take (k := .kwReturn) (by decide) hκ fun _ => .newlines (.peek fun _ => .ite
    (fun _ => .seq (builds_rule he .statement trivial fun _ _ _ _ h => h) fun k r' h => .done ⟨rfl, ?_⟩)
    fun _ => .never (builds_reportFound _ _)))
  obtain ⟨hk, cs, rfl⟩ := h
  exact .inner (.inr (.inl rfl)) (List.mem_append_right _ List.mem_cons_self) hk

theorem builds_statement : Builds n κ r statement (AddsExpr r) := by
  refine .nested (.peek fun k => ?_)
  split
  · exact builds_ifStatement he
  · exact builds_abortStatement he fun _ h => h
  · exact builds_returnStatement he fun _ h => h
  · exact builds_rule he .assignment trivial fun _ _ _ _ h => h

omit he in
/-- Without a report there is an end to every statement. -/
theorem builds_endOfStatement (closer : Option Kind) : Builds n κ r (endOfStatement closer) fun b r' => b = true ∧ AddsSome r r' := by
  have hdone {κ : List Token → Prop} : Builds n κ r (pure true) fun b r' => b = true ∧ AddsSome r r' := .done ⟨rfl, .refl r⟩
  refine .still rfl fun _ => .ite (fun _ => hdone) fun _ => .peek fun k => .ite (fun _ => .newlines hdone) fun _ =>
    .ite (fun hk => ?_) fun _ => .ite (fun _ => hdone) fun _ => .never (builds_reportFound _ _)
  subst hk
  exact .take (k := .semicolon) (by decide) (fun _ h => h) fun _ => .newlines (.done ⟨rfl, .one r _⟩)

theorem builds_statementsBody (closer : Option Kind) : Builds n κ r (statementsBody closer) fun _ r' => AddsSome r r' := by
  have hdone {κ : List Token → Prop} : Builds n κ r (pure ()) fun _ r' => AddsSome r r' := .done (.refl r)
  refine .newlines (.still rfl fun _ => .ite (fun _ => hdone) fun _ => .peek fun k => .ite (fun _ => hdone) fun _ =>
    .ite (fun _ => .never (builds_reportAndAdvance _ _)) fun _ => .ite (fun _ => .never (builds_reportAndAdvance _ _)) fun _ =>
    .ite (fun _ => ?_) fun _ => .never (builds_reportFound _ _))
  refine .seq (P := fun _ r' => AddsSome r r') (.seq (builds_rule he .statement trivial fun _ _ _ _ h => h.some) fun _ _ hone =>
    .seq (builds_endOfStatement closer) fun b r' hb => ?_) fun _ _ hadds =>
    builds_rule he (.statements closer) trivial fun _ _ _ _ hmore => hadds.trans hmore
  rw [if_pos hb.1]
  exact .done (hone.trans hb.2)

end Grammar

/-! ## All rules -/

/-- Every rule builds what it is for, by induction on the bound on nested rules. -/
theorem builds_runRule (n : Nat) (rule : Rule α) (ts : List Token) (r : List Tree) (hr : rule.Takes r) :
    Builds n (· = ts) r (Parser.rule rule) (rule.Yields ts r) := by
  induction n generalizing α ts r with
  | zero => exact fun s _ _ _ => .rule fun m hm => by cases hm
  | succ n ih =>
    have hbody (h : Builds n (· = ts) r (grammar rule) (rule.Yields ts r)) :
        Builds (n + 1) (· = ts) r (Parser.rule rule) (rule.Yields ts r) :=
      fun s hs hκ hrow => .rule fun m hm => by cases hm; exact h s hs hκ hrow
    refine hbody ?_
    cases rule with
    | newlines | absorb | skipTo stops depth | stringParts | templateParts => exact hr.elim
    | pathSegments => exact builds_pathSegmentsBody (fun rule ts r hr => ih rule ts r hr) ts
    | items list => exact builds_itemsBody (fun rule ts r hr => ih rule ts r hr) list
    | statements closer => exact builds_statementsBody (fun rule ts r hr => ih rule ts r hr) closer
    | conditions count => exact builds_conditionsBody (fun rule ts r hr => ih rule ts r hr) count ts
    | elseBranches => exact builds_elseBranchesBody (fun rule ts r hr => ih rule ts r hr) ts
    | statement => exact builds_statement fun rule ts r hr => ih rule ts r hr
    | assignment => exact builds_assignment fun rule ts r hr => ih rule ts r hr
    | binary min => exact builds_binaryBody (fun rule ts r hr => ih rule ts r hr) min
    | binaryRest min lhs => exact builds_binaryRestBody (fun rule ts r hr => ih rule ts r hr) min hr
    | unary => exact builds_unaryBody fun rule ts r hr => ih rule ts r hr

/-- A silent parse of tidy tokens adds the node of the program. -/
theorem builds_program (n : Nat) {κ : List Token → Prop} {r : List Tree} :
    Builds n κ r program fun _ r' => ∃ cs, r' = r ++ [.node .program cs] := by
  refine .shaped (.seq (builds_rule (builds_runRule n) (.statements none) trivial fun _ _ _ _ h => h) fun _ _ _ => ?_)
  exact .still (f := pure) rfl fun _ => .done (.of_free (by decide) _)

end Remap.Parser
