import Remap.Proofs.Parser.Trims

/-!
# Where the grammar begins and ends nodes

Every rule of the grammar looks at the next token before it opens a node there, and closes the node before it passes over what
comes after it. The two exceptions are the parameters of a closure and the arguments of a call with a `!`, which are opened right
after the token before them.
-/

namespace Remap.Parser

variable {α β : Type} {n : Nat} {e : Bool} {σ : Stance} {Q : α → Stance → Prop}

open State (SameFrame)

namespace Rule

/-- Where a rule is entered. A rule for an expression begins with a token that was looked at; newlines, strings and templates are
treated on their own, and no silent run skips over an error. -/
def Enters : {α : Type} → Rule α → Bool → Stance → Prop
  | _, .newlines, _, _ | _, .absorb, _, _ | _, .skipTo _ _, _, _ | _, .stringParts, _, _ | _, .templateParts, _, _ => False
  | _, .items _, _, σ | _, .statements _, _, σ | _, .conditions _, _, σ => σ.begun = true
  | _, .pathSegments, _, σ => σ.Closed ∨ (σ.near = true ∧ (σ.next = some .dot ∨ σ.next = some .bracketOpen))
  | _, .elseBranches, _, σ => σ.Closed
  | _, .binaryRest _ _, e, σ => e = false ∧ σ.Closed
  | _, .statement, _, σ | _, .assignment, _, σ | _, .binary _, _, σ | _, .unary, _, σ => σ.Clear

/-- Whether a rule ends with what closes tightly. After a list or a sequence, blanks may have been placed. -/
def shuts : {α : Type} → Rule α → Bool
  | _, .items _ | _, .statements _ | _, .conditions _ => false
  | _, _ => true

/-- What is known in the end of a rule. -/
def Leaves {α : Type} (r : Rule α) (τ : Stance) : Prop := τ.begun = true ∧ (r.shuts = true → τ.shut = true)

end Rule

/-! ## Newlines and reports -/

theorem trims_reportFound {Q : Unit → Stance → Prop} (p : Problem) (d : Option Expectation) : Trims n e σ (reportFound p d) Q :=
  fun _ _ => .reportFound p d

theorem trims_reportAndAdvance {Q : Unit → Stance → Prop} (p : Problem) (d : Detail) : Trims n e σ (reportAndAdvance p d) Q :=
  fun _ _ => .reportAndAdvance p d

/-- A rule does what its body does. -/
theorem Trims.body {r : Rule α} (h : ∀ m, Trims m e σ (grammar r) Q) : Trims n e σ (rule r) Q := fun s hs => .rule fun m _ => h m s hs

/-- Where no newline comes next, none is read. -/
theorem Trims.newlines_clear {k : Kind} {f : Unit → Routine α} (hk : σ.next = some k) (hne : k ≠ .newline)
    (h : Trims n e σ (f ()) Q) : Trims n e σ (Parser.newlines >>= f) Q := by
  have hbody (m : Nat) : Trims m e σ newlinesBody fun _ τ => τ = σ := by
    refine .peekIs_next hk ?_
    rw [beq_false_of_ne hne]
    exact .done rfl
  exact Trims.bind (.body hbody) fun _ τ hτ => hτ ▸ h

/-- After newlines the next token is known, and it is none. -/
theorem trims_newlines (hσ : σ.begun = true) : Trims n e σ Parser.newlines fun _ τ =>
    τ.Clear ∧ τ.begun = true ∧ τ.pending = σ.pending := by
  induction n generalizing σ with
  | zero => exact fun s _ => .rule fun m hm => by cases hm
  | succ n ih =>
    have hbody : Trims n e σ newlinesBody fun _ τ => τ.Clear ∧ τ.begun = true ∧ τ.pending = σ.pending :=
      .peekIs (.advance_begun hσ (ih rfl)) fun k hk => .done ⟨⟨k, rfl, hk⟩, hσ, rfl⟩
    exact fun s hs => .rule fun m hm => by cases hm; exact hbody s hs

theorem Trims.newlines {f : Unit → Routine α} (hσ : σ.begun = true)
    (h : ∀ k, k ≠ .newline → Trims n e { next := some k, begun := true, pending := σ.pending } (f ()) Q) :
    Trims n e σ (Parser.newlines >>= f) Q := by
  refine (trims_newlines hσ).bind fun _ τ hτ s hs => ?_
  obtain ⟨⟨k, hk, hne⟩, hbegun, hpending⟩ := hτ
  refine h k hne s (hs.weaken (fun j hj => ?_) (fun _ => hbegun) nofun nofun fun hσ => hpending.trans hσ)
  cases hj
  exact ⟨(hs.next k hk).ready, (hs.next k hk).kind, nofun, nofun⟩

/-- The mate of an open delimiter is there: no silent run goes on without it. -/
theorem trims_close {closer : Kind} (hk : closer ≠ .newline) (hpending : σ.pending = true) :
    Trims n e σ (close closer) fun _ τ => τ.Closed := by
  have htaken : Trims n e (σ.facing closer) (do advance; act .popDelimiter) fun _ τ => τ.Closed := by
    refine .advance rfl hk (.act (f := pure) fun s b t _ hs hperform _ => ?_)
    cases hperform
    have hweak : s.Stands e (.after {} true) := hs.weaken nofun (fun _ => rfl) (fun _ => rfl) nofun nofun
    exact ⟨⟨rfl, rfl⟩, _, hweak.congr rfl rfl rfl rfl nofun, .done ⟨rfl, rfl⟩⟩
  refine fun s hs => accepts_mate (hs.pending hpending) fun patience hkind => ?_
  have hlook := hs.look
  rw [hkind] at hlook
  have hlooked : State.Stands e (σ.facing closer) { s.skip with patience } := hlook.congr rfl rfl rfl rfl hlook.pending
  exact (htaken _ hlooked).imp fun _ _ ht => ⟨(s.still_looked patience).frame.trans ht.1, ht.2⟩

/-- What is assigned to passes the check in every silent run. -/
theorem trims_checkTarget (k : Kind) : Trims n e σ (checkTarget k) fun _ τ => τ = σ := by
  unfold checkTarget
  split
  case h_5 => exact .reportTarget (f := pure)
  all_goals exact .done rfl

/-! ## Strings -/

/-- The inside of a template is placed in its node. -/
theorem trims_templateParts (hσ : σ.begun = true) : Trims n e σ (rule .templateParts) fun _ τ => τ.begun = true := by
  induction n generalizing σ with
  | zero => exact fun s _ => .rule fun m hm => by cases hm
  | succ n ih =>
    have hbody : Trims n e σ templatePartsBody fun _ τ => τ.begun = true := by
      refine .peekRaw (fun k _ => ?_) fun k _ => ?_
      all_goals
        split
        · exact .advance_begun hσ (ih rfl)
        · exact .advance_begun hσ (ih rfl)
        · exact .done hσ
    exact fun s hs => .rule fun m hm => by cases hm; exact hbody s hs

/-- A template ends with what closes it. -/
theorem trims_template (hσ : σ.next = some .templateOpen) : Trims n e σ template fun _ τ => τ.Closed := by
  refine .shaped hσ fun s hs => ?_
  have hopen := hs.next .templateOpen hσ
  cases hunread : s.unread with
  | nil => exact absurd hopen.kind (by simp [State.nextKind, hunread])
  | cons o rest =>
    have ho : o.kind = .templateOpen := by simpa [State.nextKind, hunread] using hopen.kind
    obtain ⟨inner, c, more, rfl, hinner, hc⟩ := hs.whole o rest (hunread ▸ List.suffix_refl _) ho
    have hclose : Trims n false { next := some .templateClose, begun := true } (do if (← peekRaw) = .templateClose then advance)
        fun _ τ => τ.Closed :=
      .peekRaw_next rfl (.advance (f := pure) rfl (by decide) (.done ⟨rfl, rfl⟩))
    refine .advance hunread fun _ => .bind ?_
    have htaken := hs.taken none hunread (by rw [ho]; decide) fun j hj => by cases hj
    refine ((trims_templateParts rfl _ htaken).and (accepts_templateParts hinner hc rfl)).imp fun _ t ht => ?_
    obtain ⟨⟨hframe, τ, hτ, hstands⟩, hrest, -⟩ := ht
    have hnext : Next .templateClose t.unread := by
      rw [hrest]
      exact hc
    have hstands' : t.Stands false { next := some .templateClose, begun := true } := by
      refine hstands.weaken (fun k hk => ?_) (fun _ => hτ) (fun h => by cases h) (fun h => by cases h) fun h => by cases h
      cases hk
      exact ⟨State.ready_of_next (by decide) hnext, State.nextKind_of_next hnext, (fun h => by cases h), fun j hj => by cases hj⟩
    exact (hclose t hstands').imp fun _ _ hu => ⟨⟨(hframe.trans hu.1).label, (hframe.trans hu.1).below⟩, hu.2⟩

/-- The inside of a string ends with its closing quote, or with some other token that is neither trivia nor a newline. -/
theorem trims_stringParts (hσ : σ.Closed) : Trims n e σ (rule .stringParts) fun _ τ => τ.Closed := by
  induction n generalizing σ with
  | zero => exact fun s _ => .rule fun m hm => by cases hm
  | succ n ih =>
    have hbody : Trims n e σ stringPartsBody fun _ τ => τ.Closed := by
      refine .peekRaw (fun k hk => ?_) fun k hk => ?_
      · split
        · exact .advance rfl hk.2 (ih ⟨rfl, rfl⟩)
        · exact .advance rfl hk.2 (ih ⟨rfl, rfl⟩)
        · exact (trims_template rfl).seq fun _ => ih ⟨rfl, rfl⟩
        · exact .advance (f := pure) rfl hk.2 (.done ⟨rfl, rfl⟩)
        · exact .done ⟨hσ.begun, hσ.shut⟩
      · split
        case h_5 => exact .done ⟨hσ.begun, hσ.shut⟩
        all_goals exact absurd (by decide) hk
    exact fun s hs => .rule fun m hm => by cases hm; exact hbody s hs

theorem trims_string (hσ : σ.next = some .doubleQuote) : Trims n e σ string fun _ τ => τ.Closed := by
  refine .shaped hσ (.require_next hσ (.advance hσ (by decide) ?_))
  exact (trims_stringParts ⟨rfl, rfl⟩).bind fun _ _ hτ => .done hτ

/-! ## Literals and paths -/

/-- A literal of one token, with the sign of a number before it. -/
theorem trims_simpleLiteral {j : Kind} (k : Kind) (hj : σ.next = some j) (hne : j ≠ .newline)
    (hsigned : j = .minus → ∃ number, σ.second = some number ∧ Solid number) : Trims n e σ (simpleLiteral k) fun _ τ => τ.Closed := by
  refine .shaped hj (.peekIs_next hj ?_)
  by_cases hminus : j = .minus
  · obtain ⟨number, hsecond, hnumber⟩ := hsigned hminus
    rw [beq_iff_eq.mpr hminus]
    refine .advance_to (some number) hj hne (fun _ h => by cases h; exact ⟨hnumber, hsecond⟩) ?_
    exact .advance rfl hnumber.2 (.done ⟨rfl, rfl⟩)
  · rw [beq_false_of_ne hminus]
    exact .advance hj hne (.done ⟨rfl, rfl⟩)

theorem trims_literal {k : Kind} (hk : σ.next = some k) : Trims n e σ literal fun _ τ => τ.Closed := by
  refine .peek_next hk ?_
  split
  case h_3 =>
    refine .signs (trims_simpleLiteral _ hk (by decide) fun _ => ⟨_, rfl, by decide⟩) (.signs ?_ ?_)
    · exact trims_simpleLiteral _ hk (by decide) fun _ => ⟨_, rfl, by decide⟩
    · exact .never (trims_reportAndAdvance _ _)
  case h_4 => exact trims_string hk
  case h_11 => exact .fail _
  all_goals exact trims_simpleLiteral _ hk (by decide) nofun

theorem trims_fieldName {k : Kind} (hk : σ.next = some k) (hne : k ≠ .newline) : Trims n e σ fieldName fun _ τ => τ.Closed := by
  refine .peekIs_next hk ?_
  by_cases hquote : k = .doubleQuote
  · subst hquote
    exact (trims_string hk).bind fun _ _ hτ => .done hτ
  · rw [beq_false_of_ne hquote]
    exact .advance (f := pure) hk hne (.done ⟨rfl, rfl⟩)

theorem ne_newline_of_isFieldName {k : Kind} (h : (k.isFieldName || k = .doubleQuote) = true) : k ≠ .newline := by
  rintro rfl
  cases h

theorem trims_fieldSegment (hσ : σ.next = some .dot) : Trims n e σ fieldSegment fun _ τ => τ.Closed := by
  have hmissing {σ : Stance} : Trims n false σ (reportFound .invalidPathContinuation (some .fieldAfterDot)) fun _ τ => τ.Closed :=
    trims_reportFound _ _
  refine .shaped hσ (.require_next hσ (.advance hσ (by decide) (.peek fun k => ?_)))
  split
  · rename_i hk
    exact .touches rfl (trims_fieldName rfl (ne_newline_of_isFieldName hk)) hmissing
  · exact hmissing

theorem trims_indexSegment (hσ : σ.next = some .bracketOpen) : Trims n e σ indexSegment fun _ τ => τ.Closed := by
  have hend {σ : Stance} (hbegun : σ.begun = true) (hpending : σ.pending = true) :
      Trims n false σ (do newlines; close .bracketClose) fun _ τ => τ.Closed :=
    .newlines hbegun fun k _ => trims_close (by decide) hpending
  have hmissing {σ : Stance} : Trims n false σ (do reportFound .unexpectedToken (some .indexInteger); newlines; close .bracketClose)
      fun _ τ => τ.Closed :=
    .never (trims_reportFound _ _)
  refine .shaped hσ (.pushDelimiter hσ (.advance hσ (by decide) (.newlines rfl fun k _ => .peek_next rfl ?_)))
  split
  · exact .advance rfl (by decide) (hend rfl rfl)
  · refine .signs (.advance_to (some .integer) rfl (by decide) ?_ (.advance rfl (by decide) (hend rfl rfl))) hmissing
    rintro _ ⟨⟩
    exact ⟨by decide, rfl⟩
  · exact hmissing

/-- Whether a path segment touches what was just read is known from then on. -/
theorem Trims.atSegment {f : Bool → Routine α} (htrue : ∀ k, k = .dot ∨ k = .bracketOpen → Trims n e { σ.facing k with near := true } (f true) Q)
    (hfalse : ∀ k, Trims n e (σ.facing k) (f false) Q) : Trims n e σ (Parser.atSegment >>= f) Q := by
  rw [atSegment_bind]
  refine .peek fun k => ?_
  split
  · rename_i hk
    exact .touches rfl (htrue k (by simpa using hk)) (hfalse k)
  · exact hfalse k

/-- A path segment is known to touch what was just read. -/
theorem Trims.atSegment_near {k : Kind} {f : Bool → Routine α} (hk : σ.next = some k) (hsegment : k = .dot ∨ k = .bracketOpen)
    (hnear : σ.near = true) (h : Trims n e σ (f true) Q) : Trims n e σ (Parser.atSegment >>= f) Q := by
  rw [atSegment_bind]
  refine .peek_next hk ?_
  rw [if_pos (by simpa using hsegment)]
  exact .touches_near hk hnear h

/-! ## The routines of the grammar -/

section Grammar

variable (he : ∀ {γ : Type} (rule : Rule γ) (e : Bool) (σ : Stance), rule.Enters e σ →
  Trims n e σ (Parser.rule rule) fun _ τ => rule.Leaves τ)

include he

/-- A rule that ends with what closes tightly. -/
theorem trims_rule (r : Rule α) (hshuts : r.shuts = true) (hr : r.Enters e σ) : Trims n e σ (rule r) fun _ τ => τ.Closed :=
  (he r e σ hr).imp fun _ _ hτ => ⟨hτ.1, hτ.2 hshuts⟩

/-- After a rule as much is known of the frame as the rule leaves, and the delimiters that were open still are. -/
theorem trims_kept (r : Rule α) (hwraps : r.wraps = false) (hr : r.Enters e σ) :
    Trims n e σ (rule r) fun _ τ => τ = σ.after r.shuts := by
  have hscoped : Scoped (runRule n) false (rule r) := hwraps ▸ scoped_runRule n r
  refine fun s hs => ((he r e σ hr s hs).and (.scoped hscoped)).imp fun b t ht => ?_
  obtain ⟨⟨hframe, τ, hτ, hstands⟩, hkept⟩ := ht
  refine ⟨hframe, _, rfl, hstands.whole, hstands.neat, hstands.opens, nofun, fun _ => hstands.begun hτ.1,
    fun hσ => hstands.shut (hτ.2 hσ), nofun, fun hσ => ?_⟩
  rw [hkept.delimiters]
  exact hs.pending hσ

theorem trims_after (r : Rule β) (hwraps : r.wraps = false) (hr : r.Enters e σ) {f : β → Routine α}
    (h : ∀ b, Trims n e (σ.after r.shuts) (f b) Q) : Trims n e σ (rule r >>= f) Q :=
  (trims_kept he r hwraps hr).bind fun b _ hτ => hτ ▸ h b

/-! Paths. -/

theorem trims_pathSegmentsBody (hσ : Rule.pathSegments.Enters e σ) : Trims n e σ pathSegmentsBody fun _ τ => τ.Closed := by
  have hmore {σ : Stance} {k : Kind} (hk : σ.next = some k) (hsegment : k = .dot ∨ k = .bracketOpen) : Trims n e σ (do
      if ← peekIs .dot then fieldSegment else indexSegment
      rule .pathSegments) fun _ τ => τ.Closed := by
    have hrest (b : Unit) : Trims n e (Stance.after {} true) (rule .pathSegments) fun _ τ => τ.Closed :=
      trims_rule he _ rfl (.inl ⟨rfl, rfl⟩)
    refine .peekIs_next hk ?_
    rcases hsegment with rfl | rfl
    · exact (trims_fieldSegment hk).seq hrest
    · exact (trims_indexSegment hk).seq hrest
  rcases hσ with hσ | ⟨hnear, hdot | hbracket⟩
  · exact .atSegment (fun k hk => hmore rfl hk) fun _ => .done ⟨hσ.begun, hσ.shut⟩
  · exact .atSegment_near hdot (.inl rfl) hnear (hmore hdot (.inl rfl))
  · exact .atSegment_near hbracket (.inr rfl) hnear (hmore hbracket (.inr rfl))

theorem trims_externalQuery {k : Kind} (hk : σ.next = some k) (hne : k ≠ .newline) : Trims n e σ externalQuery fun _ τ => τ.Closed := by
  have hloose {σ : Stance} (hσ : σ.Closed) : Trims n false σ (do
      if ← atSegment then
        report .invalidPathContinuation (some (.expected .segmentAfterRoot))
        node .path (rule .pathSegments)
      return Kind.query) fun _ τ => τ.Closed :=
    .atSegment (fun _ _ => .report) fun _ => .done ⟨hσ.begun, hσ.shut⟩
  have hrest (b : Unit) : Trims n false (Stance.after {} true) (rule .pathSegments) fun _ τ => τ.Closed :=
    trims_rule he _ rfl (.inl ⟨rfl, rfl⟩)
  refine .shaped hk (.advance hk hne ?_)
  rw [atFirstSegment_bind]
  refine .peek fun j => ?_
  split
  · rename_i hj
    refine .touches rfl (.seq (.shaped rfl (.peekIs_next rfl ?_)) fun _ => .done ⟨rfl, rfl⟩) (hloose ⟨rfl, rfl⟩)
    by_cases hbracket : j = .bracketOpen
    · subst hbracket
      exact (trims_indexSegment rfl).seq hrest
    · rw [beq_false_of_ne hbracket]
      have hname : (j.isFieldName || j = .doubleQuote) = true := by simpa [hbracket] using hj
      exact (Trims.shaped rfl (trims_fieldName rfl (ne_newline_of_isFieldName hname))).seq hrest
  · exact hloose ⟨rfl, rfl⟩

/-- A term whose path touches it becomes a query. -/
theorem trims_continuePath (k : Kind) (hσ : σ.Closed) : Trims n false σ (continuePath k) fun _ τ => τ.Closed := by
  unfold continuePath
  split
  · refine .atSegment (fun j hj => .bind (.wrapped (.imp (.shaped rfl ?_) fun _ _ hτ => ⟨hτ.shut, rfl, rfl⟩)) fun _ _ hτ => .done hτ)
      fun _ => .done ⟨hσ.begun, hσ.shut⟩
    exact trims_rule he _ rfl (.inr ⟨rfl, hj.imp (congrArg some) (congrArg some)⟩)
  · exact .done hσ

/-! Containers, calls and terms. -/

omit he in
/-- What an expression begins with is no newline. -/
theorem ne_newline_of_contains {ks : KindSet} {k : Kind} (h : ks.contains k = true) (hks : ks.contains .newline = false) : k ≠ .newline := by
  rintro rfl
  rw [hks] at h
  cases h

theorem trims_group (hσ : σ.next = some .parenOpen) : Trims n e σ group fun _ τ => τ.Closed := by
  refine .shaped hσ (.pushDelimiter hσ (.advance hσ (by decide) (.bind (P := fun _ τ => τ.Closed) (.separating rfl ?_)
    fun _ _ hτ => .done hτ)))
  refine .peek fun k => .ite (fun hk => trims_after he .assignment rfl ⟨k, rfl, ?_⟩ fun _ => ?_) fun _ => .never (trims_reportFound _ _)
  · rintro rfl
    cases hk
  · exact (trims_close (by decide) rfl).imp fun _ _ hτ => ⟨hτ.begun, hτ.begun, hτ.shut⟩

/-- A list between its delimiters. -/
theorem trims_delimited {opener : Kind} (list : ItemList) (hopener : opener ≠ .newline) (hσ : σ.next = some opener) :
    Trims n e σ (delimited opener list) fun _ τ => τ.Closed := by
  refine .pushDelimiter hσ (.advance hσ hopener (.separating rfl ?_))
  refine trims_after he (.items list) rfl ?_ fun _ => .imp (trims_close ?_ rfl) fun _ _ hτ => ⟨hτ.begun, hτ.begun, hτ.shut⟩
  · rfl
  cases list <;> decide

theorem trims_array (hσ : σ.next = some .bracketOpen) : Trims n e σ array fun _ τ => τ.Closed :=
  .shaped hσ (.bind (trims_delimited he _ (by decide) hσ) fun _ _ hτ => .done hτ)

theorem trims_object (hσ : σ.next = some .braceOpen) : Trims n e σ object fun _ τ => τ.Closed :=
  .shaped hσ (.bind (trims_delimited he _ (by decide) hσ) fun _ _ hτ => .done hτ)

theorem trims_block : Trims n e σ block fun _ τ => τ.Closed := by
  refine .peekIs (.shaped rfl (.pushDelimiter rfl (.advance rfl (by decide) ?_))) fun _ _ => .never (trims_reportFound _ _)
  refine Trims.bind (P := fun _ τ => τ.pending = true) (.separating rfl ?_) fun _ _ hτ => ?_
  · refine .imp (trims_kept he (.statements (some .braceClose)) rfl rfl) fun _ τ hτ => ?_
    subst hτ
    exact ⟨rfl, rfl⟩
  · exact (trims_close (by decide) hτ).bind fun _ _ hτ => .done hτ

theorem trims_element : Trims n e σ element fun _ τ => τ.Closed := by
  refine .peek fun k => .ite (fun hk => ?_) fun _ => .never (trims_reportFound _ _)
  exact (trims_rule he (.binary 0) rfl ⟨k, rfl, ne_newline_of_contains hk rfl⟩).bind fun _ _ hτ => .done hτ

theorem trims_entry : Trims n e σ entry fun _ τ => τ.Closed := by
  refine .peekIs (.bind (.shaped rfl ((trims_string rfl).seq fun _ => ?_)) fun _ _ hτ => .done hτ) fun _ _ => .never (trims_reportFound _ _)
  refine .newlines rfl fun k _ => .eat (by decide) (.newlines rfl fun _ _ => ?_) fun _ _ => .report (f := pure)
  exact (trims_element he).bind fun _ _ hτ => .done hτ

theorem trims_argument : Trims n e σ argument fun _ τ => τ.Closed := by
  refine .peek fun k => ?_
  split
  · rename_i hk
    refine .ahead fun b => .ite (fun _ => .bind (.shaped rfl (.advance rfl ?_ ?_)) fun _ _ hτ => .done hτ) fun _ => trims_element he
    · rintro rfl
      cases hk
    · refine .eat (by decide) (.newlines rfl fun _ _ => ?_) fun _ _ => .newlines rfl fun _ _ => ?_
      · exact (trims_element he).bind fun _ _ hτ => .done hτ
      · exact (trims_element he).bind fun _ _ hτ => .done hτ
  · exact trims_element he

omit he in
theorem trims_parameter : Trims n e σ parameter fun _ τ => τ.Closed := by
  refine .peek fun k => .ite (fun hk => .advance rfl ?_ (.done ⟨rfl, rfl⟩)) fun _ => .never (trims_reportFound _ _)
  rintro rfl
  cases hk

theorem trims_item (list : ItemList) : Trims n e σ (item list) fun _ τ => τ.Closed := by
  cases list with
  | elements => exact trims_element he
  | entries => exact trims_entry he
  | arguments => exact trims_argument he
  | parameters => exact trims_parameter

theorem trims_itemsBody (list : ItemList) (hσ : σ.begun = true) : Trims n e σ (itemsBody list) fun _ τ => τ.begun = true := by
  refine .newlines hσ fun k hne => .stopped fun _ => .ite (fun _ => .done rfl) fun _ => .peekIs_next rfl (.ite (fun _ => .done rfl)
    fun _ => (trims_item he list).seq fun _ => .ite (fun _ => .newlines rfl fun _ _ => ?_) fun _ => .done rfl)
  refine .eat (by decide) (.imp (he (.items list) e _ ?_) fun _ _ hτ => hτ.1) fun _ _ => .done rfl
  rfl

/-- The parameters of a closure may begin with blanks. -/
theorem trims_closure (hσ : σ.next = some .arrow) : Trims n e σ closure fun _ τ => τ.Closed := by
  have hafter {τ : Stance} (hτ : τ.Closed) : τ.shut = true ∧ ((σ.inside false |>.taken .arrow none).around τ).Closed := ⟨hτ.shut, rfl, rfl⟩
  refine .shaped hσ (.advance hσ (by decide) (.bind (P := fun _ τ => τ.Closed) (.node (.inr ⟨rfl, rfl, .inl rfl⟩)
    (.imp (Q := fun _ τ => τ.Closed) (.peek fun k => ?_) fun _ _ => hafter)) fun _ τ hτ => ?_))
  · split
    · exact .advance (f := pure) rfl (by decide) (.done ⟨rfl, rfl⟩)
    · refine .pushDelimiter rfl (.advance rfl (by decide) (trims_after he (.items .parameters) rfl ?_ fun _ => trims_close (by decide) rfl))
      rfl
    · exact trims_reportFound _ _
  · refine .checkParameters (.newlines hτ.begun fun _ _ => ?_)
    exact (trims_block he).bind fun _ _ hτ => .done hτ

/-- Arguments in parentheses: where the next token is known, or after a `!`. -/
theorem trims_argumentList (hσ : σ.next ≠ none ∨ σ.begun = true ∧ σ.called = true) : Trims n e σ argumentList fun _ τ => τ.Closed := by
  have hbody (e : Bool) : Trims n e (σ.inside e) (do require .parenOpen; delimited .parenOpen .arguments) fun _ τ =>
      τ.shut = true ∧ (σ.around τ).Closed :=
    .require (.imp (trims_delimited he _ (by decide) rfl) fun _ _ hτ => ⟨hτ.shut, rfl, rfl⟩)
  rcases hσ with hσ | ⟨hbegun, hcalled⟩
  · exact .node (.inl ⟨rfl, hσ⟩) (hbody false)
  · exact .node (.inr ⟨rfl, hbegun, .inr ⟨rfl, hcalled⟩⟩) (hbody true)

theorem trims_identOrCall (hσ : σ.next = some .id) : Trims n e σ identOrCall fun _ τ => τ.Closed := by
  have hrest (b : Unit) : Trims n false (Stance.after {} true) (do
      if ← peekIs .arrow then closure
      return Kind.functionCall) fun _ τ => τ.Closed :=
    .peekIs ((trims_closure he rfl).bind fun _ _ hτ => .done hτ) fun _ _ => .done ⟨rfl, rfl⟩
  refine .require_next hσ (.ahead fun b => .ite (fun _ => .shaped hσ (.advance hσ (by decide) ?_)) fun _ =>
    .shaped hσ (.advance hσ (by decide) (.done ⟨rfl, rfl⟩)))
  refine .eat (by decide) (.seq (trims_argumentList he (.inr ⟨rfl, ?_⟩)) hrest) fun k _ =>
    .seq (trims_argumentList he (.inl (Option.some_ne_none k))) hrest
  simp [Stance.taken]

omit he in
theorem trims_missingOperand {Q : Unit → Stance → Prop} : Trims n e σ missingOperand Q := fun _ _ => .missingOperand

theorem trims_objectOrBlock (hσ : σ.next = some .braceOpen) : Trims n e σ objectOrBlock fun _ τ => τ.Closed :=
  .require_next hσ (.ahead fun _ => .ite (fun _ => trims_object he hσ) fun _ => trims_block he)

theorem trims_term (hσ : σ.Clear) : Trims n e σ term fun _ τ => τ.Closed := by
  obtain ⟨k, hk, hne⟩ := hσ
  have hpath (j : Kind) : Trims n false (Stance.after {} true) (continuePath j) fun _ τ => τ.shut = true ∧ (σ.around τ).Closed :=
    (trims_continuePath he j ⟨rfl, rfl⟩).imp fun _ _ hτ => ⟨hτ.shut, rfl, rfl⟩
  refine .nested (.marked hk (.peek_next hk ?_))
  split
  · exact .seq (trims_externalQuery he hk hne) hpath
  · exact .seq (trims_externalQuery he hk hne) hpath
  case h_13 => exact .seq (trims_group he hk) hpath
  case h_14 => exact .seq (trims_array he hk) hpath
  case h_15 => exact .seq (trims_objectOrBlock he hk) hpath
  case h_16 => exact .seq (trims_identOrCall he hk) hpath
  case h_17 => exact .never trims_missingOperand
  all_goals exact .seq (trims_literal hk) hpath

/-! Operators. -/

theorem trims_unaryBody (hσ : σ.Clear) : Trims n e σ unaryBody fun _ τ => τ.Closed := by
  obtain ⟨k, hk, hne⟩ := hσ
  refine .newlines_clear hk hne (.peekIs_next hk ?_)
  by_cases hbang : k = .bang
  · subst hbang
    refine .nested (.shaped hk (.advance hk hne (.newlines rfl fun j hj => ?_)))
    exact .bind (trims_rule he .unary rfl ⟨j, rfl, hj⟩) fun _ _ hτ => .done hτ
  · rw [beq_false_of_ne hbang]
    exact trims_term he ⟨k, hk, hne⟩

theorem trims_binaryBody (min : Nat) (hσ : σ.Clear) : Trims n e σ (binaryBody min) fun _ τ => τ.Closed := by
  obtain ⟨k, hk, hne⟩ := hσ
  refine .marked hk (.seq (trims_rule he .unary rfl ⟨k, hk, hne⟩) fun lhs => ?_)
  exact .imp (trims_rule he (.binaryRest min lhs) rfl ⟨rfl, rfl, rfl⟩) fun _ _ hτ => ⟨hτ.shut, rfl, rfl⟩

theorem trims_binaryRestBody (min : Nat) (lhs : Kind) (hσ : σ.Closed) : Trims n false σ (binaryRestBody min lhs) fun _ τ => τ.Closed := by
  refine .peek fun k => ?_
  split
  · exact .done ⟨hσ.begun, hσ.shut⟩
  · rename_i op hop
    have hne : k ≠ .newline := by
      rintro rfl
      cases hop
    refine .ite (fun _ => .done ⟨hσ.begun, hσ.shut⟩) fun _ => .nested (.seq (.folded (.advance rfl hne (.newlines rfl fun j hj => ?_)))
      fun _ => trims_rule he _ rfl ⟨rfl, rfl, rfl⟩)
    exact .bind (trims_rule he (.binary _) rfl ⟨j, rfl, hj⟩) fun _ _ hτ => .done hτ

/-! Statements. -/

theorem trims_assignedValue (hσ : σ.begun = true) : Trims n e σ assignedValue fun _ τ => τ.Closed := by
  refine .newlines hσ fun k hne => .peek_next rfl (.ite (fun _ => ?_) fun _ => trims_reportFound _ _)
  exact .bind (trims_rule he .statement rfl ⟨k, rfl, hne⟩) fun _ _ hτ => .done hτ

theorem trims_target (hσ : σ.Clear) : Trims n e σ target fun _ τ => τ.Closed := by
  obtain ⟨k, hk, hne⟩ := hσ
  refine .peekIs_next hk (.ite (fun _ => .shaped hk (.advance hk hne (.done ⟨rfl, rfl⟩))) fun _ => ?_)
  exact trims_rule he _ rfl ⟨k, hk, hne⟩

theorem trims_assignment (hσ : σ.Clear) : Trims n e σ assignment fun _ τ => τ.Closed := by
  obtain ⟨k, hk, hne⟩ := hσ
  have hassign {σ : Stance} {k : Kind} (hk : σ.next = some k) (hop : KindSet.assignOperators.contains k = true) :
      Trims n false σ (do advance; assignedValue) fun _ τ => τ.Closed :=
    .advance hk (ne_newline_of_contains hop rfl) (trims_assignedValue he rfl)
  have hdone {σ τ : Stance} (hτ : τ.Closed) : Trims n false τ (pure Kind.assignment) fun _ τ => τ.shut = true ∧ (σ.around τ).Closed :=
    .done ⟨hτ.shut, rfl, rfl⟩
  refine .marked hk (.seq (trims_target he ⟨k, hk, hne⟩) fun lhs => .peek fun j => .ite (fun hj => ?_) fun _ => .ite (fun hj => ?_) fun _ => ?_)
  · refine .bind (trims_checkTarget lhs) fun _ τ hτ => ?_
    subst hτ
    exact .bind (.folded (hassign rfl hj)) fun _ _ hτ => hdone hτ
  · subst hj
    refine .bind (trims_checkTarget lhs) fun _ τ hτ => ?_
    subst hτ
    refine .seq (.folded (.advance rfl (by decide) (.newlines rfl fun i hi => .marked rfl (.seq (trims_target he ⟨i, rfl, hi⟩) fun err =>
      .imp (trims_checkTarget err) fun _ τ hτ => ?_)))) fun _ => ?_
    · subst hτ
      exact ⟨rfl, rfl, rfl⟩
    · exact .bind (.folded (.peek fun i => .ite (fun hi => hassign rfl hi) fun _ => trims_reportFound _ _)) fun _ _ hτ => hdone hτ
  · exact .ite (fun _ => .reportTarget) fun _ => .done ⟨rfl, rfl, rfl⟩



theorem trims_conditionsBody (count : Nat) (hσ : σ.begun = true) : Trims n e σ (conditionsBody count) fun _ τ => τ.begun = true := by
  have hmore {σ : Stance} (hσ : σ.begun = true) : Trims n e σ (do newlines; rule (.conditions (count + 1))) fun _ τ => τ.begun = true :=
    .newlines hσ fun _ _ => .imp (he (.conditions (count + 1)) e _ rfl) fun _ _ hτ => hτ.1
  refine .newlines hσ fun k hne => .stopped fun _ => .ite (fun _ => .done rfl) fun _ => .peekIs_next rfl (.ite (fun _ => .done rfl)
    fun _ => .peek_next rfl (.ite (fun _ => .never (trims_reportAndAdvance _ _)) fun _ => .ite (fun _ => ?_) fun _ =>
    .never (trims_reportFound _ _)))
  refine .seq (trims_rule he .assignment rfl ⟨k, rfl, hne⟩) fun _ => .peek fun j => ?_
  split
  · exact hmore rfl
  · exact .advance rfl (by decide) (hmore rfl)
  · exact .done rfl

omit he in
theorem trims_atContinuation (hσ : σ.Closed) : Trims n e σ atContinuation fun _ τ => τ.Closed := by
  refine .peek fun k => .ite (fun _ => .done ⟨hσ.begun, hσ.shut⟩) fun _ => .ite (fun _ => ?_) fun _ => .done ⟨hσ.begun, hσ.shut⟩
  exact .touches (f := pure) rfl (.done ⟨hσ.begun, hσ.shut⟩) (.done ⟨hσ.begun, hσ.shut⟩)

/-- A condition in parentheses, which may turn out to be a group. -/
theorem trims_parenthesised (hσ : σ.next = some .parenOpen) : Trims n e σ parenthesised fun _ τ => τ.Closed := by
  have hgrouped (τ : Stance) (hτ : τ.Closed) (b : Bool) : Trims n false τ (if b then (do
        wrapped .group (pure ())
        let k ← continuePath .group
        let _ ← rule (.binaryRest 0 k)) else pure ()) fun _ τ => τ.shut = true ∧ (σ.around τ).Closed := by
    refine .ite (fun _ => .seq (.folded (.done hτ)) fun _ => .seq (trims_continuePath he _ ⟨rfl, rfl⟩) fun k => ?_) fun _ =>
      .done ⟨hτ.shut, rfl, rfl⟩
    exact .bind (trims_rule he (.binaryRest 0 k) rfl ⟨rfl, rfl, rfl⟩) fun _ _ hτ => .done ⟨hτ.shut, rfl, rfl⟩
  refine .marked hσ (.pushDelimiter hσ (.advance hσ (by decide) (trims_after he (.conditions 0) rfl ?_ fun count =>
    .seq (trims_close (by decide) rfl) fun _ => ?_)))
  · rfl
  · split
    · exact .bind (trims_atContinuation ⟨rfl, rfl⟩) fun b τ hτ => hgrouped τ hτ b
    · exact hgrouped _ ⟨rfl, rfl⟩ false

theorem trims_predicate (hσ : σ.begun = true) : Trims n e σ predicate fun _ τ => τ.Closed := by
  refine .newlines hσ fun k hne => .shaped rfl (.peek_next rfl (.ite (fun hk => ?_) fun _ => .ite (fun _ => ?_) fun _ => trims_reportFound _ _))
  · subst hk
    exact trims_parenthesised he rfl
  · exact .bind (trims_rule he (.binary 0) rfl ⟨k, rfl, hne⟩) fun _ _ hτ => .done hτ

theorem trims_branch (hσ : σ.begun = true) : Trims n e σ branch fun _ τ => τ.Closed :=
  .bind (trims_predicate he hσ) fun _ _ hτ => .newlines hτ.begun fun _ _ => .bind (trims_block he) fun _ _ hτ => .done hτ

theorem trims_elseBranchesBody (hσ : σ.Closed) : Trims n e σ elseBranchesBody fun _ τ => τ.Closed := by
  refine .eat (by decide) (.newlines rfl fun _ _ => .eat (by decide) ?_ fun _ _ => ?_) fun _ _ => .done ⟨hσ.begun, hσ.shut⟩
  · exact .seq (trims_branch he rfl) fun _ => trims_rule he .elseBranches rfl ⟨rfl, rfl⟩
  · exact .bind (trims_block he) fun _ _ hτ => .done hτ

theorem trims_ifStatement (hσ : σ.next = some .kwIf) : Trims n e σ ifStatement fun _ τ => τ.Closed := by
  refine .shaped hσ (.require_next hσ (.advance hσ (by decide) (.seq (trims_branch he rfl) fun _ => ?_)))
  exact .bind (trims_rule he .elseBranches rfl ⟨rfl, rfl⟩) fun _ _ hτ => .done hτ

theorem trims_abortStatement (hσ : σ.next = some .kwAbort) : Trims n e σ abortStatement fun _ τ => τ.Closed := by
  refine .shaped hσ (.advance hσ (by decide) (.peek fun k => .ite (fun hk => ?_) fun _ => .done ⟨rfl, rfl⟩))
  exact .bind (trims_rule he .statement rfl ⟨k, rfl, ne_newline_of_contains hk rfl⟩) fun _ _ hτ => .done hτ

theorem trims_returnStatement (hσ : σ.next = some .kwReturn) : Trims n e σ returnStatement fun _ τ => τ.Closed := by
  refine .shaped hσ (.advance hσ (by decide) (.newlines rfl fun k hne => .peek_next rfl (.ite (fun _ => ?_) fun _ =>
    .never (trims_reportFound _ _))))
  exact .bind (trims_rule he .statement rfl ⟨k, rfl, hne⟩) fun _ _ hτ => .done hτ

theorem trims_statement (hσ : σ.Clear) : Trims n e σ statement fun _ τ => τ.Closed := by
  obtain ⟨k, hk, hne⟩ := hσ
  refine .nested (.peek_next hk ?_)
  split
  · exact trims_ifStatement he hk
  · exact trims_abortStatement he hk
  · exact trims_returnStatement he hk
  · exact trims_rule he .assignment rfl ⟨k, hk, hne⟩

omit he in
/-- In a silent run there is an end to every statement. -/
theorem trims_endOfStatement (closer : Option Kind) (hσ : σ.begun = true) :
    Trims n e σ (endOfStatement closer) fun b τ => b = true ∧ τ.begun = true := by
  refine .stopped fun _ => .ite (fun _ => .done ⟨rfl, hσ⟩) fun _ => .peek fun k => .ite (fun _ => .newlines hσ fun _ _ => .done ⟨rfl, rfl⟩)
    fun _ => .ite (fun hk => ?_) fun _ => .ite (fun _ => .done ⟨rfl, hσ⟩) fun _ => .never (trims_reportFound _ _)
  subst hk
  exact .advance rfl (by decide) (.newlines rfl fun _ _ => .done ⟨rfl, rfl⟩)

theorem trims_statementsBody (closer : Option Kind) (hσ : σ.begun = true) :
    Trims n e σ (statementsBody closer) fun _ τ => τ.begun = true := by
  refine .newlines hσ fun k hne => .stopped fun _ => .ite (fun _ => .done rfl) fun _ => .peek_next rfl (.ite (fun _ => .done rfl)
    fun _ => .ite (fun _ => .never (trims_reportAndAdvance _ _)) fun _ => .ite (fun _ => .never (trims_reportAndAdvance _ _)) fun _ =>
    .ite (fun _ => ?_) fun _ => .never (trims_reportFound _ _))
  refine .bind (P := fun _ τ => τ.begun = true) (.seq (trims_rule he .statement rfl ⟨k, rfl, hne⟩) fun _ =>
    .bind (trims_endOfStatement closer rfl) fun b τ hτ => ?_) fun _ _ hτ => .imp (he (.statements closer) e _ hτ) fun _ _ hτ => hτ.1
  rw [hτ.1]
  exact .done hτ.2

end Grammar

/-! ## All rules -/

/-- What every rule leaves is tight, by induction on the bound on nested rules. -/
theorem trims_runRule (n : Nat) (r : Rule α) (e : Bool) (σ : Stance) (hr : r.Enters e σ) : Trims n e σ (rule r) fun _ τ => r.Leaves τ := by
  induction n generalizing α e σ with
  | zero => exact fun s _ => .rule fun m hm => by cases hm
  | succ n ih =>
    have hbody (h : Trims n e σ (grammar r) fun _ τ => r.Leaves τ) : Trims (n + 1) e σ (rule r) fun _ τ => r.Leaves τ :=
      fun s hs => .rule fun m hm => by cases hm; exact h s hs
    have hclosed {x : Routine α} (h : Trims n e σ x fun _ τ => τ.Closed) : Trims n e σ x fun _ τ => r.Leaves τ :=
      h.imp fun _ _ hτ => ⟨hτ.begun, fun _ => hτ.shut⟩
    have hbegun {x : Routine α} (hr : r.shuts = false) (h : Trims n e σ x fun _ τ => τ.begun = true) :
        Trims n e σ x fun _ τ => r.Leaves τ :=
      h.imp fun _ _ hτ => ⟨hτ, fun hshuts => by rw [hr] at hshuts; cases hshuts⟩
    refine hbody ?_
    cases r with
    | newlines | absorb | skipTo stops depth | stringParts | templateParts => exact hr.elim
    | items list => exact hbegun rfl (trims_itemsBody (fun r e σ hr => ih r e σ hr) list hr)
    | statements closer => exact hbegun rfl (trims_statementsBody (fun r e σ hr => ih r e σ hr) closer hr)
    | conditions count => exact hbegun rfl (trims_conditionsBody (fun r e σ hr => ih r e σ hr) count hr)
    | pathSegments => exact hclosed (trims_pathSegmentsBody (fun r e σ hr => ih r e σ hr) hr)
    | elseBranches => exact hclosed (trims_elseBranchesBody (fun r e σ hr => ih r e σ hr) hr)
    | statement => exact hclosed (trims_statement (fun r e σ hr => ih r e σ hr) hr)
    | assignment => exact hclosed (trims_assignment (fun r e σ hr => ih r e σ hr) hr)
    | binary min => exact hclosed (trims_binaryBody (fun r e σ hr => ih r e σ hr) min hr)
    | unary => exact hclosed (trims_unaryBody (fun r e σ hr => ih r e σ hr) hr)
    | binaryRest min lhs =>
      obtain ⟨rfl, hσ⟩ := hr
      exact hclosed (trims_binaryRestBody (fun r e σ hr => ih r e σ hr) min lhs hσ)

end Remap.Parser
