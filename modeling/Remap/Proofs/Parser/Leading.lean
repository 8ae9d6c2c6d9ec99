import Remap.Proofs.Parser.Builds.Grammar
import Remap.Proofs.Parser.Enclosing

/-!
# Where a block begins

A brace opens an object if a closing brace comes after it, or a string and a colon, with blanks and newlines between. Where
statements come after it that are read silently, neither is the case: a string may begin a statement, but then no colon comes
after it (`isObject_of_statements`).
-/

namespace Remap.Parser

variable {α : Type} {n : Nat} {s : State}

/-- A colon comes next, perhaps after newlines, and these are not passed over as trivia. -/
structure ColonNext (s : State) : Prop where
  separating : s.separating = true
  colon : Lookahead.startsWith .colon (Lookahead.significant true s.unread) = true

/-- Passing over trivia makes no difference to what comes after trivia and newlines. -/
theorem significant_skip (hs : s.separating = true) : Lookahead.significant true s.skip.unread = Lookahead.significant true s.unread := by
  rw [State.unread_skip]
  generalize s.unread = ts
  induction ts with
  | nil => rfl
  | cons t ts ih =>
    by_cases ht : t.kind.isTrivia = true
    · rw [List.dropWhile_cons_of_pos (by simp [State.skips, ht]), ih, Lookahead.significant, Lookahead.significant,
        List.dropWhile_cons_of_pos (by simp [ht])]
    · rw [List.dropWhile_cons_of_neg (by simp [State.skips, ht, hs])]

namespace Accepts

variable {Q : α → State → Prop}

/-- Looking at the next token. -/
theorem peek {f : Kind → Routine α} (h : Accepts n (f s.looked.nextKind) s.looked Q) : Accepts n (Parser.peek >>= f) s Q := by
  refine .act fun _ k t hp _ => ?_
  obtain ⟨rfl, rfl⟩ := State.of_perform_peek hp
  exact h

theorem peekIs {k : Kind} {f : Bool → Routine α} (h : Accepts n (f (s.looked.nextKind == k)) s.looked Q) :
    Accepts n (Parser.peekIs k >>= f) s Q := by
  simp only [Parser.peekIs, Routine.bind_eq, Routine.pure_eq, Routine.bind_assoc]
  exact .peek h

/-- Where tokens are left, a silent run is not stopped. -/
theorem stopped {f : Bool → Routine α} (hs : s.unread ≠ []) (h : Accepts n (f false) s Q) : Accepts n (Parser.stopped >>= f) s Q := by
  refine .act fun _ b t hp hsilent => ?_
  cases hp
  rw [List.isEmpty_eq_false_iff.mpr hs, hsilent.fuelled]
  exact h

end Accepts

/-! ## Frames make no difference to what comes next -/

section Frames

variable {P : α → List Token → Bool → Prop}

theorem Accepts.marked {body : Routine α} (h : Accepts n body (s.pushed none) fun a t => P a t.unread t.separating) :
    Accepts n (Parser.marked body) s fun a t => P a t.unread t.separating := by
  refine .bind (.single fun _ _ _ hmark _ => ?_)
  cases hmark
  refine .bind (h.imp fun a t ha => .bind (.single fun _ _ u hunmark _ => .done ?_))
  simp only [Action.perform] at hunmark
  split at hunmark <;> cases hunmark
  exact ha

theorem Accepts.node' {k : Kind} {body : Routine α} (h : Accepts n body (s.pushed (some k)) fun a t => P a t.unread t.separating) :
    Accepts n (Parser.node k body) s fun a t => P a t.unread t.separating := by
  refine .bind (.single fun _ _ _ hopen _ => ?_)
  cases hopen
  refine .bind (h.imp fun a t ha => .bind (.single fun _ _ u hclose _ => .done ?_))
  simp only [Action.perform] at hclose
  split at hclose <;> cases hclose
  exact ha

theorem Accepts.nested {body : Routine Kind} {P : Kind → List Token → Bool → Prop}
    (h : Accepts n body s.deeper fun a t => P a t.unread t.separating) :
    Accepts n (Parser.nested body) s fun a t => P a t.unread t.separating := by
  refine .bind (.single fun hsteady entry t henter hsilent => ?_)
  obtain ⟨hover, -⟩ := hsteady.calm ((hushes_perform henter).silent hsilent).reports
  rw [State.perform_enter, if_neg (Bool.eq_false_iff.mp hover)] at henter
  split at henter
  · cases henter
    refine .bind (h.imp fun a t ha => .bind (.single fun _ _ u hleave _ => .done ?_))
    cases hleave
    exact ha
  · cases henter
    cases hsilent.reports

end Frames

/-! ## A colon ends the silence -/

namespace ColonNext

theorem unread_ne_nil (h : ColonNext s) : s.unread ≠ [] := by
  intro hnil
  have hcolon := h.colon
  rw [hnil] at hcolon
  cases hcolon

/-- A look finds the colon or a newline. -/
theorem looked (h : ColonNext s) : ColonNext s.looked ∧ (s.looked.nextKind = .colon ∨ s.looked.nextKind = .newline) := by
  have hcolon : Lookahead.startsWith .colon (Lookahead.significant true s.looked.unread) = true := by
    show Lookahead.startsWith .colon (Lookahead.significant true s.skip.unread) = true
    rw [significant_skip h.separating]
    exact h.colon
  have hseparating : s.looked.separating = true := by
    rw [State.looked, State.skip_eq]
    exact h.separating
  have hready : s.looked.Ready := s.ready_skip
  refine ⟨⟨hseparating, hcolon⟩, ?_⟩
  cases hunread : s.looked.unread with
  | nil =>
    rw [hunread] at hcolon
    cases hcolon
  | cons t rest =>
    rw [State.nextKind, hunread]
    by_cases hnewline : t.kind = .newline
    · exact .inr hnewline
    · have hskips : t.kind.isTrivia = false := by
        have := hready t rest hunread
        rw [State.skips, Bool.or_eq_false_iff] at this
        exact this.1
      rw [hunread, Lookahead.significant, List.dropWhile_cons_of_neg (by simp [hskips, hnewline])] at hcolon
      exact .inl (by simpa [Lookahead.startsWith] using hcolon)

end ColonNext

/-- A look lays leaves only. -/
theorem statementsOf_looked (s : State) : Tree.statementsOf s.looked.laid = Tree.statementsOf s.laid := by
  rw [State.looked, State.skip_eq]
  simp only [State.laid, Tree.statementsOf_append, Tree.statementsOf_leaves]

/-- Consuming a token lays leaves only. -/
theorem statementsOf_consumed (s : State) (t : Token) (rest : List Token) :
    Tree.statementsOf (s.consumed t rest).laid = Tree.statementsOf s.laid := by
  have hbuilt : (s.consumed t rest).laid = s.laid ++ [t].map Token.leaf := by simp [State.laid, State.consumed]
  rw [hbuilt, Tree.statementsOf_append, Tree.statementsOf_leaves, List.append_nil]

/-- Newlines are passed, and blanks between them. -/
theorem accepts_newlines_passed (hs : s.separating = true) :
    Accepts n newlines s fun _ t => t.separating = true ∧ t.unread = Lookahead.significant true s.unread ∧
      Tree.statementsOf t.laid = Tree.statementsOf s.laid := by
  induction n generalizing s with
  | zero => exact .rule fun m hm => by cases hm
  | succ n ih =>
    have hlooked : s.looked.separating = true := by
      rw [State.looked, State.skip_eq]
      exact hs
    have hsignificant : Lookahead.significant true s.looked.unread = Lookahead.significant true s.unread := significant_skip hs
    refine .rule fun m hm => ?_
    obtain rfl := Nat.succ.inj hm
    refine .peekIs ?_
    by_cases hk : s.looked.nextKind = .newline
    · rw [hk]
      cases hunread : s.looked.unread with
      | nil =>
        rw [State.nextKind, hunread] at hk
        cases hk
      | cons t rest =>
        rw [State.nextKind, hunread] at hk
        refine .advance (f := fun _ => newlines) hunread fun _ => (ih (s := s.looked.consumed t rest) hlooked).imp ?_
        rintro _ u ⟨hu, htail, hlaid⟩
        refine ⟨hu, ?_, by rw [hlaid, statementsOf_consumed, statementsOf_looked]⟩
        rw [htail, ← hsignificant, hunread]
        exact (List.dropWhile_cons_of_pos (by simp [hk])).symm
    · rw [beq_false_of_ne hk]
      refine .done ⟨hlooked, ?_, statementsOf_looked s⟩
      cases hunread : s.looked.unread with
      | nil => rw [← hsignificant, hunread]; rfl
      | cons t rest =>
        have hready : s.looked.Ready := s.ready_skip
        have hskips := hready t rest hunread
        rw [State.skips, Bool.or_eq_false_iff] at hskips
        rw [State.nextKind, hunread] at hk
        rw [← hsignificant, hunread]
        exact (List.dropWhile_cons_of_neg (by simpa [hskips.1] using hk)).symm

/-- No statements are read silently where a colon comes next. -/
theorem accepts_statements_colon {closer : Option Kind} {Q : Unit → State → Prop} (hcloser : ∀ k ∈ closer, k.isCloser = true)
    (h : ColonNext s) : Accepts n (rule (.statements closer)) s Q := by
  refine .rule fun m _ => ?_
  rw [grammar, statementsBody_eq]
  refine .bind ((accepts_newlines_passed h.separating).imp ?_)
  rintro _ t ⟨hseparating, hunread, -⟩
  have hcolon : Lookahead.startsWith .colon t.unread = true := by
    rw [hunread]
    exact h.colon
  obtain ⟨x, rest, hx, hkind⟩ : ∃ x rest, t.unread = x :: rest ∧ x.kind = .colon := by
    cases ht : t.unread with
    | nil => rw [ht] at hcolon; cases hcolon
    | cons x rest => exact ⟨x, rest, rfl, by simpa [Lookahead.startsWith, ht] using hcolon⟩
  have hnext : t.looked.nextKind = .colon := by
    rw [State.looked, State.skip_of_ready (ready_of_solid hx (by rw [hkind]; decide))]
    simp only [State.nextKind, hx, hkind]
  have hother : closer ≠ some .colon := fun heq => by cases hcloser .colon heq
  refine .stopped (by rw [hx]; exact List.cons_ne_nil _ _) (.peek ?_)
  rw [hnext, if_neg hother]
  exact .never (.reportFound _ _)

/-- No statement ends silently where a colon comes next. -/
theorem accepts_afterStatement_colon {closer : Option Kind} {Q : Unit → State → Prop} (hcloser : ∀ k ∈ closer, k.isCloser = true)
    (h : ColonNext s) : Accepts n (afterStatement closer) s Q := by
  have hother : closer ≠ some .colon := fun heq => by cases hcloser .colon heq
  obtain ⟨hlooked, hnext⟩ := h.looked
  refine .stopped h.unread_ne_nil (.peek ?_)
  rcases hnext with hk | hk
  · rw [hk, if_neg (by decide), if_neg (by decide), if_neg hother]
    exact .never (.reportFound _ _)
  · rw [if_pos hk]
    refine .bind ((accepts_newlines_passed hlooked.separating).imp ?_)
    rintro _ t ⟨hseparating, hunread, -⟩
    refine accepts_statements_colon hcloser ⟨hseparating, ?_⟩
    have hagain : Lookahead.significant true (Lookahead.significant true s.looked.unread) = Lookahead.significant true s.looked.unread :=
      List.dropWhile_idempotent ..
    rw [hunread, hagain]
    exact hlooked.colon

/-! ## A string at the beginning -/

/-- A string and then a colon come next, with blanks and newlines between them, and newlines are not passed over as trivia. -/
structure KeyNext (s : State) : Prop where
  separating : s.separating = true
  key : ∃ q body e rest, s.unread = q :: (body ++ e :: rest) ∧ q.kind = .doubleQuote ∧ StringBody body ∧ e.kind = .doubleQuote ∧
    Lookahead.startsWith .colon (Lookahead.significant true rest) = true

namespace KeyNext

/-- A look finds the quote. -/
theorem looked (h : KeyNext s) : KeyNext s.looked ∧ s.looked.nextKind = .doubleQuote := by
  obtain ⟨q, body, e, rest, hunread, hq, hbody, he, hcolon⟩ := h.key
  rw [State.looked, State.skip_of_ready (ready_of_solid hunread (by rw [hq]; decide))]
  exact ⟨⟨h.separating, q, body, e, rest, hunread, hq, hbody, he, hcolon⟩, by simp only [State.nextKind, hunread, hq]⟩

theorem pushed (h : KeyNext s) (label : Option Kind) : KeyNext (s.pushed label) := by
  rw [State.pushed, State.drain_eq]
  exact ⟨h.separating, h.key⟩

theorem deeper (h : KeyNext s) : KeyNext s.deeper := ⟨h.separating, h.key⟩

/-- After a string literal comes the colon. -/
def After (k : Kind) (unread : List Token) (separating : Bool) : Prop :=
  k = .stringLit ∧ separating = true ∧ Lookahead.startsWith .colon (Lookahead.significant true unread) = true

theorem After.colonNext {k : Kind} {t : State} (h : After k t.unread t.separating) : ColonNext t := ⟨h.2.1, h.2.2⟩

theorem After.of_colonNext {t : State} (h : ColonNext t) : After .stringLit t.unread t.separating := ⟨rfl, h.separating, h.colon⟩

/-- The string is read up to its closing quote. -/
theorem string (h : KeyNext s) : Accepts n string s fun k t => After k t.unread t.separating := by
  obtain ⟨hkey, hkind⟩ := (h.pushed (some .stringLit)).looked
  obtain ⟨q, body, e, rest, hunread, hq, hbody, he, hcolon⟩ := hkey.key
  refine .node' ?_
  rw [require_bind]
  refine .peek ?_
  rw [if_pos hkind]
  refine .advance hunread fun _ => .bind (((accepts_stringParts hbody he rfl).and (.scoped (scoped_runRule n .stringParts))).imp ?_)
  rintro _ t ⟨⟨htail, -⟩, hkept⟩
  exact .done ⟨rfl, hkept.separating.trans hkey.separating, htail ▸ hcolon⟩

/-- No operator, path or assignment begins with the colon. -/
theorem term (h : KeyNext s) : Accepts n term s fun k t => After k t.unread t.separating := by
  rw [term_eq]
  refine .nested (.marked ?_)
  obtain ⟨h', hkind⟩ := (h.deeper.pushed none).looked
  refine .peek ?_
  rw [hkind]
  obtain ⟨h'', hkind'⟩ := h'.looked
  have hliteral : Accepts n literal (s.deeper.pushed none).looked fun k t => After k t.unread t.separating := by
    refine .peek ?_
    rw [hkind']
    exact h''.string
  refine .bind (hliteral.imp ?_)
  rintro k t hk
  obtain rfl := hk.1
  exact .done hk

theorem unary (h : KeyNext s) : Accepts n (rule .unary) s fun k t => After k t.unread t.separating := by
  refine .rule fun m _ => .bind ((accepts_newlines_passed h.separating).imp ?_)
  rintro _ t ⟨hseparating, hunread, -⟩
  have hkey : KeyNext t := by
    obtain ⟨q, body, e, rest, hs, hq, hbody, he, hcolon⟩ := h.key
    refine ⟨hseparating, q, body, e, rest, ?_, hq, hbody, he, hcolon⟩
    rw [hunread, hs]
    exact List.dropWhile_cons_of_neg (by rw [hq]; decide)
  obtain ⟨hkey', hkind⟩ := hkey.looked
  refine .peekIs ?_
  rw [hkind]
  exact hkey'.term

theorem binary (h : KeyNext s) : Accepts n (rule (.binary 0)) s fun k t => After k t.unread t.separating := by
  refine .rule fun m _ => .marked (.bind ((h.pushed none).unary.imp fun k t hk => .rule fun _ _ => .peek ?_))
  obtain rfl := hk.1
  obtain ⟨hcolon, hnext⟩ := hk.colonNext.looked
  rcases hnext with hnext | hnext <;> rw [hnext] <;> exact .done (.of_colonNext hcolon)

theorem assignment (h : KeyNext s) : Accepts n (rule .assignment) s fun k t => After k t.unread t.separating := by
  refine .rule fun m _ => .marked ?_
  obtain ⟨h', hkind⟩ := (h.pushed none).looked
  have htarget : Accepts m target (s.pushed none) fun k t => After k t.unread t.separating := by
    refine .peekIs ?_
    rw [hkind]
    exact h'.binary
  refine .bind (htarget.imp fun k t hk => .peek ?_)
  obtain rfl := hk.1
  obtain ⟨hcolon, hnext⟩ := hk.colonNext.looked
  rcases hnext with hnext | hnext <;> rw [hnext] <;> exact .done (.of_colonNext hcolon)

theorem statement (h : KeyNext s) : Accepts n (rule .statement) s fun k t => After k t.unread t.separating := by
  refine .rule fun m _ => .nested ?_
  obtain ⟨h', hkind⟩ := h.deeper.looked
  refine .peek ?_
  rw [hkind]
  exact h'.assignment

end KeyNext

/-! ## The brace opens a block -/

/-- No statement is read silently where a string comes next, and then a colon. -/
theorem KeyNext.accepts_atStatement {closer : Option Kind} {Q : Unit → State → Prop} (hcloser : ∀ k ∈ closer, k.isCloser = true)
    (h : KeyNext s) : Accepts n (atStatement closer) s Q := by
  have hother : closer ≠ some .doubleQuote := fun heq => by cases hcloser .doubleQuote heq
  obtain ⟨hkey, hkind⟩ := h.looked
  obtain ⟨q, body, e, rest, hunread, -⟩ := h.key
  refine .stopped (by rw [hunread]; exact List.cons_ne_nil _ _) (.peek ?_)
  rw [hkind, if_neg hother]
  exact .bind (hkey.statement.imp fun _ _ hk => accepts_afterStatement_colon hcloser hk.colonNext)

/-- Where statements are read silently up to a closing brace, and there is at least one, a brace before them opens no object. -/
theorem isObject_of_statements {signed : Bool} (htidy : Tidy signed s.unread) (hs : s.separating = true)
    (hnone : Tree.statementsOf s.laid = []) : Accepts n (rule (.statements (some .braceClose))) s fun _ w =>
      Tree.statementsOf w.laid ≠ [] → Lookahead.isObject s.unread = false := by
  have hcloser : ∀ k ∈ some Kind.braceClose, k.isCloser = true := by
    rintro k ⟨⟩
    rfl
  refine .rule fun m _ => ?_
  rw [grammar, statementsBody_eq]
  refine .bind ((accepts_newlines_passed hs).imp ?_)
  rintro _ t ⟨hseparating, hunread, hlaid⟩
  unfold Lookahead.isObject
  rw [← hunread]
  cases hnext : t.unread with
  | nil => exact fun _ _ _ _ _ _ => rfl
  | cons x rest =>
    by_cases hbrace : x.kind = .braceClose
    · -- there are no statements
      have hready : t.skip = t := State.skip_of_ready (ready_of_solid hnext (by rw [hbrace]; decide))
      have hkind : t.looked.nextKind = .braceClose := by
        rw [State.looked, hready]
        simp only [State.nextKind, hnext, hbrace]
      refine .stopped (by rw [hnext]; exact List.cons_ne_nil _ _) (.peek ?_)
      rw [hkind]
      refine .done fun hsome => absurd ?_ hsome
      rw [statementsOf_looked, hlaid, hnone]
    by_cases hquote : x.kind = .doubleQuote
    · obtain ⟨blanks, hblanks, hsplit⟩ : ∃ blanks, (∀ b ∈ blanks, b.kind.isTrivia = true ∨ b.kind = .newline) ∧
          s.unread = blanks ++ x :: rest := by
        refine ⟨s.unread.takeWhile fun t => t.kind.isTrivia || (true && t.kind = .newline), fun b hb => ?_, ?_⟩
        · simpa using List.all_eq_true.mp List.all_takeWhile b hb
        · rw [← hnext, hunread]
          exact List.takeWhile_append_dropWhile.symm
      obtain ⟨signed', -, hrest⟩ := (hsplit ▸ htidy).of_blanks hblanks
      obtain ⟨body, e, more, rfl, hbody, he, -⟩ := hrest.string_of_quote hquote
      have hafter : Lookahead.afterString (body ++ e :: more) = some more := by
        refine afterString_stringBody (fun y hy => ?_) he
        have hkind := hbody.kind hy
        constructor <;> (intro heq; rw [heq] at hkind; revert hkind; decide)
      simp only [hquote, hafter, reduceCtorEq, if_false, if_true]
      cases hcolon : Lookahead.startsWith .colon (Lookahead.significant true more) with
      | false => exact fun _ _ _ _ _ _ => rfl
      | true => exact KeyNext.accepts_atStatement hcloser ⟨hseparating, x, body, e, more, hnext, hquote, hbody, he, hcolon⟩
    · simp only [hbrace, hquote, if_false]
      exact fun _ _ _ _ _ _ => trivial

end Remap.Parser
