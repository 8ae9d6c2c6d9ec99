import Remap.Proofs.Parser.Aligned.Rules

/-!
# The grammar reads lexemes

The grammar goes from one lexeme to the next. Wherever it consumes a token itself it was looked at before, and is no quote; and where the
next token is a quote, only the rule for strings is entered, or an error is skipped over that ends outside of strings. This is gone through
once here, by induction on how deeply rules are nested.
-/

namespace Remap.Parser

open State (Anywhere Sees Present Signed)

variable {α β : Type} {source : Text} {n : Nat} {P : State → Prop}

/-- Whether a rule begins between lexemes and ends between lexemes: it is not for the inside of strings or of errors. -/
def Rule.isOuter : {α : Type} → Rule α → Bool
  | _, .absorb | _, .skipTo _ _ | _, .stringParts | _, .templateParts => false
  | _, _ => true

theorem aligns_checkTarget (lhs : Kind) : Aligns source n P (checkTarget lhs) := by
  unfold checkTarget
  split
  case h_5 => exact .act rfl rfl
  all_goals exact .done ()

/-- What was seen is still seen after a target was checked. -/
theorem aligns_checkTarget_at {lhs k : Kind} {f : Unit → Routine β} (h : Aligns source n (Sees k) (f ())) :
    Aligns source n (Sees k) (checkTarget lhs >>= f) := by
  unfold checkTarget
  split
  case h_5 => exact .act_at rfl rfl rfl fun _ => h
  all_goals exact h

section Grammar

variable (h : ∀ {γ : Type} (r : Rule γ), r.isOuter = true → Aligns source n Anywhere (rule r))
include h

theorem aligns_newlines : Aligns source n P newlines := .any (h .newlines rfl)

theorem aligns_newlinesBody : Aligns source n P newlinesBody :=
  .peekIs (.bind (.advance (by decide)) fun _ => aligns_newlines h) fun _ _ => .done _

/-! Literals and paths. -/

omit h in
/-- A literal that does not begin with a minus sign or with a quote. -/
theorem aligns_simpleLiteral {k next : Kind} (hk : k ≠ .stringLit ∧ k ≠ .error) (hminus : (next == .minus) = false)
    (hquote : next ≠ .doubleQuote) : Aligns source n (Sees next) (simpleLiteral k) := by
  refine .node hk (.peek_at (f := fun k' => if k' == .minus then _ else _) ?_)
  rw [hminus]
  exact .bind (.advance hquote) fun _ => .done k

omit h in
theorem aligns_signedLiteral {k number : Kind} (hk : k ≠ .stringLit ∧ k ≠ .error) (hnumber : number = .integer ∨ number = .float) :
    Aligns source n (Signed number) (simpleLiteral k) := by
  refine .node hk (.peek_signed (f := fun k' => if k' == .minus then _ else _) ?_)
  rcases hnumber with rfl | rfl <;> exact .advance_signed (by decide) <| .bind (.advance (by decide)) fun _ => .done k

omit h in
theorem aligns_literal : Aligns source n P literal := by
  refine .peek fun k => ?_
  split
  case h_3 =>
    refine .signs (aligns_signedLiteral (by decide) (.inl rfl)) <| .signs (aligns_signedLiteral (by decide) (.inr rfl)) ?_
    exact .bind (.reportAndAdvance (honest_of_silent rfl) (by decide) (fun _ hs => hs) _) fun _ => .done _
  case h_4 => exact .string
  case h_11 => exact .fail _
  all_goals exact aligns_simpleLiteral (by decide) rfl (by decide)

omit h in
theorem aligns_fieldName : Aligns source n P fieldName :=
  .peekIs (.bind .string fun _ => .done _) fun _ hk => .advance hk

omit h in
theorem aligns_fieldSegment : Aligns source n P fieldSegment := by
  have hname (b : Bool) : Aligns source n Anywhere (if b then fieldName else reportFound .invalidPathContinuation (some .fieldAfterDot)) :=
    .ite aligns_fieldName (.reportFound _ _)
  refine .any <| .node (by decide) <| .require <| .bind (.advance (by decide)) fun _ => .peek fun k => .ite ?_ ?_
  · exact .bind (.act rfl rfl) hname
  · exact .bind (.done _) hname

theorem aligns_indexSegment : Aligns source n (Sees .bracketOpen) indexSegment := by
  have hend : Aligns source n Anywhere (do newlines; close .bracketClose) := .bind (aligns_newlines h) fun _ => .close rfl
  have hexpect : Aligns source n Anywhere (do reportFound .unexpectedToken (some .indexInteger); newlines; close .bracketClose) :=
    .bind (.reportFound _ _) fun _ => hend
  refine .node (by decide) <| .act_at rfl rfl rfl fun _ => .bind (.advance (by decide)) fun _ => .bind (aligns_newlines h) fun _ => ?_
  refine .peek fun k => ?_
  split
  · exact .bind (.advance (by decide)) fun _ => hend
  · exact .signs (.advance_signed (by decide) <| .bind (.advance (by decide)) fun _ => hend) hexpect.any
  · exact hexpect.any

omit h in
/-- Where a path segment is, the next token is a dot or an opening bracket. -/
theorem aligns_atSegment {f : Bool → Routine β} (hdot : Aligns source n (Sees .dot) (f true))
    (hbracket : Aligns source n (Sees .bracketOpen) (f true)) (hfalse : Aligns source n Anywhere (f false)) :
    Aligns source n P (atSegment >>= f) := by
  have htouches {k : Kind} (htrue : Aligns source n (Sees k) (f true)) : Aligns source n (Sees k) (touches >>= f) :=
    .act_at rfl rfl rfl fun b => by cases b <;> [exact hfalse.any; exact htrue]
  rw [atSegment_bind]
  refine .peek fun k => ?_
  by_cases hk : k = .dot ∨ k = .bracketOpen
  · rw [if_pos (by simpa using hk)]
    rcases hk with rfl | rfl
    · exact htouches hdot
    · exact htouches hbracket
  · rw [if_neg (by simpa using hk)]
    exact hfalse.any

omit h in
theorem aligns_atFirstSegment {f : Bool → Routine β} (hf : ∀ b, Aligns source n Anywhere (f b)) :
    Aligns source n P (atFirstSegment >>= f) := by
  rw [atFirstSegment_bind]
  exact .peek fun _ => .ite (.bind (.act rfl rfl) hf) (hf false).any

theorem aligns_pathSegmentsBody : Aligns source n P pathSegmentsBody := by
  refine aligns_atSegment (.peekIs_at ?_) (.peekIs_at ?_) (.done _)
  · exact .bind aligns_fieldSegment fun _ => h .pathSegments rfl
  · exact .bind (aligns_indexSegment h) fun _ => h .pathSegments rfl

theorem aligns_externalQuery {k : Kind} (hk : k ≠ .doubleQuote) : Aligns source n (Sees k) externalQuery := by
  have hsegments {P : State → Prop} : Aligns source n P (do
      report .invalidPathContinuation (some (.expected .segmentAfterRoot))
      node .path (rule .pathSegments)
      return .query : Routine Kind) :=
    .bind (.report (honest_of_silent rfl) _) fun _ => .bind (.node (by decide) (h .pathSegments rfl)) fun _ => .done _
  refine .node (by decide) <| .bind (.advance hk) fun _ => aligns_atFirstSegment fun _ =>
    .ite ?_ (aligns_atSegment hsegments hsegments (.done _))
  refine .bind (.node (by decide) <| .peekIs ?_ fun _ _ => ?_) fun _ => .done _
  · exact .bind (aligns_indexSegment h) fun _ => h .pathSegments rfl
  · exact .bind (.node (by decide) aligns_fieldName) fun _ => h .pathSegments rfl

theorem aligns_continuePath (k : Kind) : Aligns source n P (continuePath k) := by
  have hquery (b : Bool) : Aligns source n Anywhere (if b then (do
      wrapped .query (node .path (rule .pathSegments)); return .query) else return k) :=
    .ite (.bind (.wrapped (by decide) (.node (by decide) (h .pathSegments rfl))) fun _ => .done _) (.done _)
  exact .ite (aligns_atSegment (hquery true).any (hquery true).any (hquery false)) (.bind (.done _) hquery)

/-! Containers, calls and terms. -/

theorem aligns_group : Aligns source n (Sees .parenOpen) group := by
  refine .node (by decide) <| .act_at rfl rfl rfl fun _ => .bind (.advance (by decide)) fun _ =>
    .bind (.separating false ?_) fun _ => .done _
  refine .peek fun k => .ite ?_ ?_
  · exact .bind (h .assignment rfl).any fun _ => .close rfl
  · exact .bind (.reportFound _ _) fun _ => .close rfl

theorem aligns_delimited {opener : Kind} (hopener : opener ≠ .doubleQuote) (list : ItemList) :
    Aligns source n (Sees opener) (delimited opener list) := by
  refine .act_at rfl rfl rfl fun _ => .bind (.advance hopener) fun _ => .separating true ?_
  exact .bind (h (.items list) rfl) fun _ => .close (by cases list <;> rfl)

theorem aligns_array : Aligns source n (Sees .bracketOpen) array :=
  .node (by decide) <| .bind (aligns_delimited h (by decide) _) fun _ => .done _

theorem aligns_object : Aligns source n (Sees .braceOpen) object :=
  .node (by decide) <| .bind (aligns_delimited h (by decide) _) fun _ => .done _

theorem aligns_block : Aligns source n P block := by
  refine .peekIs (.node (by decide) <| .act_at rfl rfl rfl fun _ => .bind (.advance (by decide)) fun _ => ?_) fun _ _ => ?_
  · exact .bind (.separating true (h (.statements (some .braceClose)) rfl)) fun _ => .bind (.close rfl) fun _ => .done _
  · exact .bind (.reportFound _ _) fun _ => .done _

theorem aligns_element : Aligns source n P element :=
  .peek fun _ => .ite (.bind (h (.binary 0) rfl).any fun _ => .done _) (.bind (.reportFound _ _) fun _ => .done _)

theorem aligns_entry : Aligns source n P entry := by
  refine .peekIs ?_ fun _ _ => .bind (.reportFound _ _) fun _ => .done _
  refine .bind (.node (by decide) <| .bind .string fun _ => .bind (aligns_newlines h) fun _ => ?_) fun _ => .done _
  refine .bind (.eat (by decide)) fun _ => .ite ?_ (.report (honest_of_silent rfl) _)
  exact .bind (aligns_newlines h) fun _ => .bind (aligns_element h) fun _ => .done _

theorem aligns_argument : Aligns source n P argument := by
  have hnamed {k : Kind} (hk : k ≠ .doubleQuote) (b : Bool) : Aligns source n (Sees k) (if b then (do
      node .namedArgument do
        advance
        let _ ← eat .colon
        newlines
        let _ ← element
      return true) else element) := by
    refine .ite (.bind (.node (by decide) <| .bind (.advance hk) fun _ => .bind (.eat (by decide)) fun _ => ?_) fun _ => .done _)
      (aligns_element h)
    exact .bind (aligns_newlines h) fun _ => .bind (aligns_element h) fun _ => .done _
  refine .peek fun k => ?_
  split
  case isTrue hname => exact .act_at rfl rfl rfl (hnamed fun hk => by rw [hk] at hname; cases hname)
  case isFalse => exact aligns_element h

omit h in
theorem aligns_parameter : Aligns source n P parameter := by
  refine .peek fun k => ?_
  split
  case isTrue hname => exact .bind (.advance fun hk => by rw [hk] at hname; cases hname) fun _ => .done _
  case isFalse => exact .bind (.reportFound _ _) fun _ => .done _

theorem aligns_item (list : ItemList) : Aligns source n P (item list) := by
  cases list with
  | elements => exact aligns_element h
  | entries => exact aligns_entry h
  | arguments => exact aligns_argument h
  | parameters => exact aligns_parameter

theorem aligns_itemsBody (list : ItemList) : Aligns source n P (itemsBody list) := by
  refine .bind (aligns_newlines h) fun _ => .stopped fun _ => .ite (.done _) <| .peekIs (.done _) fun _ _ => ?_
  refine .bind (aligns_item h list) fun _ => .ite ?_ (.done _)
  exact .bind (aligns_newlines h) fun _ => .bind (.eat (by decide)) fun _ => .ite (h (.items list) rfl) (.done _)

theorem aligns_closure : Aligns source n (Sees .arrow) closure := by
  have hbody : Aligns source n Anywhere (do act .checkParameters; newlines; let _ ← block) :=
    .bind (.act rfl rfl) fun _ => .bind (aligns_newlines h) fun _ => .bind (aligns_block h) fun _ => .done _
  refine .node (by decide) <| .bind (.advance (by decide)) fun _ => .bind (.node (by decide) <| .peek fun k => ?_) fun _ => hbody
  split
  · exact .advance (by decide)
  · exact .act_at rfl rfl rfl fun _ => .bind (.advance (by decide)) fun _ => .bind (h (.items .parameters) rfl) fun _ => .close rfl
  · exact .reportFound _ _

theorem aligns_argumentList : Aligns source n P argumentList :=
  .any <| .node (by decide) <| .require (aligns_delimited h (by decide) _)

theorem aligns_identOrCall : Aligns source n P identOrCall := by
  refine .require <| .act_at rfl rfl rfl fun _ => .ite (.node (by decide) <| .bind (.advance (by decide)) fun _ => ?_) ?_
  · refine .bind (.eat (by decide)) fun _ => .bind (aligns_argumentList h) fun _ => .peekIs ?_ fun _ _ => .done _
    exact .bind (aligns_closure h) fun _ => .done _
  · exact .node (by decide) <| .bind (.advance (by decide)) fun _ => .done _

omit h in
/-- Where an operand is missing there is no quote. -/
theorem aligns_missingOperand {k : Kind} (hk : k ≠ .doubleQuote) : Aligns source n (Sees k) missingOperand := by
  have hother {d : Detail} (hd : Honest (Present k) (some d)) : Aligns source n (Sees k) (do
      if ← atEnd then report .expectedExpression none else reportAndAdvance .expectedExpression d) :=
    .atEnd (.report (honest_of_silent rfl) _) (.reportAndAdvance hd hk (fun _ hs => hs.toAt) _)
  refine .peek_at ?_
  split
  · exact hother (honest_of_silent rfl)
  · exact hother (honest_of_silent rfl)
  · split
    case h_8 => exact hother (honest_present rfl)
    all_goals exact .report (honest_sees (by decide) rfl) _

theorem aligns_objectOrBlock : Aligns source n P objectOrBlock :=
  .require <| .act_at rfl rfl rfl fun _ => .ite (aligns_object h) (aligns_block h)

theorem aligns_term : Aligns source n P term := by
  have hpath {P : State → Prop} {x : Routine Kind} (hx : Aligns source n P x) : Aligns source n P (x >>= continuePath) :=
    .bind hx (aligns_continuePath h)
  refine .any <| .nested <| .marked <| .peek fun k => ?_
  split
  case h_1 | h_2 => exact hpath (aligns_externalQuery h (by decide))
  case h_13 => exact hpath (aligns_group h)
  case h_14 => exact hpath (aligns_array h)
  case h_15 => exact hpath (aligns_objectOrBlock h)
  case h_16 => exact hpath (aligns_identOrCall h)
  case h_17 => exact .bind (aligns_missingOperand (by assumption)) fun _ => aligns_continuePath h .error
  all_goals exact hpath aligns_literal

/-! Operators. -/

theorem aligns_unaryBody : Aligns source n P unaryBody := by
  refine .bind (aligns_newlines h) fun _ => .peekIs (.nested <| .node (by decide) <| .bind (.advance (by decide)) fun _ => ?_)
    fun _ _ => aligns_term h
  exact .bind (aligns_newlines h) fun _ => .bind (h .unary rfl) fun _ => .done _

theorem aligns_binaryBody (min : Nat) : Aligns source n P (binaryBody min) :=
  .any <| .marked <| .bind (h .unary rfl) fun lhs => h (.binaryRest min lhs) rfl

theorem aligns_binaryRestBody (min : Nat) (lhs : Kind) : Aligns source n P (binaryRestBody min lhs) := by
  refine .peek fun k => ?_
  split
  · exact .done _
  · rename_i op hop
    have hk : k ≠ .doubleQuote := by
      rintro rfl
      cases hop
    refine .ite (.done _) <| .nested <| .bind (.wrapped (by decide) <| .bind (.advance hk) fun _ => ?_) fun _ => ?_
    · exact .bind (aligns_newlines h) fun _ => .bind (h _ rfl) fun _ => .done _
    · exact h (.binaryRest min .binaryOp) rfl

/-! Statements. -/

theorem aligns_assignedValue : Aligns source n P assignedValue := by
  refine .bind (aligns_newlines h) fun _ => .peek fun _ => .ite ?_ (.reportFound _ _)
  exact .bind (h .statement rfl).any fun _ => .done _

theorem aligns_target : Aligns source n P target :=
  .peekIs (.node (by decide) <| .bind (.advance (by decide)) fun _ => .done _) fun _ _ => (h (.binary 0) rfl).any

/-- An assignment operator and the value behind it. -/
theorem aligns_assigned {k : Kind} (hk : KindSet.assignOperators.contains k = true) :
    Aligns source n (Sees k) (do advance; assignedValue) :=
  .bind (.advance fun hquote => by rw [hquote] at hk; cases hk) fun _ => aligns_assignedValue h

theorem aligns_assignment : Aligns source n P assignment := by
  refine .any <| .marked <| .bind (aligns_target h) fun lhs => .peek fun k => ?_
  by_cases hassign : KindSet.assignOperators.contains k = true
  · rw [if_pos hassign]
    exact aligns_checkTarget_at <| .bind (.wrapped (by decide) (aligns_assigned h hassign)) fun _ => .done _
  rw [if_neg hassign]
  by_cases hcomma : k = .comma
  · subst hcomma
    rw [if_pos rfl]
    refine aligns_checkTarget_at <| .bind (.wrapped (by decide) <| .bind (.advance (by decide)) fun _ => ?_) fun _ =>
      .bind (.wrapped (by decide) <| .peek fun k => ?_) fun _ => .done _
    · exact .bind (aligns_newlines h) fun _ => .marked <| .bind (aligns_target h) fun _ => aligns_checkTarget _
    · split
      · exact aligns_assigned h ‹_›
      · exact .reportFound _ _
  · rw [if_neg hcomma]
    exact .ite (.bind (.act rfl rfl) fun _ => .done _) (.done _)

omit h in
theorem aligns_atContinuation {f : Bool → Routine β} (hf : ∀ b, Aligns source n Anywhere (f b)) :
    Aligns source n P (atContinuation >>= f) :=
  .bind (.peek fun _ => .ite (.done _) (.ite (.act rfl rfl) (.done _))) hf

omit h in
/-- A semicolon where something should begin is no quote. -/
theorem aligns_straySemicolon : Aligns source n (Sees .semicolon) straySemicolon :=
  .reportAndAdvance (honest_of_silent rfl) (by decide) (fun _ hs => hs) _

theorem aligns_conditionsBody (count : Nat) : Aligns source n P (conditionsBody count) := by
  refine .bind (aligns_newlines h) fun _ => .stopped fun _ => .ite (.done _) <| .peekIs (.done _) fun _ _ => .peek fun k => ?_
  by_cases hsemicolon : k = .semicolon
  · subst hsemicolon
    exact .bind (aligns_straySemicolon) fun _ => h (.conditions count) rfl
  rw [if_neg hsemicolon]
  refine .ite ?_ (.bind (.reportFound _ _) fun _ => .done _)
  refine .bind (h .assignment rfl).any fun _ => .peek fun k => ?_
  split
  · exact .bind (aligns_newlines h) fun _ => h _ rfl
  · exact .bind (.advance (by decide)) fun _ => .bind (aligns_newlines h) fun _ => h _ rfl
  · exact .done _

theorem aligns_parenthesised : Aligns source n (Sees .parenOpen) parenthesised := by
  have hgrouped (b : Bool) : Aligns source n Anywhere (if b then (do
      wrapped .group (pure ())
      let k ← continuePath .group
      let _ ← rule (.binaryRest 0 k)) else pure ()) := by
    refine .ite ?_ (.done _)
    exact .bind (.wrapped (by decide) (.done _)) fun _ => .bind (aligns_continuePath h _) fun k =>
      .bind (h (.binaryRest 0 k) rfl) fun _ => .done _
  refine .marked <| .act_at rfl rfl rfl fun _ => .bind (.advance (by decide)) fun _ => .bind (h (.conditions 0) rfl) fun count => ?_
  exact .bind (.close rfl) fun _ => .ite (aligns_atContinuation hgrouped) (.bind (.done _) hgrouped)

theorem aligns_predicate : Aligns source n P predicate := by
  refine .bind (aligns_newlines h) fun _ => .node (by decide) <| .peek fun k => ?_
  by_cases hk : k = .parenOpen
  · subst hk
    exact aligns_parenthesised h
  · rw [if_neg hk]
    exact .ite (.bind (h (.binary 0) rfl).any fun _ => .done _) (.reportFound _ _)

theorem aligns_branch : Aligns source n P branch :=
  .bind (aligns_predicate h) fun _ => .bind (aligns_newlines h) fun _ => .bind (aligns_block h) fun _ => .done _

theorem aligns_elseBranchesBody : Aligns source n P elseBranchesBody := by
  refine .bind (.eat (by decide)) fun _ => .ite ?_ (.done _)
  refine .bind (aligns_newlines h) fun _ => .bind (.eat (by decide)) fun _ => .ite ?_ ?_
  · exact .bind (aligns_branch h) fun _ => h .elseBranches rfl
  · exact .bind (aligns_block h) fun _ => .done _

theorem aligns_ifStatement : Aligns source n P ifStatement :=
  .any <| .node (by decide) <| .require <| .bind (.advance (by decide)) fun _ =>
    .bind (aligns_branch h) fun _ => .bind (h .elseBranches rfl) fun _ => .done _

theorem aligns_abortStatement : Aligns source n (Sees .kwAbort) abortStatement :=
  .node (by decide) <| .bind (.advance (by decide)) fun _ => .peek fun _ =>
    .ite (.bind (h .statement rfl).any fun _ => .done _) (.done _)

theorem aligns_returnStatement : Aligns source n (Sees .kwReturn) returnStatement := by
  refine .node (by decide) <| .bind (.advance (by decide)) fun _ => .bind (aligns_newlines h) fun _ => .peek fun _ => .ite ?_ ?_
  · exact .bind (h .statement rfl).any fun _ => .done _
  · exact .bind (.reportFound _ _) fun _ => .done _

theorem aligns_statement : Aligns source n P statement := by
  refine .any <| .nested <| .peek fun k => ?_
  split
  · exact aligns_ifStatement h
  · exact aligns_abortStatement h
  · exact aligns_returnStatement h
  · exact (h .assignment rfl).any

theorem aligns_endOfStatement (closer : Option Kind) : Aligns source n P (endOfStatement closer) := by
  refine .stopped fun _ => .ite (.done _) <| .peek fun k => .ite (.bind (aligns_newlines h) fun _ => .done _) ?_
  by_cases hsemicolon : k = .semicolon
  · subst hsemicolon
    exact .bind (.advance (by decide)) fun _ => .bind (aligns_newlines h) fun _ => .done _
  · rw [if_neg hsemicolon]
    exact .ite (.done _) (.bind (.reportFound _ _) fun _ => .done _)

omit h in
/-- Nothing ends a statement inside a string. -/
theorem aligns_skipStatement : Aligns source n P skipStatement :=
  .resync fun k => by cases k <;> decide

theorem aligns_statementsBody (closer : Option Kind) : Aligns source n P (statementsBody closer) := by
  have hagain : Aligns source n Anywhere (rule (.statements closer)) := h (.statements closer) rfl
  refine .bind (aligns_newlines h) fun _ => .stopped fun _ => .ite (.done _) <| .peek fun k => .ite (.done _) ?_
  by_cases hsemicolon : k = .semicolon
  · subst hsemicolon
    exact .bind (aligns_straySemicolon) fun _ => hagain
  rw [if_neg hsemicolon]
  split
  case isTrue hcloser =>
    refine .bind (.reportAndAdvance (honest_of_silent rfl) (fun hk => ?_) (fun _ hs => hs) _) fun _ => hagain
    rw [hk] at hcloser
    cases hcloser
  case isFalse =>
    refine .ite (.bind ?_ fun _ => hagain) (.bind (.reportFound _ _) fun _ => .bind (aligns_skipStatement) fun _ => hagain)
    refine .bind (h .statement rfl).any fun _ => .bind (aligns_endOfStatement h closer) fun _ => .ite (.done _) (aligns_skipStatement)

end Grammar

/-- Every rule that is not for the inside of strings or of errors goes from one place between lexemes to another. -/
theorem aligns_rule (source : Text) (n : Nat) {γ : Type} (r : Rule γ) (hr : r.isOuter = true) : Aligns source n Anywhere (rule r) := by
  induction n generalizing γ with
  | zero => exact fun _ _ _ _ => .zero _ _
  | succ n ih =>
    have hbody : Aligns source n Anywhere (grammar r) := by
      cases r with
      | absorb | skipTo | stringParts | templateParts => cases hr
      | newlines => exact aligns_newlinesBody ih
      | pathSegments => exact aligns_pathSegmentsBody ih
      | items list => exact aligns_itemsBody ih list
      | statements closer => exact aligns_statementsBody ih closer
      | conditions count => exact aligns_conditionsBody ih count
      | elseBranches => exact aligns_elseBranchesBody ih
      | statement => exact aligns_statement ih
      | assignment => exact aligns_assignment ih
      | binary min => exact aligns_binaryBody ih min
      | binaryRest min lhs => exact aligns_binaryRestBody ih min lhs
      | unary => exact aligns_unaryBody ih
    exact fun ls s hs hp => .rule (hbody ls s hs hp)

/-- So does a program. -/
theorem aligns_program (source : Text) (n : Nat) : Aligns source n Anywhere program :=
  .node (by decide) <| .bind (aligns_rule source n (.statements none) rfl) fun _ => .settle

end Remap.Parser
