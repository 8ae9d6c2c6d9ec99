import Remap.Proofs.Parser.Carries
import Remap.Proofs.Parser.Outlook

/-!
# Statements at the seam

The routines that may still be at work where the first row of tokens ends: those of a statement that are not inside brackets.
Each of them does the same in both runs.
-/

namespace Remap.Parser

variable {α β : Type} {stop : Kind} {j : Seam stop} {n : Nat}

/-! ## What is missing at the end -/

theorem mute_reportFound (p : Problem) (e : Option Expectation) : Mute n (reportFound p e) := .never fun _ => .reportFound p e

theorem mute_term : Mute n term := .nested <| .marked <| .peek <| .first <| .never fun _ => .missingOperand

theorem mute_unary : Mute n (rule .unary) := .rule fun _ => .bind fun _ => .peek mute_term

theorem mute_binary (min : Nat) : Mute n (rule (.binary min)) := .rule fun _ => .marked mute_unary.first

theorem mute_target : Mute n target := .peek (mute_binary 0)

theorem Mute.eat {k : Kind} (herror : (Kind.error == k) = false) {f : Bool → Routine α} (h : Mute n (f false)) :
    Mute n (Parser.eat k >>= f) := by
  rw [eat_bind]
  refine .peek ?_
  rw [herror]
  exact h

/-! ## Asking for a kind -/

namespace Carries

theorem ite {c : Prop} [Decidable c] {x y : Routine α} (hx : Carries j n x) (hy : Carries j n y) : Carries j n (if c then x else y) := by
  split
  · exact hx
  · exact hy

/-- Asking whether the next token is of a kind. At the end of the first row it is not. -/
theorem peekIs {k : Kind} (hk : Kind.newline ≠ k ∧ Kind.parenClose ≠ k ∧ Kind.error ≠ k) {f : Bool → Routine α}
    (hyes : Heads j n k (f true)) (hno : Carries j n (f false)) : Carries j n (Parser.peekIs k >>= f) := by
  refine peek (f := fun k' => f (k' == k)) (fun k' => ?_) (.peek ?_ ?_ ?_)
  · by_cases hk : k' = k
    · rw [hk, beq_self_eq_true]
      exact hyes
    · rw [beq_false_of_ne hk]
      exact hno.heads
  · rw [beq_false_of_ne hk.1, beq_false_of_ne hk.2.2]
  · rw [beq_false_of_ne hk.2.1, beq_false_of_ne hk.2.2]
  · rw [beq_false_of_ne hk.2.2]
    exact hno.tails

/-- Consuming the next token if it is of a kind. -/
theorem eat {k : Kind} (hk : Kind.newline ≠ k ∧ Kind.parenClose ≠ k ∧ Kind.error ≠ k) {f : Bool → Routine α}
    (hyes : Carries j n (f true)) (hno : Carries j n (f false)) : Carries j n (Parser.eat k >>= f) := by
  rw [eat_bind]
  refine peek (fun k' => ?_) (.peek ?_ ?_ ?_)
  · split
    · exact .bind .advance fun _ => hyes
    · exact hno.heads
  · rw [beq_false_of_ne hk.1, beq_false_of_ne hk.2.2]
  · rw [beq_false_of_ne hk.2.1, beq_false_of_ne hk.2.2]
  · rw [beq_false_of_ne hk.2.2]
    exact hno.tails

theorem wrap (k : Kind) : Carries j n (Parser.act (.wrap k)) := by
  refine inner rfl fun s t a hp => ?_
  simp only [Action.perform] at hp
  split at hp <;> cases hp
  rfl

theorem wrapped {k : Kind} {body : Routine α} (h : Carries j n body) : Carries j n (Parser.wrapped k body) :=
  .bind (.wrap k) fun _ => .bind h fun _ => .bind .closeNode fun _ => .done _

end Carries

/-! ## The routines -/

/-- The rules of a statement that are not inside brackets do the same in both runs. -/
structure Spine {stop : Kind} (j : Seam stop) (n : Nat) : Prop where
  pathSegments : Carries j n (rule .pathSegments)
  binaryRest (min : Nat) (lhs : Kind) : Carries j n (rule (.binaryRest min lhs))
  elseBranches : Carries j n (rule .elseBranches)
  statement (k : Kind) : Heads j n k (rule .statement)
  assignment (k : Kind) : Heads j n k (rule .assignment)
  binary (min : Nat) (k : Kind) : Heads j n k (rule (.binary min))
  unary (k : Kind) : Heads j n k (rule .unary)

section Routines

theorem heads_string : Heads j n .doubleQuote string :=
  .node <| .require <| .bind .advance fun _ => .bind (carries_stringParts n) fun _ => .done _

theorem heads_fieldName (k : Kind) : Heads j n k fieldName := by
  refine .peekIs ?_
  by_cases hk : k = .doubleQuote
  · subst hk
    exact .bind heads_string fun _ => .done _
  · rw [beq_false_of_ne hk]
    exact .advance

theorem heads_fieldSegment : Heads j n .dot fieldSegment := by
  have hnamed (k : Kind) (b : Bool) :
      Heads j n k (if b then fieldName else reportFound .invalidPathContinuation (some .fieldAfterDot)) :=
    .ite (fun _ => heads_fieldName k) fun _ => .never fun _ => .reportFound _ _
  refine .node <| .require <| .bind .advance fun _ => .peek (fun k => .ite (fun _ => ?_) fun _ => ?_) ?_
  · exact .stand rfl fun b => hnamed k b
  · exact hnamed k false
  · exact Mute.tails (.peek (mute_reportFound _ _))

theorem carries_indexSegment : Carries j n indexSegment :=
  (brackets_indexSegment j n).carries (scoped_indexSegment (scoped_rules n))

/-- Asking whether a path segment touches what was just read. -/
theorem Carries.atSegment {f : Bool → Routine α} (hyes : ∀ k, Heads j n k (f true)) (hno : Carries j n (f false)) :
    Carries j n (Parser.atSegment >>= f) := by
  have hsame (k : Kind) (b : Bool) : Heads j n k (f b) := by
    cases b with
    | true => exact hyes k
    | false => exact hno.heads
  rw [atSegment_bind]
  exact .peek (fun k => .ite (fun _ => .stand rfl (hsame k)) fun _ => hno.heads) (.peek rfl rfl hno.tails)

/-- Asking whether a first segment touches the root just read. -/
theorem Carries.atFirstSegment {f : Bool → Routine α} (hyes : ∀ k, Heads j n k (f true)) (hno : Carries j n (f false)) :
    Carries j n (Parser.atFirstSegment >>= f) := by
  have hsame (k : Kind) (b : Bool) : Heads j n k (f b) := by
    cases b with
    | true => exact hyes k
    | false => exact hno.heads
  rw [atFirstSegment_bind]
  exact .peek (fun k => .ite (fun _ => .stand rfl (hsame k)) fun _ => hno.heads) (.peek rfl rfl hno.tails)

theorem carries_argumentList : Carries j n argumentList :=
  (brackets_argumentList j n).carries (scoped_argumentList (scoped_rules n))

theorem carries_closure : Carries j n closure := (brackets_closure j n).carries (scoped_closure (scoped_rules n))

theorem carries_block : Carries j n block := (brackets_block j n).carries (scoped_block (scoped_rules n))

theorem carries_branch : Carries j n branch := (brackets_branch j n).carries (scoped_branch (scoped_rules n))

theorem heads_identOrCall : Heads j n .id identOrCall := by
  refine .require <| .stand rfl fun _ => .ite (fun _ => .node <| .bind .advance fun _ => ?_) fun _ => ?_
  · have hclosure : Carries j n (do
        if ← peekIs .arrow then closure
        return Kind.functionCall) :=
      .peekIs (by decide) (.bind carries_closure.heads fun _ => .done _) (.done _)
    exact .eat (by decide) (.bind carries_argumentList fun _ => hclosure) (.bind carries_argumentList fun _ => hclosure)
  · exact .node <| .bind .advance fun _ => .done _

/-- A literal of one token. -/
theorem heads_simpleLiteral (K : Kind) {k : Kind} (hk : (k == .minus) = false) : Heads j n k (simpleLiteral K) := by
  refine .node <| .peekIs ?_
  rw [hk]
  exact .bind .advance fun _ => .done _

/-- A number that touches the minus sign before it is in the first row with it. -/
theorem mirrors_signedLiteral (K : Kind) {number : Kind} (hnumber : number = .integer ∨ number = .float) {s s' : State}
    (h : Poised j .minus s s') (hsigns : (Lookahead.signs number).holds s.unread = true) :
    Mirrors n (simpleLiteral K) s s' fun _ t t' => Beside j t t' := by
  obtain ⟨x, u, rest, hunread, hsolid, -⟩ := exists_of_signs hnumber hsigns
  have hpushed : (s.pushed (some K)).unread = x :: u :: rest := (s.unread_pushed _).trans hunread
  have hseparating : (s.pushed (some K)).separating = true := by simp only [State.pushed, State.drain_eq, h.separating]
  refine .bind (.near rfl h.abreast h.stops fun _ t t' hp ht => ?_)
  obtain rfl : s.pushed (some K) = t := by cases hp; rfl
  have hpoised : Poised j .minus (s.pushed (some K)) t' := ⟨hseparating, ht, (s.unread_pushed _) ▸ h.next⟩
  refine .bind (.bind (.bind (.single fun _ k v hpeek _ => ?_)))
  obtain ⟨v', hpeek', hv⟩ := looked_abreast ht hseparating hpoised.not_dry hpeek
  obtain ⟨rfl, rfl⟩ := State.of_perform_peek hpeek
  refine ⟨v', hpeek', .done ?_⟩
  rw [hpoised.nextKind_looked] at hv ⊢
  have hlooked : (s.pushed (some K)).looked.unread = x :: u :: rest := hpoised.unread_skip.trans hpushed
  have hminus : x.kind.isTrivia = false := by
    obtain ⟨y, ys, hy, hk, -⟩ := hv.next
    cases hlooked.symm.trans hy
    rw [hk]
    rfl
  refine .bind (.advance hv.separating hv.abreast hlooked hminus fun w' hw => ?_)
  have hnext : Poised j u.kind ((s.pushed (some K)).looked.consumed x (u :: rest)) w' :=
    ⟨hv.separating, hw, u, rest, rfl, rfl, hsolid⟩
  exact .bind ((Heads.advance _ w' hnext).imp fun _ v v' hv => .done ((Carries.closeNode.bind fun _ => .done _) v v' hv))

theorem heads_literal (k : Kind) : Heads j n k literal := by
  refine .peek ?_
  split
  case h_3 =>
    have hsigned (s s' : State) (hs : Poised j .minus s s') {number : Kind} (hnumber : number = .integer ∨ number = .float) (K : Kind)
        {y : Routine Kind} (hy : Heads j n .minus y) :
        Mirrors n (ahead (.signs number) >>= fun b => if b then simpleLiteral K else y) s s' fun _ t t' => Beside j t t' := by
      have hnear : (Lookahead.signs number).isNear = true := by rcases hnumber with rfl | rfl <;> rfl
      refine .bind (.near hnear hs.abreast hs.stops fun b t t' hp ht => ?_)
      cases hp
      have ht' : Poised j .minus s t' := ⟨hs.separating, ht, hs.next⟩
      split
      · exact mirrors_signedLiteral K hnumber ht' ‹_›
      · exact hy s t' ht'
    refine fun s s' hs => hsigned s s' hs (.inl rfl) _ fun t t' ht => hsigned t t' ht (.inr rfl) _ ?_
    exact .never fun _ => .never (.reportAndAdvance _ _)
  case h_4 => exact heads_string
  case h_11 => exact .never fun _ => .fail _
  all_goals exact heads_simpleLiteral _ rfl

/-- No silent run comes to a target that cannot be assigned to. -/
theorem heads_checkTarget {K k : Kind} {f : Unit → Routine α} (hf : Heads j n k (f ())) : Heads j n k (checkTarget K >>= f) := by
  unfold checkTarget
  split
  case h_5 => exact .never fun _ => .reportTarget _ _
  all_goals exact hf

theorem carries_checkTarget (K : Kind) : Carries j n (checkTarget K) := by
  unfold checkTarget
  split
  case h_5 => exact .never fun _ => .reportTarget _ _
  all_goals exact .done _

variable (h : Spine j n)

include h

theorem carries_pathSegmentsBody : Carries j n pathSegmentsBody := by
  refine .atSegment (fun k => .peekIs ?_) (.done _)
  by_cases hk : k = .dot
  · subst hk
    exact .bind heads_fieldSegment fun _ => h.pathSegments
  · rw [beq_false_of_ne hk]
    exact .bind carries_indexSegment.heads fun _ => h.pathSegments

theorem heads_externalQuery (k : Kind) : Heads j n k externalQuery := by
  have hfirst (k : Kind) : Heads j n k (do
      node .path do
        if ← peekIs .bracketOpen then indexSegment else node .fieldSegment fieldName
        rule .pathSegments
      return Kind.query) := by
    refine .bind (.node <| .peekIs ?_) fun _ => .done _
    by_cases hk : k = .bracketOpen
    · subst hk
      exact .bind carries_indexSegment.heads fun _ => h.pathSegments
    · rw [beq_false_of_ne hk]
      exact .bind (.node (heads_fieldName k)) fun _ => h.pathSegments
  refine .node <| .bind .advance fun _ => .atFirstSegment hfirst ?_
  exact .atSegment (fun _ => .never fun _ => .report _ _ _) (.done _)

theorem carries_continuePath (K : Kind) : Carries j n (continuePath K) := by
  have hquery (k : Kind) : Heads j n k (do wrapped .query (node .path (rule .pathSegments)); return Kind.query) :=
    .bind (.wrapped <| .node h.pathSegments.heads) fun _ => .done _
  unfold continuePath
  split
  · exact .atSegment hquery (.done _)
  · exact .done _

/-! Terms. -/

theorem heads_term (k : Kind) : Heads j n k term := by
  refine .nested <| .marked <| .peek ?_
  split
  case h_1 | h_2 => exact .bind (heads_externalQuery h _) (carries_continuePath h)
  case h_13 => exact .bind ((brackets_group j n).carries (scoped_group (scoped_rules n))).heads (carries_continuePath h)
  case h_14 => exact .bind ((brackets_array j n).carries (scoped_array (scoped_rules n))).heads (carries_continuePath h)
  case h_15 => exact .bind ((brackets_objectOrBlock j n).carries (scoped_objectOrBlock (scoped_rules n))).heads (carries_continuePath h)
  case h_16 => exact .bind heads_identOrCall (carries_continuePath h)
  case h_17 => exact .never fun _ => .never .missingOperand
  all_goals exact .bind (heads_literal _) (carries_continuePath h)

/-! Operators. -/

theorem heads_unaryBody (k : Kind) : Heads j n k unaryBody := by
  have hnot (k : Kind) : Heads j n k (do
      if ← peekIs .bang then
        nested <| node .unaryOp do
          advance
          newlines
          let _ ← rule .unary
          return .unaryOp
      else term) := by
    refine .peekIs (.ite (fun _ => .nested <| .node <| .bind .advance fun _ => ?_) fun _ => heads_term h k)
    exact .newlines (fun k => .bind (h.unary k) fun _ => .done _) mute_unary.first
  exact (Carries.newlines hnot (.peek mute_term)).heads

theorem heads_binaryBody (min : Nat) (k : Kind) : Heads j n k (binaryBody min) :=
  .marked <| .bind (h.unary k) fun _ => h.binaryRest min _

theorem carries_binaryRestBody (min : Nat) (lhs : Kind) : Carries j n (binaryRestBody min lhs) := by
  refine .peek (fun k => ?_) (.peek rfl rfl (.done _))
  split
  · exact .done _
  · refine .ite (fun _ => .done _) fun _ => .nested <| .bind (.wrapped <| .bind .advance fun _ => ?_) fun _ => h.binaryRest min _
    exact .newlines (fun k => .bind (h.binary _ k) fun _ => .done _) (mute_binary _).first

/-! Statements. -/

theorem carries_assignedValue : Carries j n assignedValue := by
  refine .newlines (fun k => .peek (.ite (fun _ => ?_) fun _ => .never fun _ => .reportFound _ _)) (.peek (mute_reportFound _ _))
  exact .bind (h.statement k) fun _ => .done _

theorem heads_target (k : Kind) : Heads j n k target := by
  refine .peekIs (.ite (fun _ => ?_) fun _ => h.binary 0 k)
  exact .node <| .bind .advance fun _ => .done _

theorem heads_assignment (k : Kind) : Heads j n k assignment := by
  have hlone (lhs : Kind) : Carries j n (do
      if lhs = .noop then act (.reportTarget .underscoreAlone)
      return lhs) := .ite (.never fun _ => .reportTarget _ _) (.done _)
  refine .marked <| .bind (heads_target h k) fun lhs => .peek (fun k => ?_) (.peek rfl rfl (hlone lhs).tails)
  refine .ite (fun _ => ?_) fun _ => .ite (fun _ => ?_) fun _ => (hlone lhs).heads
  · refine heads_checkTarget <| .bind (.wrapped ?_) fun _ => .done _
    exact .bind .advance fun _ => carries_assignedValue h
  · refine heads_checkTarget <| .bind (.wrapped <| .bind .advance fun _ => ?_) fun _ => .bind (.wrapped ?_) fun _ => .done _
    · refine .newlines (fun k => ?_) (.marked mute_target.first)
      exact .marked <| .bind (heads_target h k) fun err => carries_checkTarget err
    · refine .peek (fun k => .ite (fun _ => ?_) fun _ => .never fun _ => .reportFound _ _) (Mute.tails (.peek (mute_reportFound _ _)))
      exact .bind .advance fun _ => carries_assignedValue h

theorem heads_ifStatement : Heads j n .kwIf ifStatement :=
  .node <| .require <| .bind .advance fun _ => .bind carries_branch fun _ => .bind h.elseBranches fun _ => .done _

theorem carries_elseBranchesBody : Carries j n elseBranchesBody := by
  refine .eat (by decide) ?_ (.done _)
  refine .newlines (fun k => .eat (fun _ => ?_) fun _ => ?_) ?_
  · exact .bind carries_branch fun _ => h.elseBranches
  · exact .bind carries_block.heads fun _ => .done _
  · exact .eat rfl (brackets_block j n).mute.first

theorem heads_abortStatement (k : Kind) : Heads j n k abortStatement := by
  refine .node <| .bind .advance fun _ => .peek (fun k => .ite (fun _ => ?_) fun _ => .done _) (.peek rfl rfl (.done _))
  exact .bind (h.statement k) fun _ => .done _

theorem heads_returnStatement (k : Kind) : Heads j n k returnStatement := by
  refine .node <| .bind .advance fun _ => .newlines (fun k => .peek (.ite (fun _ => ?_) fun _ => ?_)) ?_
  · exact .bind (h.statement k) fun _ => .done _
  · exact .never fun _ => .never (.reportFound _ _)
  · exact .peek (Mute.first (mute_reportFound _ _))

theorem heads_statement (k : Kind) : Heads j n k statement := by
  refine .nested <| .peek ?_
  split
  · exact heads_ifStatement h
  · exact heads_abortStatement h _
  · exact heads_returnStatement h _
  · exact h.assignment k

end Routines

/-- The rules of a statement that are not inside brackets do the same in both runs, by induction on the bound on nested rules. -/
theorem spine (j : Seam stop) (n : Nat) : Spine j n := by
  induction n with
  | zero =>
    have hzero {γ : Type} (r : Rule γ) : Carries j 0 (rule r) := fun _ _ _ _ _ _ hrun => by cases hrun
    exact ⟨hzero _, fun _ _ => hzero _, hzero _, fun _ => (hzero _).heads, fun _ => (hzero _).heads, fun _ _ => (hzero _).heads,
      fun _ => (hzero _).heads⟩
  | succ n ih =>
    exact ⟨carries_pathSegmentsBody ih, carries_binaryRestBody ih, carries_elseBranchesBody ih, heads_statement ih,
      heads_assignment ih, heads_binaryBody ih, heads_unaryBody ih⟩

end Remap.Parser
