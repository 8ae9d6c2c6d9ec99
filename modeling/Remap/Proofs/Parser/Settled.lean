import Remap.Proofs.Parser.Sequence

/-!
# How statements end

A silent run of a statement ends with a look at what comes next, with one exception: nothing is looked at behind the block of a plain
`else`, and nothing is held back there. Which of the two it was can be seen from the tree (`Tree.closesElse`, `State.Settled`).
-/

namespace Remap

/-- The kinds of nodes that end with a value or with the last of their statements, and with nothing behind that. -/
def Kind.endsWithValue : Kind → Bool
  | .program | .assignment | .abortStatement | .returnStatement => true
  | _ => false

namespace Tree

/-- Whether the children of an `if` end with the block of a plain `else`. -/
def hasElse (cs : List Tree) : Bool :=
  match (solid cs).reverse with
  | .node .block _ :: .leaf .kwElse _ :: _ => true
  | _ => false

mutual
/-- Whether a tree ends with the block of a plain `else`. -/
def closesElse : Tree → Bool
  | .leaf _ _ => false
  | .node k cs => if k = .ifStatement then hasElse cs else k.endsWithValue && lastClosesElse cs
/-- Whether the last tree of a row does. -/
def lastClosesElse : List Tree → Bool
  | [] => false
  | [t] => closesElse t
  | _ :: t :: ts => lastClosesElse (t :: ts)
end

theorem lastClosesElse_append (ts : List Tree) (t : Tree) : lastClosesElse (ts ++ [t]) = t.closesElse := by
  induction ts with
  | nil => rw [List.nil_append, lastClosesElse]
  | cons u ts ih =>
    obtain ⟨v, vs, hvs⟩ := List.exists_cons_of_ne_nil (List.append_ne_nil_of_right_ne_nil ts (List.cons_ne_nil t []))
    rw [List.cons_append, hvs, lastClosesElse, ← hvs, ih]

/-- Of trees that are listed from the last to the first it is the first one that counts. -/
theorem lastClosesElse_reverse (ts : List Tree) : lastClosesElse ts.reverse = ts.head?.any closesElse := by
  cases ts with
  | nil => rw [List.reverse_nil, lastClosesElse]; rfl
  | cons t ts => rw [List.reverse_cons, lastClosesElse_append]; rfl

/-- No operator expression ends with such a block, and no `_` does. -/
theorem closesElse_of_isSide {k : Kind} (hk : k.isSide = true) (cs : List Tree) : (node k cs).closesElse = false := by
  rw [closesElse]
  unfold Kind.isSide Kind.isOperand at hk
  cases k <;> first | rfl | cases hk

end Tree

namespace Parser

variable {α : Type} {n : Nat}

open State (SameFrame AtToken)

namespace State

variable {s t u : State}

/-- Whether the last tree in the innermost frame ends with the block of a plain `else`. -/
def closesElse (s : State) : Bool := s.top.built.head?.any Tree.closesElse

/-- The next token was looked at, unless a plain `else` was closed just now; then nothing is held back. -/
structure Settled (s : State) : Prop where
  ready : s.closesElse = false → s.Ready
  held : s.closesElse = true → s.held = []

theorem Settled.congr (h : s.Settled) (hunread : t.unread = s.unread) (hheld : t.held = s.held) (hseparating : t.separating = s.separating)
    (hcloses : t.closesElse = s.closesElse) : t.Settled :=
  ⟨fun ht => ready_congr hunread hseparating (h.ready (hcloses.symm.trans ht)), fun ht => hheld.trans (h.held (hcloses.symm.trans ht))⟩

theorem Ready.settled (h : s.Ready) (hcloses : s.closesElse = false) : s.Settled :=
  ⟨fun _ => h, fun hs => Bool.noConfusion (hcloses.symm.trans hs)⟩

theorem closesElse_congr (h : t.top.built = s.top.built) : t.closesElse = s.closesElse := by rw [closesElse, h, closesElse]

theorem row_looked : s.looked.row = s.row := (s.still_looked _).row

theorem closesElse_looked : s.looked.closesElse = s.closesElse := closesElse_congr s.built_skip

theorem closesElse_consumed (x : Token) (rest : List Token) : (s.consumed x rest).closesElse = false := rfl

/-- A node that ends with its value ends as the value does. -/
theorem closesElse_node {k : Kind} (hk : k.endsWithValue = true) (s : State) : (Tree.node k s.top.built.reverse).closesElse = s.closesElse := by
  have hne : k ≠ .ifStatement := by
    rintro rfl
    cases hk
  rw [Tree.closesElse, if_neg hne, hk, Bool.true_and, Tree.lastClosesElse_reverse, closesElse]

theorem Settled.closed {k : Kind} (h : t.Settled) (hcloses : (Tree.node k t.top.built.reverse).closesElse = t.closesElse) :
    (s.closed k t).Settled :=
  h.congr rfl rfl rfl hcloses

theorem Settled.joined (h : t.Settled) (hbuilt : t.top.built ≠ []) : (s.joined t).Settled := by
  obtain ⟨c, cs, hcons⟩ := List.exists_cons_of_ne_nil hbuilt
  refine h.congr rfl rfl rfl ?_
  rw [closesElse, closesElse, State.joined, hcons]
  rfl

theorem HoldsOne.closesElse {k : Kind} (h : s.HoldsOne k) (hk : k.isSide = true) : s.closesElse = false := by
  obtain ⟨cs, hbuilt⟩ := h
  rw [State.closesElse, hbuilt]
  exact Tree.closesElse_of_isSide hk cs

end State

/-! ## Branches of an `if` -/

/-- Consuming the next token if it is of a kind. -/
theorem Accepts.eat {k : Kind} (hk : Solid k ∧ k ≠ .error) {s : State} {f : Bool → Routine α} {Q : α → State → Prop}
    (htrue : ∀ x t, t.row = s.row ++ [.leaf k x] → Accepts n (f true) t Q) (hfalse : Accepts n (f false) s.looked Q) :
    Accepts n (Parser.eat k >>= f) s Q := by
  rw [eat_bind]
  refine .peek ?_
  by_cases hnext : s.looked.nextKind = k
  · rw [hnext, beq_self_eq_true]
    obtain ⟨x, rest, hunread, hx⟩ := State.exists_unread hnext hk.2
    refine .advance hunread fun hsteady => htrue x.text _ ?_
    rw [hsteady.row_consumed, State.row_looked, Token.leaf, hx]
    simp [Tree.solid, Tree.isBlank, hk.1.1, hk.1.2]
  · rw [beq_false_of_ne hnext]
    exact hfalse

/-- Building a node adds it to the row. -/
theorem Accepts.adds_node {k : Kind} {body : Routine α} (he : Extends n body) (s : State) :
    Accepts n (Parser.node k body) s fun _ t => ∃ cs, t.row = s.row ++ [.node k cs] :=
  .node <| (Accepts.of_returns (he _)).imp fun _ _ ht => ⟨ht.1, fun _ _ _ hrow => ⟨_, hrow⟩⟩

/-- Behind a block nothing is held back. -/
theorem accepts_block (s : State) : Accepts n block s fun _ t => t.held = [] ∧ ∃ cs, t.row = s.row ++ [.node .block cs] := by
  have e := uniform_extends n
  have hbody : Extends n blockBody :=
    e.bind (e.simple rfl) fun _ => e.bind (e.simple rfl) fun _ => e.bind (e.separating true (e.rule _)) fun _ =>
      e.bind (closed_close e.toParts _) fun _ => e.done _
  have hempties : Empties n (do
      advance
      separating true (rule (.statements (some .braceClose)))
      close .braceClose
      return Kind.block) :=
    .bind (.plain rfl) fun _ => .bind (.separating (scoped_runRule n (.statements (some .braceClose)))) fun _ u hu =>
      .bind ((Empties.close (by decide) u hu).imp fun _ _ hnil => .done hnil)
  have hnode (s : State) : Accepts n (node .block blockBody) s fun _ t => t.held = [] := by
    refine .closing (((Accepts.of_returns (hbody _)).and ?_).imp fun _ _ ht => ⟨ht.1.1, ht.2⟩)
    refine .bind (.single fun _ _ t hpush _ => ?_)
    cases hpush
    exact hempties _ (List.cons_ne_nil _ _)
  refine .peekIs ?_
  split
  · refine ((hnode _).and (.adds_node hbody _)).imp fun _ t ht => ⟨ht.1, ?_⟩
    obtain ⟨cs, hrow⟩ := ht.2
    exact ⟨cs, by rw [hrow, State.row_looked]⟩
  · exact .never (.reportFound _ _)

theorem accepts_branch (s : State) : Accepts n branch s fun _ t => ∃ r p b, t.row = r ++ [.node .predicate p, .node .block b] := by
  have e := uniform_extends n
  have hcondition : Extends n (do
      let k ← peek
      if k = .parenOpen then parenthesised
      else if KindSet.arithmeticFirst.contains k then
        let _ ← rule (.binary 0)
      else reportFound .expectedExpression (some .conditionOfIf)) :=
    e.bind (e.simple rfl) fun _ => closed_ite (J := fun {_} x => Extends n x) (closed_parenthesised e.toParts (level_continuedGroup e.toLevel)) <|
      closed_ite (J := fun {_} x => Extends n x) (e.bind (e.rule _) fun _ => e.done _) (closed_reportFound e.toParts rfl _)
  refine .bind (.bind (accepts_newlines.imp fun _ t _ => (Accepts.adds_node hcondition t).imp fun _ u hu => ?_))
  refine .bind (accepts_newlines.imp fun _ v hv => .bind ((accepts_block v).imp fun _ w hw => .done ?_))
  obtain ⟨p, hp⟩ := hu
  obtain ⟨-, b, hb⟩ := hw
  exact ⟨t.row, p, b, by rw [hb, hv.row, hp, List.append_assoc]; rfl⟩

/-- Behind the branches of an `if` the next token was looked at, or a plain `else` was closed. -/
theorem accepts_elseBranches (n : Nat) {s : State} (hs : ∃ r p b, s.row = r ++ [.node .predicate p, .node .block b]) :
    Accepts n (rule .elseBranches) s fun _ t =>
      t.Ready ∧ (∃ r p b, t.row = r ++ [.node .predicate p, .node .block b]) ∨
        t.held = [] ∧ ∃ r e b, t.row = r ++ [.leaf .kwElse e, .node .block b] := by
  induction n generalizing s with
  | zero => exact .rule fun m hm => by cases hm
  | succ n ih =>
    refine .rule fun m hm => ?_
    cases hm
    refine .eat (by decide) (fun e t ht => ?_) (.done (.inl ⟨State.ready_looked, ?_⟩))
    · refine .bind (accepts_newlines.imp fun _ u hu => .eat (by decide) (fun _ v _ => ?_) ?_)
      · exact .bind ((accepts_branch v).imp fun _ w hw => ih hw)
      · refine .bind ((accepts_block _).imp fun _ v hv => .done (.inr ⟨hv.1, s.row, e, ?_⟩))
        obtain ⟨-, b, hb⟩ := hv
        exact ⟨b, by rw [hb, State.row_looked, hu.row, ht, List.append_assoc]; rfl⟩
    · rw [State.row_looked]
      exact hs

/-- After an `if` its node shows which of the two it was. -/
theorem settles_ifStatement (s : State) : Accepts n ifStatement s fun _ t => t.Settled := by
  have e := uniform_extends n
  have hextends := closed_ifStatementBody e.toParts
    (closed_branch e.toParts (level_continuedGroup e.toLevel) (closed_block e.toGrammarClosed)) (e.rule .elseBranches)
  have hcloses (t : State) : (s.closed .ifStatement t).closesElse = Tree.hasElse t.top.built.reverse := by
    show (Tree.node .ifStatement t.top.built.reverse).closesElse = _
    rw [Tree.closesElse, if_pos rfl]
  have hbody (u : State) : Accepts n (do
      require .kwIf
      advance
      branch
      rule .elseBranches
      return Kind.ifStatement) u fun _ t => (s.closed .ifStatement t).Settled := by
    rw [require_bind]
    refine .peek ?_
    split
    · refine .any .advance fun _ v => .bind ((accepts_branch v).imp fun _ w hw => ?_)
      refine .bind ((accepts_elseBranches n hw).imp fun _ t ht => .done ?_)
      rcases ht with ⟨hready, r, p, b, hrow⟩ | ⟨hheld, r, c, b, hrow⟩
      · refine State.Ready.settled (State.ready_congr rfl rfl hready) ?_
        rw [hcloses, Tree.hasElse, show Tree.solid t.top.built.reverse = _ from hrow]
        simp
      · refine ⟨fun hopen => ?_, fun _ => hheld⟩
        rw [hcloses, Tree.hasElse, show Tree.solid t.top.built.reverse = _ from hrow] at hopen
        simp at hopen
    · exact .fail _
  exact .closing (((Accepts.of_returns (hextends _)).and (hbody _)).imp fun _ _ ht => ⟨ht.1.1, ht.2⟩)

/-! ## Statements -/

/-- In front of a token a routine ends with a look at what comes next, or with the block of a plain `else`. -/
def Settles (n : Nat) (x : Routine α) : Prop := ∀ s : State, s.AtToken → Accepts n x s fun _ t => t.Settled

/-- After newlines comes a token, or the end of the input. -/
theorem accepts_atToken (s : State) : Accepts n newlines s fun _ t => t.AtToken := by
  intro _ _ t hrun _
  obtain ⟨hready, hkind⟩ := nextKind_of_newlines hrun
  exact ⟨hready, hkind⟩

/-- A node that ends with a value that settles. -/
theorem settles_node {k : Kind} (hk : k.endsWithValue = true) {body : Routine α} (he : Extends n body) {s : State}
    (hbody : Accepts n body (s.pushed (some k)) fun _ t => t.Settled) : Accepts n (node k body) s fun _ t => t.Settled :=
  .closing (((Accepts.of_returns (he _)).and hbody).imp fun _ t ht => ⟨ht.1.1, ht.2.closed (State.closesElse_node hk t)⟩)

/-- The same where the node begins at a mark. -/
theorem settles_wrapped {k : Kind} (hk : k.endsWithValue = true) {body : Routine α} (he : Extends n body) {s : State}
    (hbody : Accepts n body (s.wrapping k) fun _ t => t.Settled) :
    Accepts n (wrapped k body) s fun _ t => SameFrame s t ∧ t.Settled ∧ t.top.built ≠ [] :=
  .wrapping fun _ => ((Accepts.of_returns (he _)).and hbody).imp fun _ t ht =>
    ⟨ht.1.1, ⟨rfl, rfl⟩, ht.2.congr rfl rfl rfl (State.closesElse_node hk t), List.cons_ne_nil _ _⟩

/-- In a silent run a target passes its check. -/
theorem Accepts.checkTarget (lhs : Kind) {f : Unit → Routine α} {s : State} {Q : α → State → Prop} (h : Accepts n (f ()) s Q) :
    Accepts n (Parser.checkTarget lhs >>= f) s Q := by
  unfold Parser.checkTarget
  split
  case h_5 => exact .reportTarget _ _
  all_goals exact h

section Statements

variable (h : Settles n (rule .statement))

include h

theorem settles_assignedValue (s : State) : Accepts n assignedValue s fun _ t => t.Settled := by
  refine .bind ((accepts_atToken s).imp fun _ t ht => .peek ?_)
  split
  · exact .bind ((h _ ht.atLooked).imp fun _ _ hu => .done hu)
  · exact .reportFound _ _

/-- A value is read behind an operator. -/
theorem settles_operatorAndValue (s : State) : Accepts n (do advance; assignedValue) s fun _ t => t.Settled :=
  .any .advance fun _ t => settles_assignedValue h t

theorem settles_abortStatement (s : State) : Accepts n abortStatement s fun _ t => t.Settled := by
  have e := uniform_extends n
  have he : Extends n (do
      advance
      if KindSet.statementFirst.contains (← peek) then
        let _ ← rule .statement
      return Kind.abortStatement) :=
    e.bind (e.simple rfl) fun _ => e.bind (e.simple rfl) fun _ =>
      closed_ite (J := fun {_} x => Extends n x) (e.bind (e.rule _) fun _ => e.done _) (e.done _)
  refine settles_node rfl he (.act fun _ _ t hadvance _ => .peek ?_)
  obtain ⟨x, rest, -, rfl⟩ := State.of_perform_advance hadvance
  split
  · rename_i hfirst
    refine .bind ((h _ ⟨State.ready_looked, fun hnewline => ?_⟩).imp fun _ _ hu => .done hu)
    rw [hnewline] at hfirst
    cases hfirst
  · exact .done (State.ready_looked.settled (State.closesElse_looked.trans (State.closesElse_consumed x rest)))

theorem settles_returnStatement (s : State) : Accepts n returnStatement s fun _ t => t.Settled := by
  have e := uniform_extends n
  have he : Extends n (do
      advance
      newlines
      if KindSet.statementFirst.contains (← peek) then
        let _ ← rule .statement
      else reportFound .expectedExpression (some .valueOfReturn)
      return Kind.returnStatement) :=
    e.bind (e.simple rfl) fun _ => e.bind (closed_newlines e.toParts) fun _ => e.bind (e.simple rfl) fun _ =>
      closed_ite (J := fun {_} x => Extends n x) (e.bind (e.rule _) fun _ => e.done _)
        (e.bind (closed_reportFound e.toParts rfl _) fun _ => e.done _)
  refine settles_node rfl he (.any .advance fun _ t => .bind ((accepts_atToken t).imp fun _ u hu => .peek ?_))
  split
  · exact .bind ((h _ hu.atLooked).imp fun _ _ hv => .done hv)
  · exact .never (.reportFound _ _)

/-- Behind a target the next token is looked at, and what is assigned to it settles. -/
theorem settles_assignment : Settles n assignment := by
  have e := uniform_extends n
  have hassign : Extends n (do advance; assignedValue) := e.bind (e.simple rfl) fun _ => closed_assignedValue e.toParts
  intro s hs
  refine .joining (.bind ((buildsOne_target _ (hs.atPushed none)).imp fun lhs t ht => .peek ?_))
  have hone : t.looked.HoldsOne lhs := by
    obtain ⟨cs, hcs⟩ := ht.2.holdsOne rfl (by rw [State.pushed, State.drain_eq])
    exact ⟨cs, t.built_skip.trans hcs⟩
  have hframe : SameFrame (s.pushed none) t.looked := ht.2.toSameFrame.trans (t.still_looked _).frame
  split
  · refine .checkTarget lhs (.bind ((settles_wrapped rfl hassign (settles_operatorAndValue h _)).imp fun _ u hu => .done ?_))
    exact ⟨hframe.trans hu.1, hu.2.1.joined hu.2.2⟩
  split
  · have herror : Extends n (wrapped .infallibleTarget do
        advance
        newlines
        marked do
          let err ← target
          checkTarget err) :=
      e.wrapped rfl <| e.bind (e.simple rfl) fun _ => e.bind (closed_newlines e.toParts) fun _ => e.marked <|
        e.bind (closed_target e.toParts) fun err => closed_checkTarget e.toParts err
    have hvalue : Extends n (do
        if KindSet.assignOperators.contains (← peek) then
          advance
          assignedValue
        else reportFound .unexpectedToken (some .assignOperator)) :=
      e.bind (e.simple rfl) fun _ => closed_ite (J := fun {_} x => Extends n x) hassign (closed_reportFound e.toParts rfl _)
    refine .checkTarget lhs (.bind ((Accepts.of_returns (herror _)).imp fun _ u hu => ?_))
    refine .bind ((settles_wrapped rfl hvalue (.peek ?_)).imp fun _ v hv => .done ?_)
    · split
      · exact settles_operatorAndValue h _
      · exact .reportFound _ _
    · exact ⟨(hframe.trans hu.1).trans hv.1, hv.2.1.joined hv.2.2⟩
  · have hdone : Accepts n (pure lhs) t.looked fun _ u => SameFrame (s.pushed none) u ∧ (s.joined u).Settled := by
      refine .done ⟨hframe, (State.ready_looked.settled (hone.closesElse ht.1)).joined ?_⟩
      obtain ⟨cs, hcs⟩ := hone
      rw [hcs]
      exact List.cons_ne_nil _ _
    split
    · exact .reportTarget _ _
    · exact hdone

end Statements

theorem settles_statement (hassign : Settles n (rule .assignment)) (hstatement : Settles n (rule .statement)) : Settles n statement := by
  refine fun s hs => .deepening ((?_ : Accepts n _ s.deeper fun _ t => t.Settled).imp fun _ t ht => ht.congr rfl rfl rfl rfl)
  refine .peek ?_
  split
  · exact settles_ifStatement _
  · exact settles_abortStatement hstatement _
  · exact settles_returnStatement hstatement _
  · exact hassign _ (hs.congr rfl rfl : s.deeper.AtToken).atLooked

/-- Silent runs of statements and assignments settle. -/
theorem settles_rules (n : Nat) : Settles n (rule .statement) ∧ Settles n (rule .assignment) := by
  induction n with
  | zero => exact ⟨fun s _ => .rule fun m hm => (by cases hm), fun s _ => .rule fun m hm => (by cases hm)⟩
  | succ n ih =>
    refine ⟨fun s hs => .rule fun m hm => ?_, fun s hs => .rule fun m hm => ?_⟩
    all_goals cases hm
    · exact settles_statement ih.2 ih.1 s hs
    · exact settles_assignment ih.1 s hs

end Parser

end Remap
