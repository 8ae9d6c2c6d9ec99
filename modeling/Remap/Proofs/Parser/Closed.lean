import Remap.Proofs.Parser.Run

/-!
# Walking through the grammar

Many facts about the parser hold of every routine that is put together in certain ways from parts that they hold of. The
grammar is gone through once here, for any judgement `J` on routines that is closed under these ways (`GrammarClosed`); a fact about
all runs is then a judgement together with a proof that it is closed.

Terms that a path may continue, and the paths themselves, are left to the judgement: what is built there is finished only once
it was looked into whether a path follows. So are the literals of one token: what they hold was told by a look at that token. A
judgement that treats most nodes alike (`Broad`) is left with what a look decides, and one that treats all nodes alike (`Uniform`)
need not care.
-/

namespace Remap

/-- The kinds of terms that a path can continue, blocks apart. -/
def Kind.isRoot : Kind → Bool
  | .ident | .functionCall | .group | .array | .object => true
  | _ => false

/-- The kinds of nodes that are not about paths: neither a term that a path can continue, nor a query, nor a segment. -/
def Kind.isPlain (k : Kind) : Bool := !(k.isRoot || k = .query || k = .fieldSegment || k = .indexSegment)

/-- The kinds of literals that are one token, before which a number may have a sign. -/
def Kind.isLiteral : Kind → Bool
  | .integerLit | .floatLit | .rawStringLit | .regexLit | .timestampLit | .booleanLit | .nullLit => true
  | _ => false

/-- The kinds of nodes whose content is told by a look at what comes next: literals of one token and index segments. -/
def Kind.isForeseen (k : Kind) : Bool := k.isLiteral || k = .indexSegment

/-- The kinds of nodes of which nothing needs to be known where they are built: plain ones that are no literals of one token. -/
def Kind.isOrdinary (k : Kind) : Bool := k.isPlain && !k.isLiteral

theorem Kind.isPlain_of_isOrdinary {k : Kind} (h : k.isOrdinary = true) : k.isPlain = true := (Bool.and_eq_true_iff.mp h).1

theorem Kind.isForeseen_of_isOrdinary {k : Kind} (h : k.isOrdinary = true) : k.isForeseen = false := by
  revert h
  cases k <;> decide

/-- The kinds of nodes that some judgements treat apart: the program, blocks and what they are part of, objects, which are told from
blocks by a look, and the parameters of a closure, which are compared. -/
def Kind.isParticular : Kind → Bool
  | .program | .block | .object | .ifStatement | .closure | .closureParams => true
  | _ => false

/-- The kinds of ordinary nodes that no judgement has to treat apart. -/
def Kind.isCommon (k : Kind) : Bool := k.isOrdinary && !k.isParticular

theorem Kind.isOrdinary_of_isCommon {k : Kind} (h : k.isCommon = true) : k.isOrdinary = true := (Bool.and_eq_true_iff.mp h).1

theorem Kind.isParticular_of_isCommon {k : Kind} (h : k.isCommon = true) : k.isParticular = false :=
  by simpa using (Bool.and_eq_true_iff.mp h).2

/-- The problems that are about what comes next. -/
def Problem.isAhead : Problem → Bool
  | .expectedExpression | .missingSeparator | .unexpectedToken | .invalidPathContinuation => true
  | _ => false

theorem Kind.isPlain_of_isLiteral {k : Kind} (h : k.isLiteral = true) : k.isPlain = true := by
  unfold Kind.isLiteral at h
  split at h
  all_goals first | rfl | cases h

namespace Parser

variable {α β : Type}

/-- Whether a question is about the tokens close by: how a number is signed, or what follows a name. What a brace opens may be
decided by tokens far behind it. -/
def Lookahead.isNear : Lookahead → Bool
  | .opensObject => false
  | .signs number => number = .integer || number = .float
  | .startsCall | .namesArgument => true

/-- Whether an action is one that the grammar uses on its own. The limit is reported by other means, and the question what
a brace opens is asked at braces only. -/
def Action.isSimple : {α : Type} → Action α → Bool
  | _, .openNode _ | _, .closeNode | _, .mark | _, .wrap _ | _, .unmark | _, .enter | _, .leave | _, .setSeparating _
  | _, .settle => false
  | _, .ahead q => q.isNear
  | _, .report p _ => p != .recursionLimitExceeded
  | _, _ => true

/-- Whether an action is one that no judgement has to treat apart: reports are about what comes next, and the parameters of a
closure are not compared. -/
def Action.isCommon : {α : Type} → Action α → Bool
  | _, .checkParameters => false
  | _, .report p _ => p.isAhead
  | _, action => action.isSimple

theorem Action.isSimple_of_isCommon {action : Action α} (h : action.isCommon = true) : action.isSimple = true := by
  cases action with
  | checkParameters => cases h
  | report p d =>
    cases p with
    | recursionLimitExceeded => cases h
    | _ => rfl
  | _ => exact h

/-- Whether a rule is one that no judgement has to treat apart. Branches are read within the statement that they belong to. -/
def Rule.isCommon : {α : Type} → Rule α → Bool
  | _, .elseBranches => false
  | _, _ => true

/-- Whatever a routine returns passes a test. -/
def Answers (p : α → Bool) (x : Routine α) : Prop :=
  ∀ (enter : {γ : Type} → Rule γ → Step γ) (s t : State) (a : α), x.run enter s = .ok (a, t) → p a = true

theorem Answers.done {p : α → Bool} {a : α} (h : p a = true) : Answers p (pure a : Routine α) := by
  intro enter s t b hrun
  cases hrun
  exact h

theorem Answers.bind {p : β → Bool} {x : Routine α} {f : α → Routine β} (h : ∀ a, Answers p (f a)) : Answers p (x >>= f) := by
  intro enter s t c hrun
  obtain ⟨a, u, _, hf⟩ := Routine.run_bind_eq_ok.mp hrun
  exact h a enter u t c hf

theorem Answers.ite {p : α → Bool} {c : Prop} [Decidable c] {x y : Routine α} (hx : Answers p x) (hy : Answers p y) :
    Answers p (if c then x else y) := by
  split
  · exact hx
  · exact hy

theorem Answers.node {p : α → Bool} {k : Kind} {body : Routine α} (h : Answers p body) : Answers p (Parser.node k body) := by
  intro enter s t a hrun
  obtain ⟨_, s₁, _, hrest⟩ := Routine.run_bind_eq_ok.mp hrun
  obtain ⟨b, s₂, hbody, hend⟩ := Routine.run_bind_eq_ok.mp hrest
  obtain ⟨_, s₃, _, hdone⟩ := Routine.run_bind_eq_ok.mp hend
  cases hdone
  exact h enter s₁ s₂ a hbody

/-- A judgement on routines that is closed under the ways in which the grammar puts routines together. -/
structure GrammarClosed (J : {α : Type} → Routine α → Prop) : Prop where
  done {α : Type} (a : α) : J (pure a : Routine α)
  fail {α : Type} (f : Fault) : J (.fail f : Routine α)
  bind {α β : Type} {x : Routine α} {f : α → Routine β} : J x → (∀ a, J (f a)) → J (x >>= f)
  rule {α : Type} (r : Rule α) : J (Parser.rule r)
  simple {α : Type} {action : Action α} : action.isSimple = true → J (Parser.act action)
  marked {α : Type} {body : Routine α} : J body → J (Parser.marked body)
  separating {α : Type} {body : Routine α} (b : Bool) : J body → J (Parser.separating b body)
  nested {body : Routine Kind} : J body → J (Parser.nested body)
  node {α : Type} {k : Kind} {body : Routine α} : k.isOrdinary = true → J body → J (Parser.node k body)
  wrapped {α : Type} {k : Kind} {body : Routine α} : k.isOrdinary = true → J body → J (Parser.wrapped k body)

/-- A judgement on routines that is closed under the ways in which most of the grammar is put together. What is left out are the parts
that are read with newlines as separators, or without, and those that some judgements treat apart. -/
structure Parts (J : {α : Type} → Routine α → Prop) : Prop where
  done {α : Type} (a : α) : J (pure a : Routine α)
  fail {α : Type} (f : Fault) : J (.fail f : Routine α)
  bind {α β : Type} {x : Routine α} {f : α → Routine β} : J x → (∀ a, J (f a)) → J (x >>= f)
  rule {α : Type} {r : Rule α} : r.isCommon = true → J (Parser.rule r)
  simple {α : Type} {action : Action α} : action.isCommon = true → J (Parser.act action)
  marked {α : Type} {body : Routine α} : J body → J (Parser.marked body)
  nested {body : Routine Kind} : J body → J (Parser.nested body)
  node {α : Type} {k : Kind} {body : Routine α} : k.isCommon = true → J body → J (Parser.node k body)
  wrapped {α : Type} {k : Kind} {body : Routine α} : k.isCommon = true → J body → J (Parser.wrapped k body)

theorem GrammarClosed.toParts {J : {α : Type} → Routine α → Prop} (h : GrammarClosed J) : Parts J where
  done := h.done
  fail := h.fail
  bind := h.bind
  rule _ := h.rule _
  simple hcommon := h.simple (Action.isSimple_of_isCommon hcommon)
  marked := h.marked
  nested := h.nested
  node hk := h.node (Kind.isOrdinary_of_isCommon hk)
  wrapped hk := h.wrapped (Kind.isOrdinary_of_isCommon hk)

/-- A routine builds a node of a kind and returns that kind, and what is inside the node is in the judgement. -/
def Rooted (J : {α : Type} → Routine α → Prop) (k : Kind) (x : Routine Kind) : Prop :=
  ∃ body, x = node k body ∧ Answers (· = k) body ∧ J body

section Parts

variable {J : {α : Type} → Routine α → Prop} (h : Parts J)

theorem closed_ite {c : Prop} [Decidable c] {x y : Routine α} (hx : J x) (hy : J y) : J (if c then x else y) := by
  split
  · exact hx
  · exact hy

include h

theorem Rooted.common {k : Kind} {x : Routine Kind} (hk : k.isCommon = true) (hx : Rooted J k x) : J x := by
  obtain ⟨body, rfl, _, hbody⟩ := hx
  exact h.node hk hbody

theorem closed_peekIs (k : Kind) : J (peekIs k) := h.bind (h.simple rfl) fun _ => h.done _

theorem closed_eat (k : Kind) : J (eat k) := h.bind (closed_peekIs h k) fun _ => closed_ite (h.bind (h.simple rfl) fun _ => h.done _) (h.done _)

theorem closed_require (k : Kind) : J (require k) := h.bind (h.simple rfl) fun _ => closed_ite (h.done _) (h.fail _)

theorem closed_report {p : Problem} (hp : p.isAhead = true) (d : Option Detail) : J (report p d) :=
  h.simple hp

theorem closed_reportFound {p : Problem} (hp : p.isAhead = true) (e : Option Expectation) : J (reportFound p e) := by
  refine h.bind (h.simple rfl) fun k => h.bind (h.simple rfl) fun b => closed_ite (closed_report h hp _) ?_
  cases e <;> exact closed_report h hp _

theorem closed_reportAndAdvance {p : Problem} (hp : p.isAhead = true) (d : Detail) : J (reportAndAdvance p d) :=
  h.bind (closed_report h hp _) fun _ => h.bind (h.simple rfl) fun _ => closed_ite (h.done _) (h.node rfl (h.simple rfl))

theorem closed_newlines : J newlines := h.rule rfl

theorem closed_newlinesBody : J newlinesBody :=
  h.bind (closed_peekIs h _) fun _ => closed_ite (h.bind (h.simple rfl) fun _ => closed_newlines h) (h.done _)

theorem closed_absorbBody : J absorbBody :=
  h.bind (h.simple rfl) fun _ => closed_ite (h.done _) (h.bind (h.simple rfl) fun _ => h.rule rfl)

theorem closed_skipToBody (stops : KindSet) (depth : Nat) : J (skipToBody stops depth) :=
  h.bind (h.simple rfl) fun _ => closed_ite (h.done _) <| h.bind (h.simple rfl) fun _ => closed_ite (h.done _) <|
    h.bind (h.simple rfl) fun _ => h.rule rfl

theorem closed_resync (stops : KindSet) : J (resync stops) :=
  h.bind (h.simple rfl) fun _ => closed_ite (h.done _) <| h.bind (h.simple rfl) fun _ => closed_ite (h.done _) <|
    h.node rfl (h.rule rfl)

theorem closed_close (k : Kind) : J (close k) := by
  have hunclosed (b : Bool) : J (if b then act .popDelimiter else do
      if ← atEnd then act (.reportUnclosed k)
      act .popDelimiter) :=
    closed_ite (h.simple rfl) <| h.bind (h.simple rfl) fun _ =>
      closed_ite (h.bind (h.simple rfl) fun _ => h.simple rfl) (h.simple rfl)
  refine h.bind (closed_eat h k) fun _ => closed_ite (h.simple rfl) <| h.bind (h.simple rfl) fun _ => closed_ite ?_ ?_
  · exact h.bind (h.done false) fun _ => hunclosed _
  · exact h.bind (closed_report h rfl _) fun _ => h.bind (closed_resync h _) fun _ => h.bind (closed_eat h k) fun _ => hunclosed _

/-! Literals and paths. -/

theorem closed_template : J template :=
  h.node rfl <| h.bind (h.simple rfl) fun _ => h.bind (h.rule rfl) fun _ => h.bind (h.simple rfl) fun _ =>
    closed_ite (h.simple rfl) (h.done _)

theorem closed_templatePartsBody : J templatePartsBody := by
  refine h.bind (h.simple rfl) fun k => ?_
  split
  · exact h.bind (h.simple rfl) fun _ => h.rule rfl
  · exact h.bind (h.simple rfl) fun _ => h.rule rfl
  · exact h.done _

theorem closed_stringPartsBody : J stringPartsBody := by
  refine h.bind (h.simple rfl) fun k => ?_
  split
  · exact h.bind (h.simple rfl) fun _ => h.rule rfl
  · exact h.bind (h.simple rfl) fun _ => h.rule rfl
  · exact h.bind (closed_template h) fun _ => h.rule rfl
  · exact h.simple rfl
  · exact h.done _

theorem rooted_string : Rooted J .stringLit string :=
  ⟨_, rfl, .bind fun _ => .bind fun _ => .bind fun _ => .done rfl,
    h.bind (closed_require h _) fun _ => h.bind (h.simple rfl) fun _ => h.bind (h.rule rfl) fun _ => h.done _⟩

theorem closed_string : J string := (rooted_string h).common h rfl

theorem closed_simpleLiteralBody (k : Kind) : J (do
    if ← peekIs .minus then advance
    advance
    return k) :=
  h.bind (closed_peekIs h _) fun _ => closed_ite
    (h.bind (h.simple rfl) fun _ => h.bind (h.simple rfl) fun _ => h.done _) (h.bind (h.simple rfl) fun _ => h.done _)

/-- A literal, if the literals of one token are in the judgement wherever they are read. -/
theorem closed_literal (hliteral : ∀ k : Kind, k.isLiteral = true → J (simpleLiteral k)) : J literal := by
  refine h.bind (h.simple rfl) fun k => ?_
  split
  case h_3 =>
    refine h.bind (h.simple rfl) fun _ => closed_ite (hliteral _ rfl) ?_
    refine h.bind (h.simple rfl) fun _ => closed_ite (hliteral _ rfl) ?_
    exact h.bind (closed_reportAndAdvance h rfl _) fun _ => h.done _
  case h_4 => exact closed_string h
  case h_11 => exact h.fail _
  all_goals exact hliteral _ rfl

theorem closed_fieldName : J fieldName :=
  h.bind (closed_peekIs h _) fun _ => closed_ite (h.bind (closed_string h) fun _ => h.done _) (h.simple rfl)

theorem closed_fieldSegmentBody : J (do
    require .dot
    advance
    let k ← peek
    let named ← if k.isFieldName || k = .doubleQuote then touches else pure false
    if named then fieldName else reportFound .invalidPathContinuation (some .fieldAfterDot)) := by
  refine h.bind (closed_require h _) fun _ => h.bind (h.simple rfl) fun _ => h.bind (h.simple rfl) fun k => ?_
  have hname (b : Bool) : J (if b then fieldName else reportFound .invalidPathContinuation (some .fieldAfterDot)) :=
    closed_ite (closed_fieldName h) (closed_reportFound h rfl _)
  exact closed_ite (h.bind (h.simple rfl) fun b => hname b) (h.bind (h.done _) fun b => hname b)

theorem closed_indexSegmentBody : J (do
    act (.pushDelimiter .bracketOpen)
    advance
    newlines
    let expectInteger := reportFound .unexpectedToken (some .indexInteger)
    match ← peek with
    | .integer => advance
    | .minus =>
      if ← ahead (.signs .integer) then
        advance
        advance
      else expectInteger
    | _ => expectInteger
    newlines
    close .bracketClose) := by
  have hend : J (do newlines; close .bracketClose) := h.bind (closed_newlines h) fun _ => closed_close h _
  have hexpect : J (do reportFound .unexpectedToken (some .indexInteger); newlines; close .bracketClose) :=
    h.bind (closed_reportFound h rfl _) fun _ => hend
  refine h.bind (h.simple rfl) fun _ => h.bind (h.simple rfl) fun _ => h.bind (closed_newlines h) fun _ =>
    h.bind (h.simple rfl) fun k => ?_
  split
  · exact h.bind (h.simple rfl) fun _ => hend
  · exact h.bind (h.simple rfl) fun _ => closed_ite (h.bind (h.simple rfl) fun _ => h.bind (h.simple rfl) fun _ => hend) hexpect
  · exact hexpect

theorem closed_atSegment : J atSegment := h.bind (h.simple rfl) fun _ => closed_ite (h.simple rfl) (h.done _)

theorem closed_atFirstSegment : J atFirstSegment := h.bind (h.simple rfl) fun _ => closed_ite (h.simple rfl) (h.done _)

/-! Lists and calls. -/

theorem closed_element : J element :=
  h.bind (h.simple rfl) fun _ => closed_ite (h.bind (h.rule rfl) fun _ => h.done _)
    (h.bind (closed_reportFound h rfl _) fun _ => h.done _)

theorem closed_entry : J entry := by
  refine h.bind (closed_peekIs h _) fun _ => closed_ite ?_ (h.bind (closed_reportFound h rfl _) fun _ => h.done _)
  refine h.bind (h.node rfl <| h.bind (closed_string h) fun _ => h.bind (closed_newlines h) fun _ => ?_) fun _ => h.done _
  refine h.bind (closed_eat h _) fun _ => closed_ite ?_ (closed_report h rfl _)
  exact h.bind (closed_newlines h) fun _ => h.bind (closed_element h) fun _ => h.done _

theorem closed_argument : J argument := by
  have hnamed (b : Bool) : J (if b then (do
      node .namedArgument do
        advance
        let _ ← eat .colon
        newlines
        let _ ← element
      return true) else element) := by
    refine closed_ite (h.bind (h.node rfl <| h.bind (h.simple rfl) fun _ => h.bind (closed_eat h _) fun _ => ?_) fun _ => h.done _)
      (closed_element h)
    exact h.bind (closed_newlines h) fun _ => h.bind (closed_element h) fun _ => h.done _
  exact h.bind (h.simple rfl) fun _ => closed_ite (h.bind (h.simple rfl) fun b => hnamed b) (h.bind (h.done _) fun b => hnamed b)

theorem closed_parameter : J parameter :=
  h.bind (h.simple rfl) fun _ => closed_ite (h.bind (h.simple rfl) fun _ => h.done _) (h.bind (closed_reportFound h rfl _) fun _ => h.done _)

theorem closed_item (list : ItemList) : J (item list) := by
  cases list with
  | elements => exact closed_element h
  | entries => exact closed_entry h
  | arguments => exact closed_argument h
  | parameters => exact closed_parameter h

theorem closed_itemsBody (list : ItemList) : J (itemsBody list) := by
  refine h.bind (closed_newlines h) fun _ => h.bind (h.simple rfl) fun _ => closed_ite (h.done _) ?_
  refine h.bind (closed_peekIs h _) fun _ => closed_ite (h.done _) <| h.bind (closed_item h list) fun _ => closed_ite ?_ (h.done _)
  exact h.bind (closed_newlines h) fun _ => h.bind (closed_eat h _) fun _ => closed_ite (h.rule rfl) (h.done _)

/-- What stands between the bars of a closure, and the bars. -/
theorem closed_parameterListBody : J (do
    match ← peek with
    | .pipePipe => advance
    | .pipe =>
      act (.pushDelimiter .pipe)
      advance
      rule (.items .parameters)
      close .pipe
    | _ => reportFound .unexpectedToken (some .parameterList)) := by
  refine h.bind (h.simple rfl) fun k => ?_
  split
  · exact h.simple rfl
  · exact h.bind (h.simple rfl) fun _ => h.bind (h.simple rfl) fun _ => h.bind (h.rule rfl) fun _ => closed_close h _
  · exact closed_reportFound h rfl _

/-- A name is read as a call or as a name, depending on what comes next. -/
theorem rooted_identOrCall (harguments : J argumentList) (hclosure : J closure) :
    ∃ call name, Rooted J .functionCall call ∧ Rooted J .ident name ∧
      identOrCall = (do require .id; if ← ahead .startsCall then call else name) := by
  refine ⟨_, _, ⟨_, rfl, ?_, ?_⟩, ⟨_, rfl, .bind fun _ => .done rfl, h.bind (h.simple rfl) fun _ => h.done _⟩, rfl⟩
  · exact .bind fun _ => .bind fun _ => .bind fun _ => .bind fun _ => .ite (.bind fun _ => .done rfl) (.done rfl)
  · refine h.bind (h.simple rfl) fun _ => h.bind (closed_eat h _) fun _ => h.bind harguments fun _ => ?_
    exact h.bind (closed_peekIs h _) fun _ => closed_ite (h.bind hclosure fun _ => h.done _) (h.done _)

theorem closed_missingOperand : J missingOperand := by
  have hother (d : Detail) : J (do
      if ← atEnd then report .expectedExpression none else reportAndAdvance .expectedExpression d) :=
    h.bind (h.simple rfl) fun _ => closed_ite (closed_report h rfl _) (closed_reportAndAdvance h rfl _)
  refine h.bind (h.simple rfl) fun k => ?_
  split
  · exact hother _
  · exact hother _
  · split
    case h_8 => exact hother _
    all_goals exact closed_report h rfl _

/-! Operators. -/

theorem closed_unaryBody (hterm : J term) : J unaryBody := by
  refine h.bind (closed_newlines h) fun _ => h.bind (closed_peekIs h _) fun _ => closed_ite ?_ hterm
  refine h.nested <| h.node rfl <| h.bind (h.simple rfl) fun _ => h.bind (closed_newlines h) fun _ => ?_
  exact h.bind (h.rule rfl) fun _ => h.done _

theorem closed_binaryBody (min : Nat) : J (binaryBody min) :=
  h.marked <| h.bind (h.rule rfl) fun _ => h.rule rfl

theorem closed_binaryRestBody (min : Nat) (lhs : Kind) : J (binaryRestBody min lhs) := by
  refine h.bind (h.simple rfl) fun k => ?_
  split
  · exact h.done _
  · refine closed_ite (h.done _) <| h.nested <| h.bind (h.wrapped rfl ?_) fun _ => h.rule rfl
    exact h.bind (h.simple rfl) fun _ => h.bind (closed_newlines h) fun _ => h.bind (h.rule rfl) fun _ => h.done _

/-! Statements. -/

theorem closed_assignedValue : J assignedValue := by
  refine h.bind (closed_newlines h) fun _ => h.bind (h.simple rfl) fun _ => closed_ite ?_ (closed_reportFound h rfl _)
  exact h.bind (h.rule rfl) fun _ => h.done _

theorem closed_target : J target :=
  h.bind (closed_peekIs h _) fun _ => closed_ite (h.node rfl <| h.bind (h.simple rfl) fun _ => h.done _) (h.rule rfl)

theorem closed_checkTarget (k : Kind) : J (checkTarget k) := by
  unfold checkTarget
  split
  case h_5 => exact h.simple rfl
  all_goals exact h.done _

theorem closed_assignment : J assignment := by
  refine h.marked <| h.bind (closed_target h) fun lhs => h.bind (h.simple rfl) fun k => closed_ite ?_ (closed_ite ?_ ?_)
  · refine h.bind (closed_checkTarget h lhs) fun _ => h.bind (h.wrapped rfl ?_) fun _ => h.done _
    exact h.bind (h.simple rfl) fun _ => closed_assignedValue h
  · refine h.bind (closed_checkTarget h lhs) fun _ => h.bind (h.wrapped rfl ?_) fun _ => h.bind (h.wrapped rfl ?_) fun _ => h.done _
    · refine h.bind (h.simple rfl) fun _ => h.bind (closed_newlines h) fun _ => ?_
      exact h.marked <| h.bind (closed_target h) fun err => closed_checkTarget h err
    · refine h.bind (h.simple rfl) fun _ => closed_ite ?_ (closed_reportFound h rfl _)
      exact h.bind (h.simple rfl) fun _ => closed_assignedValue h
  · exact closed_ite (h.bind (h.simple rfl) fun _ => h.done _) (h.done _)

theorem closed_atContinuation : J atContinuation :=
  h.bind (h.simple rfl) fun _ => closed_ite (h.done _) (closed_ite (h.simple rfl) (h.done _))

theorem closed_conditionsBody (count : Nat) : J (conditionsBody count) := by
  refine h.bind (closed_newlines h) fun _ => h.bind (h.simple rfl) fun _ => closed_ite (h.done _) ?_
  refine h.bind (closed_peekIs h _) fun _ => closed_ite (h.done _) <| h.bind (h.simple rfl) fun k => closed_ite ?_ (closed_ite ?_ ?_)
  · exact h.bind (closed_reportAndAdvance h rfl _) fun _ => h.rule rfl
  · refine h.bind (h.rule rfl) fun _ => h.bind (h.simple rfl) fun k => ?_
    split
    · exact h.bind (closed_newlines h) fun _ => h.rule rfl
    · exact h.bind (h.simple rfl) fun _ => h.bind (closed_newlines h) fun _ => h.rule rfl
    · exact h.done _
  · exact h.bind (closed_reportFound h rfl _) fun _ => h.done _

theorem closed_parenthesised (hgroup : J (wrapped .group (pure ()) >>= fun _ => continuePath .group)) : J parenthesised := by
  have hgrouped (b : Bool) : J (if b then (do
      wrapped .group (pure ())
      let k ← continuePath .group
      let _ ← rule (.binaryRest 0 k)) else pure ()) := by
    refine closed_ite ?_ (h.done _)
    have hpath : J (do
        let k ← wrapped .group (pure ()) >>= fun _ => continuePath .group
        let _ ← rule (.binaryRest 0 k)) :=
      h.bind hgroup fun _ => h.bind (h.rule rfl) fun _ => h.done _
    rw [Routine.bind_eq, Routine.bind_eq, Routine.bind_assoc] at hpath
    exact hpath
  refine h.marked <| h.bind (h.simple rfl) fun _ => h.bind (h.simple rfl) fun _ => h.bind (h.rule rfl) fun count => ?_
  refine h.bind (closed_close h _) fun _ => closed_ite ?_ ?_
  · exact h.bind (closed_atContinuation h) fun b => hgrouped b
  · exact h.bind (h.done _) fun b => hgrouped b

theorem closed_predicate (hgroup : J (wrapped .group (pure ()) >>= fun _ => continuePath .group)) : J predicate := by
  refine h.bind (closed_newlines h) fun _ => h.node rfl <| h.bind (h.simple rfl) fun k => closed_ite (closed_parenthesised h hgroup) ?_
  exact closed_ite (h.bind (h.rule rfl) fun _ => h.done _) (closed_reportFound h rfl _)

theorem closed_branch (hgroup : J (wrapped .group (pure ()) >>= fun _ => continuePath .group)) (hblock : J block) : J branch :=
  h.bind (closed_predicate h hgroup) fun _ => h.bind (closed_newlines h) fun _ => h.bind hblock fun _ => h.done _

theorem closed_elseBranchesBody (hbranch : J branch) (hblock : J block) (hagain : J (rule .elseBranches)) : J elseBranchesBody := by
  refine h.bind (closed_eat h _) fun _ => closed_ite ?_ (h.done _)
  refine h.bind (closed_newlines h) fun _ => h.bind (closed_eat h _) fun _ => closed_ite ?_ ?_
  · exact h.bind hbranch fun _ => hagain
  · exact h.bind hblock fun _ => h.done _

theorem closed_ifStatementBody (hbranch : J branch) (hagain : J (rule .elseBranches)) : J (do
    require .kwIf
    advance
    branch
    rule .elseBranches
    return Kind.ifStatement) :=
  h.bind (closed_require h _) fun _ => h.bind (h.simple rfl) fun _ => h.bind hbranch fun _ => h.bind hagain fun _ => h.done _

theorem rooted_abortStatement : Rooted J .abortStatement abortStatement := by
  refine ⟨_, rfl, .bind fun _ => .bind fun _ => .ite (.bind fun _ => .done rfl) (.done rfl), ?_⟩
  exact h.bind (h.simple rfl) fun _ => h.bind (h.simple rfl) fun _ => closed_ite (h.bind (h.rule rfl) fun _ => h.done _) (h.done _)

theorem rooted_returnStatement : Rooted J .returnStatement returnStatement := by
  refine ⟨_, rfl, .bind fun _ => .bind fun _ => .bind fun _ => .ite (.bind fun _ => .done rfl) (.bind fun _ => .done rfl), ?_⟩
  refine h.bind (h.simple rfl) fun _ => h.bind (closed_newlines h) fun _ => h.bind (h.simple rfl) fun _ => closed_ite ?_ ?_
  · exact h.bind (h.rule rfl) fun _ => h.done _
  · exact h.bind (closed_reportFound h rfl _) fun _ => h.done _

theorem closed_statement (hif : J ifStatement) : J statement := by
  refine h.nested <| h.bind (h.simple rfl) fun k => ?_
  split
  · exact hif
  · exact (rooted_abortStatement h).common h rfl
  · exact (rooted_returnStatement h).common h rfl
  · exact h.rule rfl

theorem closed_endOfStatement (closer : Option Kind) : J (endOfStatement closer) := by
  refine h.bind (h.simple rfl) fun _ => closed_ite (h.done _) <| h.bind (h.simple rfl) fun k => closed_ite ?_ (closed_ite ?_ (closed_ite (h.done _) ?_))
  · exact h.bind (closed_newlines h) fun _ => h.done _
  · exact h.bind (h.simple rfl) fun _ => h.bind (closed_newlines h) fun _ => h.done _
  · exact h.bind (closed_reportFound h rfl _) fun _ => h.done _

theorem closed_statementAndEnd (closer : Option Kind) : J (statementAndEnd closer) :=
  h.bind (h.rule rfl) fun _ => h.bind (closed_endOfStatement h closer) fun _ => closed_ite (h.done _) (closed_resync h _)

theorem closed_statementsBody (closer : Option Kind) : J (statementsBody closer) := by
  have hagain : J (rule (.statements closer)) := h.rule rfl
  refine h.bind (closed_newlines h) fun _ => h.bind (h.simple rfl) fun _ => closed_ite (h.done _) ?_
  refine h.bind (h.simple rfl) fun k => closed_ite (h.done _) (closed_ite ?_ (closed_ite ?_ (closed_ite ?_ ?_)))
  · exact h.bind (closed_reportAndAdvance h rfl _) fun _ => hagain
  · exact h.bind (closed_reportAndAdvance h rfl _) fun _ => hagain
  · exact h.bind (closed_statementAndEnd h closer) fun _ => hagain
  · exact h.bind (closed_reportFound h rfl _) fun _ => h.bind (closed_resync h _) fun _ => hagain

/-- Terms, if all that is left to the judgement is in it. -/
theorem closed_term (hliteral : J literal) (hquery : J externalQuery) (hgroup : J group) (harray : J array) (hobject : J objectOrBlock)
    (hcall : J identOrCall) (hpath : ∀ k, J (continuePath k)) : J term := by
  refine h.nested <| h.marked <| h.bind (h.simple rfl) fun k => ?_
  split
  case h_1 | h_2 => exact h.bind hquery hpath
  case h_13 => exact h.bind hgroup hpath
  case h_14 => exact h.bind harray hpath
  case h_15 => exact h.bind hobject hpath
  case h_16 => exact h.bind hcall hpath
  case h_17 => exact h.bind (closed_missingOperand h) fun _ => h.done _
  all_goals exact h.bind hliteral hpath

/-- Paths that continue a term, if the nodes of a query and of its path are in the judgement. -/
theorem closed_continuePath (hquery : J (wrapped .query (node .path (rule .pathSegments)))) (k : Kind) : J (continuePath k) := by
  have hcontinued (b : Bool) : J (if b then (do
      wrapped .query (node .path (rule .pathSegments)); return .query) else return k) :=
    closed_ite (h.bind hquery fun _ => h.done _) (h.done _)
  exact closed_ite (h.bind (closed_atSegment h) fun b => hcontinued b) (h.bind (h.done _) fun b => hcontinued b)

/-- A query with a bare root, if what comes right after that root is in the judgement. -/
theorem rooted_externalQuery
    (hfirst : J (do
      if ← peekIs .bracketOpen then indexSegment else node .fieldSegment fieldName
      rule .pathSegments)) : Rooted J .query externalQuery := by
  refine ⟨_, rfl, .bind fun _ => .bind fun _ => .ite (.bind fun _ => .done rfl)
    (.bind fun _ => .ite (.bind fun _ => .bind fun _ => .done rfl) (.done rfl)), ?_⟩
  refine h.bind (h.simple rfl) fun _ => h.bind (closed_atFirstSegment h) fun _ => closed_ite ?_ ?_
  · exact h.bind (h.node rfl hfirst) fun _ => h.done _
  · refine h.bind (closed_atSegment h) fun _ => closed_ite (h.bind (closed_report h rfl _) fun _ => ?_) (h.done _)
    exact h.bind (h.node rfl (h.rule rfl)) fun _ => h.done _

/-- The body of every common rule, if terms, paths and `if` statements are in the judgement. -/
theorem closed_common (hterm : J term) (hsegments : J pathSegmentsBody) (hif : J ifStatement) {r : Rule α} (hr : r.isCommon = true) :
    J (grammar r) := by
  cases r with
  | newlines => exact closed_newlinesBody h
  | absorb => exact closed_absorbBody h
  | skipTo stops depth => exact closed_skipToBody h stops depth
  | stringParts => exact closed_stringPartsBody h
  | templateParts => exact closed_templatePartsBody h
  | pathSegments => exact hsegments
  | items list => exact closed_itemsBody h list
  | statements closer => exact closed_statementsBody h closer
  | conditions count => exact closed_conditionsBody h count
  | elseBranches => cases hr
  | statement => exact closed_statement h hif
  | assignment => exact closed_assignment h
  | binary min => exact closed_binaryBody h min
  | binaryRest min lhs => exact closed_binaryRestBody h min lhs
  | unary => exact closed_unaryBody h hterm

end Parts

/-! Containers. -/

section Containers

variable {J : {α : Type} → Routine α → Prop} (h : Parts J)
  (hseparating : ∀ {β : Type} {x : Routine β} (b : Bool), J x → J (separating b x))

include h hseparating

theorem rooted_group : Rooted J .group group := by
  refine ⟨_, rfl, .bind fun _ => .bind fun _ => .bind fun _ => .done rfl, ?_⟩
  refine h.bind (h.simple rfl) fun _ => h.bind (h.simple rfl) fun _ => h.bind (hseparating false ?_) fun _ => h.done _
  refine h.bind (h.simple rfl) fun k => closed_ite ?_ ?_
  · exact h.bind (h.rule rfl) fun _ => closed_close h _
  · exact h.bind (closed_reportFound h rfl _) fun _ => closed_close h _

theorem closed_delimited (opener : Kind) (list : ItemList) : J (delimited opener list) :=
  h.bind (h.simple rfl) fun _ => h.bind (h.simple rfl) fun _ => hseparating true <|
    h.bind (h.rule rfl) fun _ => closed_close h _

theorem rooted_array : Rooted J .array array :=
  ⟨_, rfl, .bind fun _ => .done rfl, h.bind (closed_delimited h hseparating _ _) fun _ => h.done _⟩

theorem rooted_object : Rooted J .object object :=
  ⟨_, rfl, .bind fun _ => .done rfl, h.bind (closed_delimited h hseparating _ _) fun _ => h.done _⟩

/-- A block is a node if there is a brace, and else it is missing. -/
theorem rooted_block :
    ∃ x, Rooted J .block x ∧ block = (do
      if ← peekIs .braceOpen then x
      else
        reportFound .unexpectedToken (some .openBrace)
        return .error) := by
  refine ⟨_, ⟨_, rfl, .bind fun _ => .bind fun _ => .bind fun _ => .bind fun _ => .done rfl, ?_⟩, rfl⟩
  refine h.bind (h.simple rfl) fun _ => h.bind (h.simple rfl) fun _ =>
    h.bind (hseparating true (h.rule rfl)) fun _ => ?_
  exact h.bind (closed_close h _) fun _ => h.done _

end Containers

section Grammar

variable {J : {α : Type} → Routine α → Prop} (h : GrammarClosed J)

include h

theorem closed_block : J block := by
  obtain ⟨_, ⟨body, rfl, _, hbody⟩, heq⟩ := rooted_block h.toParts h.separating
  rw [heq]
  exact h.bind (closed_peekIs h.toParts _) fun _ =>
    closed_ite (h.node rfl hbody) (h.bind (closed_reportFound h.toParts rfl _) fun _ => h.done _)

theorem closed_closure : J closure := by
  refine h.node rfl <| h.bind (h.simple rfl) fun _ => h.bind (h.node rfl (closed_parameterListBody h.toParts)) fun _ => ?_
  exact h.bind (h.simple rfl) fun _ => h.bind (closed_newlines h.toParts) fun _ => h.bind (closed_block h) fun _ => h.done _

theorem closed_argumentList : J argumentList :=
  h.node rfl <| h.bind (closed_require h.toParts _) fun _ => closed_delimited h.toParts h.separating _ _

/-- The body of every rule is in the judgement, if terms, groups that a path may continue, and paths are. -/
theorem closed_grammar (hterm : J term) (hgroup : J (wrapped .group (pure ()) >>= fun _ => continuePath .group))
    (hsegments : J pathSegmentsBody) (r : Rule α) : J (grammar r) := by
  have hbranch : J branch := closed_branch h.toParts hgroup (closed_block h)
  cases hr : r.isCommon with
  | true => exact closed_common h.toParts hterm hsegments (h.node rfl (closed_ifStatementBody h.toParts hbranch (h.rule _))) hr
  | false =>
    cases r with
    | elseBranches => exact closed_elseBranchesBody h.toParts hbranch (closed_block h) (h.rule _)
    | _ => cases hr

end Grammar

/-! ## Judgements that treat most nodes alike -/

/-- A judgement that is closed under building nodes of any kind, but for those whose content is told by a look. -/
structure Broad (J : {α : Type} → Routine α → Prop) : Prop extends GrammarClosed J where
  otherNode {α : Type} {k : Kind} {body : Routine α} : k.isForeseen = false → J body → J (Parser.node k body)
  otherWrapped {α : Type} {k : Kind} {body : Routine α} : k.isForeseen = false → J body → J (Parser.wrapped k body)

section Broad

variable {J : {α : Type} → Routine α → Prop} (b : Broad J)

include b

theorem Rooted.broad {k : Kind} {x : Routine Kind} (hk : k.isForeseen = false) (hx : Rooted J k x) : J x := by
  obtain ⟨body, rfl, _, hbody⟩ := hx
  exact b.otherNode hk hbody

theorem broad_continuePath (k : Kind) : J (continuePath k) :=
  closed_continuePath b.toParts (b.otherWrapped rfl (b.otherNode rfl (b.rule .pathSegments))) k

theorem broad_fieldSegment : J fieldSegment := b.otherNode rfl (closed_fieldSegmentBody b.toParts)

/-- A query with a bare root, if what comes right after that root is in the judgement. -/
theorem broad_externalQuery
    (hfirst : J (do
      if ← peekIs .bracketOpen then indexSegment else node .fieldSegment fieldName
      rule .pathSegments)) : J externalQuery :=
  (rooted_externalQuery b.toParts hfirst).broad b rfl

theorem broad_identOrCall : J identOrCall := by
  obtain ⟨call, name, hcall, hname, heq⟩ :=
    rooted_identOrCall b.toParts (closed_argumentList b.toGrammarClosed) (closed_closure b.toGrammarClosed)
  rw [heq]
  exact b.bind (closed_require b.toParts _) fun _ => b.bind (b.simple rfl) fun _ => closed_ite (hcall.broad b rfl) (hname.broad b rfl)

/-- What opens an object or a block, if the question which of the two is in the judgement. -/
theorem broad_objectOrBlock (hahead : J (ahead .opensObject)) : J objectOrBlock :=
  b.bind (closed_require b.toParts _) fun _ => b.bind hahead fun _ =>
    closed_ite ((rooted_object b.toParts b.separating).broad b rfl) (closed_block b.toGrammarClosed)

theorem broad_term (hliteral : J literal) (hquery : J externalQuery) (hobject : J objectOrBlock) : J term :=
  closed_term b.toParts hliteral hquery ((rooted_group b.toParts b.separating).broad b rfl)
    ((rooted_array b.toParts b.separating).broad b rfl) hobject (broad_identOrCall b) (broad_continuePath b)

/-- The body of every rule is in the judgement, if literals, queries with a bare root, path segments and what a brace opens
are. -/
theorem broad_grammar (hliteral : J literal) (hquery : J externalQuery) (hsegments : J pathSegmentsBody) (hobject : J objectOrBlock)
    (r : Rule α) : J (grammar r) :=
  closed_grammar b.toGrammarClosed (broad_term b hliteral hquery hobject)
    (b.bind (b.otherWrapped rfl (b.done _)) fun _ => broad_continuePath b _) hsegments r

end Broad

/-! ## Judgements that treat all nodes alike but for particular ones -/

/-- A judgement that is closed under building nodes of any kind that is not particular. -/
structure Level (J : {α : Type} → Routine α → Prop) : Prop extends Parts J where
  levelNode {α : Type} {k : Kind} {body : Routine α} : k.isParticular = false → J body → J (Parser.node k body)
  levelWrapped {α : Type} {k : Kind} {body : Routine α} : k.isParticular = false → J body → J (Parser.wrapped k body)

section Level

variable {J : {α : Type} → Routine α → Prop} (l : Level J)

include l

theorem Rooted.level {k : Kind} {x : Routine Kind} (hk : k.isParticular = false) (hx : Rooted J k x) : J x := by
  obtain ⟨body, rfl, _, hbody⟩ := hx
  exact l.levelNode hk hbody

theorem level_literal : J literal := by
  refine closed_literal l.toParts fun k hk => l.levelNode ?_ (closed_simpleLiteralBody l.toParts k)
  cases k <;> first | rfl | cases hk

theorem level_continuePath (k : Kind) : J (continuePath k) :=
  closed_continuePath l.toParts (l.levelWrapped rfl (l.levelNode rfl (l.rule rfl))) k

theorem level_indexSegment : J indexSegment := l.levelNode rfl (closed_indexSegmentBody l.toParts)

theorem level_pathSegmentsBody : J pathSegmentsBody := by
  refine l.bind (closed_atSegment l.toParts) fun _ => closed_ite (l.bind (closed_peekIs l.toParts _) fun _ => ?_) (l.done _)
  exact closed_ite (l.bind (l.levelNode rfl (closed_fieldSegmentBody l.toParts)) fun _ => l.rule rfl)
    (l.bind (level_indexSegment l) fun _ => l.rule rfl)

theorem level_firstSegment : J (do
    if ← peekIs .bracketOpen then indexSegment else node .fieldSegment fieldName
    rule .pathSegments) := by
  refine l.bind (closed_peekIs l.toParts _) fun _ => closed_ite ?_ ?_
  · exact l.bind (level_indexSegment l) fun _ => l.rule rfl
  · exact l.bind (l.levelNode rfl (closed_fieldName l.toParts)) fun _ => l.rule rfl

theorem level_externalQuery : J externalQuery := (rooted_externalQuery l.toParts (level_firstSegment l)).level l rfl

theorem level_identOrCall (harguments : J argumentList) (hclosure : J closure) : J identOrCall := by
  obtain ⟨call, name, hcall, hname, heq⟩ := rooted_identOrCall l.toParts harguments hclosure
  rw [heq]
  exact l.bind (closed_require l.toParts _) fun _ => l.bind (l.simple rfl) fun _ => closed_ite (hcall.level l rfl) (hname.level l rfl)

/-- A group that a path may continue. -/
theorem level_continuedGroup : J (wrapped .group (pure ()) >>= fun _ => continuePath .group) :=
  l.bind (l.levelWrapped rfl (l.done _)) fun _ => level_continuePath l _

/-- The body of every common rule, if groups, lists, what a brace opens, closures and `if` statements are in the judgement. -/
theorem level_common (hgroup : J group) (hdelimited : ∀ opener list, J (delimited opener list)) (hobject : J objectOrBlock)
    (hclosure : J closure) (hif : J ifStatement) {r : Rule α} (hr : r.isCommon = true) : J (grammar r) := by
  have harray : J array := l.levelNode rfl (l.bind (hdelimited _ _) fun _ => l.done _)
  have harguments : J argumentList := l.node rfl (l.bind (closed_require l.toParts _) fun _ => hdelimited _ _)
  have hterm : J term := closed_term l.toParts (level_literal l) (level_externalQuery l) hgroup harray hobject
    (level_identOrCall l harguments hclosure) (level_continuePath l)
  exact closed_common l.toParts hterm (level_pathSegmentsBody l) hif hr

/-- The body of every rule, if all that is treated apart is what stands in a closure. -/
theorem level_grammar (hseparating : ∀ {β : Type} {x : Routine β} (b : Bool), J x → J (separating b x))
    (hnode : ∀ {β : Type} {k : Kind} {body : Routine β}, J body → k ≠ .closure → k ≠ .closureParams → J (node k body))
    (hahead : J (ahead .opensObject)) (hbranches : J (rule .elseBranches)) (hclosure : J block → J closure) (r : Rule α) :
    J (grammar r) := by
  have hrooted {k : Kind} {x : Routine Kind} (hx : Rooted J k x) (hk : k ≠ .closure) (hk' : k ≠ .closureParams) : J x := by
    obtain ⟨body, rfl, _, hbody⟩ := hx
    exact hnode hbody hk hk'
  have hblock : J block := by
    obtain ⟨x, hx, heq⟩ := rooted_block l.toParts hseparating
    rw [heq]
    exact l.bind (closed_peekIs l.toParts _) fun _ =>
      closed_ite (hrooted hx nofun nofun) (l.bind (closed_reportFound l.toParts rfl _) fun _ => l.done _)
  have hobject : J objectOrBlock := l.bind (closed_require l.toParts _) fun _ => l.bind hahead fun _ =>
    closed_ite (hrooted (rooted_object l.toParts hseparating) nofun nofun) hblock
  have hgroup : J group := hrooted (rooted_group l.toParts hseparating) nofun nofun
  have hbranch : J branch := closed_branch l.toParts (level_continuedGroup l) hblock
  have hif : J ifStatement := hnode (closed_ifStatementBody l.toParts hbranch hbranches) nofun nofun
  cases hr : r.isCommon with
  | true => exact level_common l hgroup (closed_delimited l.toParts hseparating) hobject (hclosure hblock) hif hr
  | false =>
    cases r with
    | elseBranches => exact closed_elseBranchesBody l.toParts hbranch hblock hbranches
    | _ => cases hr

end Level

/-! ## Judgements that treat all nodes alike -/

/-- A judgement that is closed under building nodes of any kind. -/
structure Uniform (J : {α : Type} → Routine α → Prop) : Prop extends GrammarClosed J where
  anyNode {α : Type} {body : Routine α} (k : Kind) : J body → J (Parser.node k body)
  anyWrapped {α : Type} {body : Routine α} (k : Kind) : J body → J (Parser.wrapped k body)

section Uniform

variable {J : {α : Type} → Routine α → Prop} (u : Uniform J)

include u

theorem Uniform.toBroad : Broad J where
  toGrammarClosed := u.toGrammarClosed
  otherNode _ := u.anyNode _
  otherWrapped _ := u.anyWrapped _

theorem Uniform.toLevel : Level J where
  toParts := u.toParts
  levelNode _ := u.anyNode _
  levelWrapped _ := u.anyWrapped _

theorem Rooted.uniform {k : Kind} {x : Routine Kind} (hx : Rooted J k x) : J x := by
  obtain ⟨body, rfl, _, hbody⟩ := hx
  exact u.anyNode k hbody

theorem uniform_continuePath (k : Kind) : J (continuePath k) := broad_continuePath u.toBroad k

theorem uniform_objectOrBlock (hahead : J (ahead .opensObject)) : J objectOrBlock := broad_objectOrBlock u.toBroad hahead

/-- The body of every rule is in the judgement, if what a brace opens is. -/
theorem uniform_grammar (hobject : J objectOrBlock) (r : Rule α) : J (grammar r) :=
  broad_grammar u.toBroad (level_literal u.toLevel) (level_externalQuery u.toLevel) (level_pathSegmentsBody u.toLevel) hobject r

end Uniform

end Parser

end Remap
