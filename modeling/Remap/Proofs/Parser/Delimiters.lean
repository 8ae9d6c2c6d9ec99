import Remap.Proofs.Parser.Effects
import Remap.Proofs.Parser.Run

/-!
# Delimiters

Every routine closes the delimiters that it opens, innermost first, and what it says about an open delimiter is said about the
innermost one that it opened itself. This is read off the routines (`Routine.Pairs`); the grammar is gone through once here.

So what was open before a rule was entered makes no difference to the rule (`runRule_atop`), and a fact that is kept by every
action with the delimiters it may be about is kept by every run (`Balanced.keeps`).
-/

namespace Remap

/-- What closes a delimiter. -/
def Kind.mate? : Kind → Option Kind
  | .parenOpen => some .parenClose
  | .bracketOpen => some .bracketClose
  | .braceOpen => some .braceClose
  | .pipe => some .pipe
  | _ => none

namespace Parser

variable {α β : Type}

namespace Action

/-- Whether an action may be performed where a routine has opened delimiters of these kinds, innermost first. -/
def pairs : {α : Type} → Action α → List Kind → Prop
  | _, .popDelimiter, ks => ks ≠ []
  | _, .reportUnclosed closer, ks => ks.head?.bind Kind.mate? = some closer
  | _, _, _ => True

/-- The kinds of the delimiters that are open after an action. -/
def opened : {α : Type} → Action α → List Kind → List Kind
  | _, .pushDelimiter k, ks => k :: ks
  | _, .popDelimiter, ks => ks.tail
  | _, _, ks => ks

/-- Whether an action has to do with delimiters. -/
def isNeutral : {α : Type} → Action α → Bool
  | _, .pushDelimiter _ | _, .popDelimiter | _, .reportUnclosed _ => false
  | _, _ => true

theorem pairs_of_isNeutral {action : Action α} (h : action.isNeutral = true) (ks : List Kind) : action.pairs ks := by
  cases action <;> trivial

theorem opened_of_isNeutral {action : Action α} (h : action.isNeutral = true) (ks : List Kind) : action.opened ks = ks := by
  cases action <;> first | rfl | cases h

end Action

/-- Where a routine has opened delimiters of the kinds `ks`, it performs no action that it may not, and it ends with those of
kinds that satisfy `Q`. The rules that it enters leave the delimiters as they are. -/
def Routine.Pairs : Routine α → List Kind → (α → List Kind → Prop) → Prop
  | .done a, ks, Q => Q a ks
  | .fail _, _, _ => True
  | .act action next, ks, Q => action.pairs ks ∧ ∀ b, (next b).Pairs (action.opened ks) Q
  | .call _ next, ks, Q => ∀ b, (next b).Pairs ks Q
  | .jump _, ks, Q => ∀ a, Q a ks

namespace Routine.Pairs

variable {ks : List Kind}

/-- One routine after another. -/
theorem bind {x : Routine α} {f : α → Routine β} {Q : β → List Kind → Prop} (h : x.Pairs ks fun a ks' => (f a).Pairs ks' Q) :
    (x >>= f).Pairs ks Q := by
  induction x generalizing ks with
  | done a => exact h
  | fail e => trivial
  | act action next ih => exact ⟨h.1, fun b => ih b (h.2 b)⟩
  | call rule next ih => exact fun b => ih b (h b)
  | jump rule => exact h

theorem imp {x : Routine α} {Q Q' : α → List Kind → Prop} (h : x.Pairs ks Q) (hQ : ∀ a ks', Q a ks' → Q' a ks') :
    x.Pairs ks Q' := by
  induction x generalizing ks with
  | done a => exact hQ a ks h
  | fail e => trivial
  | act action next ih => exact ⟨h.1, fun b => ih b (h.2 b)⟩
  | call rule next ih => exact fun b => ih b (h b)
  | jump rule => exact fun a => hQ a ks (h a)

end Routine.Pairs

/-- A routine leaves the delimiters as they were. -/
def Balanced (x : Routine α) : Prop := ∀ ks, x.Pairs ks fun _ ks' => ks' = ks

/-- A routine closes the innermost delimiter, if that is one for the closer. -/
def Shuts (closer : Kind) (x : Routine α) : Prop :=
  ∀ k ks, k.mate? = some closer → x.Pairs (k :: ks) fun _ ks' => ks' = ks

namespace Balanced

variable {x : Routine α} {f : α → Routine β}

theorem done (a : α) : Balanced (pure a : Routine α) := fun _ => rfl

theorem fail (e : Fault) : Balanced (.fail e : Routine α) := fun _ => trivial

theorem rule (r : Rule α) : Balanced (Parser.rule r) := fun _ _ => rfl

theorem bind (hx : Balanced x) (hf : ∀ a, Balanced (f a)) : Balanced (x >>= f) := by
  refine fun ks => .bind ((hx ks).imp fun a ks' hks => ?_)
  rw [hks]
  exact hf a ks

theorem ite {c : Prop} [Decidable c] {y : Routine α} (hx : Balanced x) (hy : Balanced y) : Balanced (if c then x else y) := by
  split
  · exact hx
  · exact hy

theorem act {action : Action α} (h : action.isNeutral = true) : Balanced (Parser.act action) :=
  fun ks => ⟨Action.pairs_of_isNeutral h ks, fun _ => Action.opened_of_isNeutral h ks⟩

theorem node {k : Kind} (h : Balanced x) : Balanced (Parser.node k x) :=
  .bind (.act rfl) fun _ => .bind h fun _ => .bind (.act rfl) fun _ => .done _

theorem wrapped {k : Kind} (h : Balanced x) : Balanced (Parser.wrapped k x) :=
  .bind (.act rfl) fun _ => .bind h fun _ => .bind (.act rfl) fun _ => .done _

theorem marked (h : Balanced x) : Balanced (Parser.marked x) :=
  .bind (.act rfl) fun _ => .bind h fun _ => .bind (.act rfl) fun _ => .done _

theorem separating {b : Bool} (h : Balanced x) : Balanced (Parser.separating b x) :=
  .bind (.act rfl) fun _ => .bind h fun _ => .bind (.act rfl) fun _ => .done _

theorem nested {body : Routine Kind} (h : Balanced body) : Balanced (Parser.nested body) := by
  refine .bind (.act rfl) fun entry => ?_
  cases entry with
  | entered => exact .bind h fun _ => .bind (.act rfl) fun _ => .done _
  | blocked => exact .done _
  | overflow => exact .bind (.node (.bind (.rule .absorb) fun _ => .act rfl)) fun _ => .done _

/-- A delimiter is opened, and closed again. -/
theorem enclosed {k closer : Kind} (hk : k.mate? = some closer) {f : Unit → Routine α} (hf : Shuts closer (f ())) :
    Balanced (Parser.act (.pushDelimiter k) >>= f) :=
  fun ks => ⟨trivial, fun _ => hf k ks hk⟩

end Balanced

namespace Shuts

variable {closer : Kind} {x : Routine α} {f : α → Routine β}

theorem after (hx : Balanced x) (hf : ∀ a, Shuts closer (f a)) : Shuts closer (x >>= f) := by
  refine fun k ks hk => .bind ((hx (k :: ks)).imp fun a ks' hks => ?_)
  rw [hks]
  exact hf a k ks hk

theorem before (hx : Shuts closer x) (hf : ∀ a, Balanced (f a)) : Shuts closer (x >>= f) := by
  refine fun k ks hk => .bind ((hx k ks hk).imp fun a ks' hks => ?_)
  rw [hks]
  exact hf a ks

theorem ite {c : Prop} [Decidable c] {y : Routine α} (hx : Shuts closer x) (hy : Shuts closer y) :
    Shuts closer (if c then x else y) := by
  split
  · exact hx
  · exact hy

theorem popDelimiter : Shuts closer (Parser.act .popDelimiter) := fun _ _ _ => ⟨List.cons_ne_nil _ _, fun _ => rfl⟩

theorem separating {b : Bool} (h : Shuts closer x) : Shuts closer (Parser.separating b x) :=
  .after (.act rfl) fun _ => .before h fun _ => .bind (.act rfl) fun _ => .done _

end Shuts

/-! ## The grammar -/

theorem balanced_peekIs (k : Kind) : Balanced (peekIs k) := .bind (.act rfl) fun _ => .done _

theorem balanced_eat (k : Kind) : Balanced (eat k) :=
  .bind (balanced_peekIs k) fun _ => .ite (.bind (.act rfl) fun _ => .done _) (.done _)

theorem balanced_require (k : Kind) : Balanced (require k) := .bind (.act rfl) fun _ => .ite (.done _) (.fail _)

theorem balanced_reportFound (p : Problem) (e : Option Expectation) : Balanced (reportFound p e) := by
  refine .bind (.act rfl) fun _ => .bind (.act rfl) fun _ => .ite (.act rfl) ?_
  cases e <;> exact .act rfl

theorem balanced_reportAndAdvance (p : Problem) (d : Detail) : Balanced (reportAndAdvance p d) :=
  .bind (.act rfl) fun _ => .bind (.act rfl) fun _ => .ite (.done _) (.node (.act rfl))

theorem balanced_resync (stops : KindSet) : Balanced (resync stops) :=
  .bind (.act rfl) fun _ => .ite (.done _) <| .bind (.act rfl) fun _ => .ite (.done _) (.node (.rule _))

/-- A delimiter is closed in any case, and reported as not closed only where it is still open. -/
theorem shuts_close (closer : Kind) : Shuts closer (close closer) := by
  have hunclosed (b : Bool) : Shuts closer (if b then act .popDelimiter else do
      if ← atEnd then act (.reportUnclosed closer)
      act .popDelimiter) := by
    refine .ite .popDelimiter <| .after (.act rfl) fun _ => .ite ?_ .popDelimiter
    exact fun k ks hk => ⟨hk, fun _ => Shuts.popDelimiter k ks hk⟩
  refine .after (balanced_eat closer) fun _ => .ite .popDelimiter <| .after (.act rfl) fun _ =>
    .ite (.after (.done false) hunclosed) ?_
  exact .after (.act rfl) fun _ => .after (balanced_resync _) fun _ => .after (balanced_eat closer) hunclosed

theorem balanced_template : Balanced template :=
  .node <| .bind (.act rfl) fun _ => .bind (.rule .templateParts) fun _ => .bind (.act rfl) fun _ => .ite (.act rfl) (.done _)

theorem balanced_string : Balanced string :=
  .node <| .bind (balanced_require _) fun _ => .bind (.act rfl) fun _ => .bind (.rule .stringParts) fun _ => .done _

theorem balanced_simpleLiteral (k : Kind) : Balanced (simpleLiteral k) := by
  have hlast : Balanced (do advance; return k) := .bind (.act rfl) fun _ => .done _
  exact .node <| .bind (balanced_peekIs _) fun _ => .ite (.bind (.act rfl) fun _ => hlast) hlast

theorem balanced_literal : Balanced literal := by
  refine .bind (.act rfl) fun k => ?_
  split
  case h_3 =>
    refine .bind (.act rfl) fun _ => .ite (balanced_simpleLiteral _) <| .bind (.act rfl) fun _ => .ite (balanced_simpleLiteral _) ?_
    exact .bind (balanced_reportAndAdvance _ _) fun _ => .done _
  case h_4 => exact balanced_string
  case h_11 => exact .fail _
  all_goals exact balanced_simpleLiteral _

theorem balanced_fieldName : Balanced fieldName :=
  .bind (balanced_peekIs _) fun _ => .ite (.bind balanced_string fun _ => .done _) (.act rfl)

theorem balanced_fieldSegment : Balanced fieldSegment := by
  have hname (b : Bool) : Balanced (if b then fieldName else reportFound .invalidPathContinuation (some .fieldAfterDot)) :=
    .ite balanced_fieldName (balanced_reportFound _ _)
  exact .node <| .bind (balanced_require _) fun _ => .bind (.act rfl) fun _ => .bind (.act rfl) fun _ =>
    .ite (.bind (.act rfl) hname) (.bind (.done _) hname)

theorem balanced_indexSegment : Balanced indexSegment := by
  have hend : Shuts .bracketClose (do newlines; close .bracketClose) := .after (.rule .newlines) fun _ => shuts_close _
  have hexpect : Shuts .bracketClose (do
      reportFound .unexpectedToken (some .indexInteger); newlines; close .bracketClose) :=
    .after (balanced_reportFound _ _) fun _ => hend
  refine .node <| .enclosed rfl <| .after (.act rfl) fun _ => .after (.rule .newlines) fun _ => .after (.act rfl) fun k => ?_
  split
  · exact .after (.act rfl) fun _ => hend
  · exact .after (.act rfl) fun _ => .ite (.after (.act rfl) fun _ => .after (.act rfl) fun _ => hend) hexpect
  · exact hexpect

theorem balanced_atSegment : Balanced atSegment := .bind (.act rfl) fun _ => .ite (.act rfl) (.done _)

theorem balanced_atFirstSegment : Balanced atFirstSegment := .bind (.act rfl) fun _ => .ite (.act rfl) (.done _)

theorem balanced_pathSegmentsBody : Balanced pathSegmentsBody :=
  .bind balanced_atSegment fun _ => .ite (.bind (balanced_peekIs _) fun _ =>
    .ite (.bind balanced_fieldSegment fun _ => .rule .pathSegments) (.bind balanced_indexSegment fun _ => .rule .pathSegments)) (.done _)

theorem balanced_externalQuery : Balanced externalQuery := by
  have hsegments : Balanced (rule .pathSegments) := .rule .pathSegments
  refine .node <| .bind (.act rfl) fun _ => .bind balanced_atFirstSegment fun _ =>
    .ite (.bind (.node ?_) fun _ => .done _) <| .bind balanced_atSegment fun _ => .ite ?_ (.done _)
  · exact .bind (balanced_peekIs _) fun _ => .ite (.bind balanced_indexSegment fun _ => hsegments)
      (.bind (.node balanced_fieldName) fun _ => hsegments)
  · exact .bind (.act rfl) fun _ => .bind (.node hsegments) fun _ => .done _

theorem balanced_continuePath (k : Kind) : Balanced (continuePath k) := by
  have hquery (b : Bool) : Balanced (if b then (do
      wrapped .query (node .path (rule .pathSegments)); return .query) else return k) :=
    .ite (.bind (.wrapped (.node (.rule .pathSegments))) fun _ => .done _) (.done _)
  exact .ite (.bind balanced_atSegment hquery) (.bind (.done _) hquery)

theorem balanced_group : Balanced group := by
  refine .node <| .enclosed rfl <| .after (.act rfl) fun _ => .before (.separating <| .after (.act rfl) fun _ => .ite ?_ ?_)
    fun _ => .done _
  · exact .after (.rule .assignment) fun _ => shuts_close _
  · exact .after (balanced_reportFound _ _) fun _ => shuts_close _

theorem balanced_delimited {opener : Kind} {list : ItemList} (h : opener.mate? = some list.closer) :
    Balanced (delimited opener list) :=
  .enclosed h <| .after (.act rfl) fun _ => .separating <| .after (.rule (.items list)) fun _ => shuts_close _

theorem balanced_array : Balanced array := .node <| .bind (balanced_delimited rfl) fun _ => .done _

theorem balanced_object : Balanced object := .node <| .bind (balanced_delimited rfl) fun _ => .done _

theorem balanced_block : Balanced block := by
  refine .bind (balanced_peekIs _) fun _ => .ite (.node <| .enclosed rfl <| .after (.act rfl) fun _ => ?_) ?_
  · exact .after (.separating (.rule (.statements (some .braceClose)))) fun _ => .before (shuts_close _) fun _ => .done _
  · exact .bind (balanced_reportFound _ _) fun _ => .done _

theorem balanced_element : Balanced element :=
  .bind (.act rfl) fun _ => .ite (.bind (.rule (.binary 0)) fun _ => .done _) (.bind (balanced_reportFound _ _) fun _ => .done _)

theorem balanced_entry : Balanced entry := by
  refine .bind (balanced_peekIs _) fun _ => .ite ?_ (.bind (balanced_reportFound _ _) fun _ => .done _)
  refine .bind (.node <| .bind balanced_string fun _ => .bind (.rule .newlines) fun _ => ?_) fun _ => .done _
  refine .bind (balanced_eat _) fun _ => .ite ?_ (.act rfl)
  exact .bind (.rule .newlines) fun _ => .bind balanced_element fun _ => .done _

theorem balanced_argument : Balanced argument := by
  have hnamed (b : Bool) : Balanced (if b then (do
      node .namedArgument do
        advance
        let _ ← eat .colon
        newlines
        let _ ← element
      return true) else element) := by
    refine .ite (.bind (.node <| .bind (.act rfl) fun _ => .bind (balanced_eat _) fun _ => ?_) fun _ => .done _) balanced_element
    exact .bind (.rule .newlines) fun _ => .bind balanced_element fun _ => .done _
  exact .bind (.act rfl) fun _ => .ite (.bind (.act rfl) hnamed) (.bind (.done _) hnamed)

theorem balanced_parameter : Balanced parameter :=
  .bind (.act rfl) fun _ => .ite (.bind (.act rfl) fun _ => .done _) (.bind (balanced_reportFound _ _) fun _ => .done _)

theorem balanced_item (list : ItemList) : Balanced (item list) := by
  cases list with
  | elements => exact balanced_element
  | entries => exact balanced_entry
  | arguments => exact balanced_argument
  | parameters => exact balanced_parameter

theorem balanced_itemsBody (list : ItemList) : Balanced (itemsBody list) := by
  refine .bind (.rule .newlines) fun _ => .bind (.act rfl) fun _ => .ite (.done _) <| .bind (balanced_peekIs _) fun _ => .ite (.done _) ?_
  refine .bind (balanced_item list) fun _ => .ite ?_ (.done _)
  exact .bind (.rule .newlines) fun _ => .bind (balanced_eat _) fun _ => .ite (.rule (.items list)) (.done _)

theorem balanced_closure : Balanced closure := by
  have hbody : Balanced (do act .checkParameters; newlines; let _ ← block) :=
    .bind (.act rfl) fun _ => .bind (.rule .newlines) fun _ => .bind balanced_block fun _ => .done _
  refine .node <| .bind (.act rfl) fun _ => .bind (.node <| .bind (.act rfl) fun k => ?_) fun _ => hbody
  split
  · exact .act rfl
  · exact .enclosed rfl <| .after (.act rfl) fun _ => .after (.rule (.items .parameters)) fun _ => shuts_close _
  · exact balanced_reportFound _ _

theorem balanced_argumentList : Balanced argumentList :=
  .node <| .bind (balanced_require _) fun _ => balanced_delimited rfl

theorem balanced_identOrCall : Balanced identOrCall := by
  refine .bind (balanced_require _) fun _ => .bind (.act rfl) fun _ => .ite (.node <| .bind (.act rfl) fun _ => ?_) ?_
  · refine .bind (balanced_eat _) fun _ => .bind balanced_argumentList fun _ => .bind (balanced_peekIs _) fun _ => .ite ?_ (.done _)
    exact .bind balanced_closure fun _ => .done _
  · exact .node <| .bind (.act rfl) fun _ => .done _

theorem balanced_missingOperand : Balanced missingOperand := by
  have hother (d : Detail) : Balanced (do
      if ← atEnd then report .expectedExpression none else reportAndAdvance .expectedExpression d) :=
    .bind (.act rfl) fun _ => .ite (.act rfl) (balanced_reportAndAdvance _ _)
  refine .bind (.act rfl) fun k => ?_
  split
  · exact hother _
  · exact hother _
  · split
    case h_8 => exact hother _
    all_goals exact .act rfl

theorem balanced_objectOrBlock : Balanced objectOrBlock :=
  .bind (balanced_require _) fun _ => .bind (.act rfl) fun _ => .ite balanced_object balanced_block

theorem balanced_term : Balanced term := by
  refine .nested <| .marked <| .bind (.act rfl) fun k => ?_
  split
  case h_1 | h_2 => exact .bind balanced_externalQuery balanced_continuePath
  case h_13 => exact .bind balanced_group balanced_continuePath
  case h_14 => exact .bind balanced_array balanced_continuePath
  case h_15 => exact .bind balanced_objectOrBlock balanced_continuePath
  case h_16 => exact .bind balanced_identOrCall balanced_continuePath
  case h_17 => exact .bind balanced_missingOperand fun _ => .done _
  all_goals exact .bind balanced_literal balanced_continuePath

theorem balanced_assignedValue : Balanced assignedValue :=
  .bind (.rule .newlines) fun _ => .bind (.act rfl) fun _ => .ite (.bind (.rule .statement) fun _ => .done _) (balanced_reportFound _ _)

theorem balanced_target : Balanced target :=
  .bind (balanced_peekIs _) fun _ => .ite (.node <| .bind (.act rfl) fun _ => .done _) (.rule (.binary 0))

theorem balanced_checkTarget (k : Kind) : Balanced (checkTarget k) := by
  unfold checkTarget
  split
  case h_5 => exact .act rfl
  all_goals exact .done _

theorem balanced_assignment : Balanced assignment := by
  refine .marked <| .bind balanced_target fun lhs => .bind (.act rfl) fun k => .ite ?_ (.ite ?_ ?_)
  · exact .bind (balanced_checkTarget _) fun _ => .bind (.wrapped <| .bind (.act rfl) fun _ => balanced_assignedValue) fun _ => .done _
  · refine .bind (balanced_checkTarget _) fun _ => .bind (.wrapped ?_) fun _ => .bind (.wrapped ?_) fun _ => .done _
    · exact .bind (.act rfl) fun _ => .bind (.rule .newlines) fun _ => .marked <| .bind balanced_target balanced_checkTarget
    · exact .bind (.act rfl) fun _ => .ite (.bind (.act rfl) fun _ => balanced_assignedValue) (balanced_reportFound _ _)
  · exact .ite (.bind (.act rfl) fun _ => .done _) (.done _)

theorem balanced_conditionsBody (count : Nat) : Balanced (conditionsBody count) := by
  refine .bind (.rule .newlines) fun _ => .bind (.act rfl) fun _ => .ite (.done _) <| .bind (balanced_peekIs _) fun _ => .ite (.done _) ?_
  refine .bind (.act rfl) fun k => .ite (.bind (balanced_reportAndAdvance _ _) fun _ => .rule _) (.ite ?_ ?_)
  · refine .bind (.rule .assignment) fun _ => .bind (.act rfl) fun k => ?_
    split
    · exact .bind (.rule .newlines) fun _ => .rule _
    · exact .bind (.act rfl) fun _ => .bind (.rule .newlines) fun _ => .rule _
    · exact .done _
  · exact .bind (balanced_reportFound _ _) fun _ => .done _

theorem balanced_atContinuation : Balanced atContinuation :=
  .bind (.act rfl) fun _ => .ite (.done _) (.ite (.act rfl) (.done _))

theorem balanced_parenthesised : Balanced parenthesised := by
  have hgrouped (b : Bool) : Balanced (if b then (do
      wrapped .group (pure ())
      let k ← continuePath .group
      let _ ← rule (.binaryRest 0 k)) else pure ()) :=
    .ite (.bind (.wrapped (.done _)) fun _ => .bind (balanced_continuePath _) fun k => .bind (.rule (.binaryRest 0 k)) fun _ => .done _)
      (.done _)
  refine .marked <| .enclosed rfl <| .after (.act rfl) fun _ => .after (.rule (.conditions 0)) fun count => ?_
  exact .before (shuts_close _) fun _ => .ite (.bind balanced_atContinuation hgrouped) (.bind (.done _) hgrouped)

theorem balanced_predicate : Balanced predicate :=
  .bind (.rule .newlines) fun _ => .node <| .bind (.act rfl) fun _ => .ite balanced_parenthesised <|
    .ite (.bind (.rule (.binary 0)) fun _ => .done _) (balanced_reportFound _ _)

theorem balanced_branch : Balanced branch :=
  .bind balanced_predicate fun _ => .bind (.rule .newlines) fun _ => .bind balanced_block fun _ => .done _

theorem balanced_statement : Balanced statement := by
  refine .nested <| .bind (.act rfl) fun k => ?_
  split
  · exact .node <| .bind (balanced_require _) fun _ => .bind (.act rfl) fun _ => .bind balanced_branch fun _ =>
      .bind (.rule .elseBranches) fun _ => .done _
  · exact .node <| .bind (.act rfl) fun _ => .bind (.act rfl) fun _ => .ite (.bind (.rule .statement) fun _ => .done _) (.done _)
  · refine .node <| .bind (.act rfl) fun _ => .bind (.rule .newlines) fun _ => .bind (.act rfl) fun _ => .ite ?_ ?_
    · exact .bind (.rule .statement) fun _ => .done _
    · exact .bind (balanced_reportFound _ _) fun _ => .done _
  · exact .rule .assignment

theorem balanced_statementAndEnd (closer : Option Kind) : Balanced (statementAndEnd closer) := by
  have hend : Balanced (endOfStatement closer) := by
    refine .bind (.act rfl) fun _ => .ite (.done _) <| .bind (.act rfl) fun _ => .ite ?_ (.ite ?_ (.ite (.done _) ?_))
    · exact .bind (.rule .newlines) fun _ => .done _
    · exact .bind (.act rfl) fun _ => .bind (.rule .newlines) fun _ => .done _
    · exact .bind (balanced_reportFound _ _) fun _ => .done _
  exact .bind (.rule .statement) fun _ => .bind hend fun _ => .ite (.done _) (balanced_resync _)

theorem balanced_statementsBody (closer : Option Kind) : Balanced (statementsBody closer) := by
  have hagain : Balanced (rule (.statements closer)) := .rule _
  refine .bind (.rule .newlines) fun _ => .bind (.act rfl) fun _ => .ite (.done _) <| .bind (.act rfl) fun _ => .ite (.done _) ?_
  refine .ite ?_ (.ite ?_ (.ite ?_ ?_))
  · exact .bind (balanced_reportAndAdvance _ _) fun _ => hagain
  · exact .bind (balanced_reportAndAdvance _ _) fun _ => hagain
  · exact .bind (balanced_statementAndEnd closer) fun _ => hagain
  · exact .bind (balanced_reportFound _ _) fun _ => .bind (balanced_resync _) fun _ => hagain

theorem balanced_program : Balanced program := .node <| .bind (.rule (.statements none)) fun _ => .act rfl

/-- The body of every rule leaves the delimiters as they were. -/
theorem balanced_grammar (r : Rule α) : Balanced (grammar r) := by
  cases r with
  | newlines => exact .bind (balanced_peekIs _) fun _ => .ite (.bind (.act rfl) fun _ => .rule .newlines) (.done _)
  | absorb => exact .bind (.act rfl) fun _ => .ite (.done _) (.bind (.act rfl) fun _ => .rule .absorb)
  | skipTo stops depth =>
    exact .bind (.act rfl) fun _ => .ite (.done _) <| .bind (.act rfl) fun _ => .ite (.done _) <|
      .bind (.act rfl) fun _ => .rule (.skipTo stops _)
  | stringParts =>
    refine .bind (.act rfl) fun k => ?_
    split
    · exact .bind (.act rfl) fun _ => .rule .stringParts
    · exact .bind (.act rfl) fun _ => .rule .stringParts
    · exact .bind balanced_template fun _ => .rule .stringParts
    · exact .act rfl
    · exact .done _
  | templateParts =>
    refine .bind (.act rfl) fun k => ?_
    split
    · exact .bind (.act rfl) fun _ => .rule .templateParts
    · exact .bind (.act rfl) fun _ => .rule .templateParts
    · exact .done _
  | pathSegments => exact balanced_pathSegmentsBody
  | items list => exact balanced_itemsBody list
  | statements closer => exact balanced_statementsBody closer
  | conditions count => exact balanced_conditionsBody count
  | elseBranches =>
    refine .bind (balanced_eat _) fun _ => .ite (.bind (.rule .newlines) fun _ => .bind (balanced_eat _) fun _ => .ite ?_ ?_) (.done _)
    · exact .bind balanced_branch fun _ => .rule .elseBranches
    · exact .bind balanced_block fun _ => .done _
  | statement => exact balanced_statement
  | assignment => exact balanced_assignment
  | binary min => exact .marked <| .bind (.rule .unary) fun lhs => .rule (.binaryRest min lhs)
  | binaryRest min lhs =>
    refine .bind (.act rfl) fun k => ?_
    split
    · exact .done _
    · refine .ite (.done _) <| .nested <| .bind (.wrapped ?_) fun _ => .rule (.binaryRest min .binaryOp)
      exact .bind (.act rfl) fun _ => .bind (.rule .newlines) fun _ => .bind (.rule _) fun _ => .done _
  | unary =>
    refine .bind (.rule .newlines) fun _ => .bind (balanced_peekIs _) fun _ => .ite ?_ balanced_term
    exact .nested <| .node <| .bind (.act rfl) fun _ => .bind (.rule .newlines) fun _ => .bind (.rule .unary) fun _ => .done _

/-! ## What a run keeps -/

/-- The kinds of the open delimiters, innermost first. -/
def State.openKinds (s : State) : List Kind := s.delimiters.map (·.kind)

theorem Action.opened_append {action : Action α} {ks : List Kind} (h : action.pairs ks) (base : List Kind) :
    action.opened (ks ++ base) = action.opened ks ++ base := by
  cases action with
  | popDelimiter =>
    cases ks with
    | nil => exact absurd rfl h
    | cons k ks => rfl
  | _ => rfl

theorem openKinds_perform {action : Action α} {s t : State} {a : α} (h : action.perform s = .ok (a, t)) :
    t.openKinds = action.opened s.openKinds := by
  have hskip : s.skip.delimiters = s.delimiters := by rw [State.skip_eq]
  have hdrain (u : State) : u.drain.delimiters = u.delimiters := by rw [State.drain_eq]
  have hreport (u : State) (d : Diagnostic) : (u.report d).delimiters = u.delimiters := by rw [State.report_eq]
  unfold State.openKinds
  cases action with
  | peek | peekRaw =>
    simp only [Action.perform, look] at h
    split at h <;> cases h
    first | exact congrArg _ hskip | rfl
  | advance =>
    obtain ⟨x, rest, hu, rfl⟩ := State.of_perform_advance h
    rfl
  | settle =>
    cases h
    exact congrArg _ ((hdrain _).trans hskip)
  | openNode k | mark =>
    cases h
    exact congrArg _ (hdrain s)
  | closeNode | wrap k | unmark =>
    simp only [Action.perform] at h
    split at h <;> cases h
    rfl
  | report p d =>
    cases h
    exact congrArg _ ((hreport _ _).trans hskip)
  | reportUnclosed closer =>
    simp only [Action.perform] at h
    split at h <;> cases h
    · exact congrArg _ hskip
    · exact congrArg _ ((hreport _ _).trans hskip)
  | reportTarget flaw =>
    cases h
    exact congrArg _ (hreport _ _)
  | checkParameters =>
    cases h
    obtain ⟨reports, lastReport, hfold⟩ := State.foldl_report s.parameterProblems s
    rw [State.reportParameters_eq, hfold]
    rfl
  | enter =>
    rw [State.perform_enter] at h
    split at h
    · cases h
      rfl
    · split at h <;> cases h
      · rfl
      · exact congrArg _ hskip
  | pushDelimiter k =>
    cases h
    simp only [List.map_cons, hskip]
    rfl
  | popDelimiter =>
    cases h
    simp only [List.drop_one, List.map_tail]
    rfl
  | touches =>
    cases h
    exact congrArg _ hskip
  | ahead q | atEnd | stopped | leave | setSeparating b =>
    cases h
    rfl

section Keeps

variable {I : State → Prop} {n : Nat}
  (hstep : ∀ {α : Type} {action : Action α} {ks : List Kind} {s t : State} {a : α}, action.perform s = .ok (a, t) →
    action.pairs ks → ks <+: s.openKinds → I s → I t)

include hstep

/-- What every action keeps that may be performed where it stands, a run keeps if the rules do that are entered. -/
theorem Routine.Pairs.keeps (hrule : ∀ {γ : Type} {r : Rule γ} {s t : State} {c : γ}, runRule n r s = .ok (c, t) → I s →
      I t ∧ t.openKinds = s.openKinds)
    {x : Routine α} {ks base : List Kind} {Q : α → List Kind → Prop} {s t : State} {a : α} (hx : x.Pairs ks Q)
    (hs : s.openKinds = ks ++ base) (hrun : x.run (runRule n) s = .ok (a, t)) (hI : I s) :
    I t ∧ ∃ ks', Q a ks' ∧ t.openKinds = ks' ++ base := by
  induction x generalizing ks s with
  | done b =>
    cases hrun
    exact ⟨hI, ks, hx, hs⟩
  | fail e => cases hrun
  | act action next ih =>
    obtain ⟨b, u, hp, hn⟩ := Routine.run_act_eq_ok.mp hrun
    have hu : u.openKinds = action.opened ks ++ base := by rw [openKinds_perform hp, hs, Action.opened_append hx.1]
    exact ih b (hx.2 b) hu hn (hstep hp hx.1 (hs ▸ List.prefix_append ks base) hI)
  | call rule next ih =>
    obtain ⟨b, u, hr, hn⟩ := Routine.run_call_eq_ok.mp hrun
    obtain ⟨hu, hkinds⟩ := hrule hr hI
    exact ih b (hx b) (hkinds.trans hs) hn hu
  | jump rule =>
    obtain ⟨ht, hkinds⟩ := hrule hrun hI
    exact ⟨ht, ks, hx a, hkinds.trans hs⟩

/-- A rule keeps it, and leaves the same delimiters open. -/
theorem keeps_runRule {r : Rule α} {s t : State} {a : α} (hrun : runRule n r s = .ok (a, t)) (hI : I s) :
    I t ∧ t.openKinds = s.openKinds := by
  induction n generalizing α s t with
  | zero => cases hrun
  | succ n ih =>
    obtain ⟨ht, ks, rfl, hkinds⟩ := (balanced_grammar r []).keeps hstep ih (List.nil_append s.openKinds).symm hrun hI
    exact ⟨ht, hkinds⟩

/-- A routine that leaves the delimiters as they were keeps it. -/
theorem Balanced.keeps {x : Routine α} (hx : Balanced x) {s t : State} {a : α} (hrun : x.run (runRule n) s = .ok (a, t)) (hI : I s) :
    I t :=
  ((hx []).keeps hstep (keeps_runRule hstep) (List.nil_append s.openKinds).symm hrun hI).1

end Keeps

/-! ## What was open before -/

/-- The state with more delimiters open around those that are. -/
def State.atop (s : State) (ds : List Delimiter) : State := { s with delimiters := s.delimiters ++ ds }

theorem State.skip_atop (s : State) (ds : List Delimiter) : (s.atop ds).skip = s.skip.atop ds := by
  rw [skip_eq, skip_eq]
  rfl

theorem State.report_atop (s : State) (ds : List Delimiter) (d : Diagnostic) : (s.atop ds).report d = (s.report d).atop ds := by
  rw [report_eq, report_eq]
  rfl

theorem State.foldl_report_atop (es : List Diagnostic) (s : State) (ds : List Delimiter) :
    es.foldl report (s.atop ds) = (es.foldl report s).atop ds := by
  induction es generalizing s with
  | nil => rfl
  | cons e es ih => rw [List.foldl_cons, List.foldl_cons, report_atop, ih]

/-- An action does the same atop more delimiters. -/
theorem perform_atop {action : Action α} {s : State} {ks : List Kind} (h : action.pairs ks) (hs : ks <+: s.openKinds)
    (ds : List Delimiter) : action.perform (s.atop ds) = (action.perform s).map fun r => (r.1, r.2.atop ds) := by
  have hdelimiters (u : State) : (u.atop ds).delimiters = u.delimiters ++ ds := rfl
  have hskipped : s.skip.delimiters = s.delimiters := by rw [State.skip_eq]
  have hne (hks : ks ≠ []) : ∃ d more, s.delimiters = d :: more := by
    refine List.exists_cons_of_ne_nil fun hnil => hks ?_
    rw [State.openKinds, hnil] at hs
    exact List.prefix_nil.mp hs
  cases action with
  | peek | peekRaw =>
    simp only [Action.perform, look, State.skip_atop]
    rw [apply_ite (Except.map _)]
    rfl
  | touches | pushDelimiter k =>
    simp only [Action.perform, State.skip_atop]
    rfl
  | settle =>
    simp only [Action.perform, State.skip_atop]
    rw [State.drain_eq, State.drain_eq]
    rfl
  | report p d =>
    simp only [Action.perform, State.skip_atop, State.report_atop]
    rfl
  | ahead q | atEnd | stopped | leave | setSeparating b => rfl
  | advance =>
    cases hu : s.unread with
    | nil => simp [Action.perform, State.atop, hu, Except.map]
    | cons t rest =>
      rw [State.perform_advance hu, State.perform_advance (show (s.atop ds).unread = t :: rest from hu)]
      rfl
  | openNode k | mark =>
    simp only [Action.perform]
    rw [State.drain_eq, State.drain_eq]
    rfl
  | closeNode | wrap k | unmark =>
    simp only [Action.perform, State.atop]
    split <;> simp_all [Except.map]
  | reportTarget flaw =>
    simp only [Action.perform, State.report_atop]
    rfl
  | checkParameters =>
    simp only [Action.perform]
    rw [State.reportParameters_eq, State.reportParameters_eq]
    exact congrArg (fun u => Except.ok ((), u)) (State.foldl_report_atop s.parameterProblems s ds)
  | reportUnclosed closer =>
    obtain ⟨d, more, hcons⟩ := hne fun hnil => by rw [hnil] at h; cases h
    simp only [Action.perform, State.skip_atop, hdelimiters, hskipped, hcons, List.cons_append, State.report_atop]
    rfl
  | enter =>
    rw [State.perform_enter, State.perform_enter, apply_ite (Except.map _), apply_ite (Except.map _)]
    simp only [State.overrun, State.skip_atop]
    rfl
  | popDelimiter =>
    obtain ⟨d, more, hcons⟩ := hne h
    simp only [Action.perform, State.atop, hcons, List.cons_append, List.drop_succ_cons, List.drop_zero]
    rfl

/-- A routine does the same atop more delimiters if the rules do that it enters. -/
theorem Routine.Pairs.run_atop {n : Nat} {ds : List Delimiter}
    (hrule : ∀ {γ : Type} (r : Rule γ) (s : State), runRule n r (s.atop ds) = (runRule n r s).map fun x => (x.1, x.2.atop ds))
    {x : Routine α} {ks : List Kind} {Q : α → List Kind → Prop} {s : State} (hx : x.Pairs ks Q) (hs : ks <+: s.openKinds) :
    x.run (runRule n) (s.atop ds) = (x.run (runRule n) s).map fun r => (r.1, r.2.atop ds) := by
  induction x generalizing ks s with
  | done a => rfl
  | fail e => rfl
  | act action next ih =>
    simp only [Routine.run, perform_atop hx.1 hs]
    cases hp : action.perform s with
    | error e => rfl
    | ok r =>
      refine ih r.1 (hx.2 r.1) ?_
      obtain ⟨base, hbase⟩ := hs
      rw [openKinds_perform hp, ← hbase, Action.opened_append hx.1]
      exact List.prefix_append _ _
  | call rule next ih =>
    simp only [Routine.run, hrule]
    cases hr : runRule n rule s with
    | error e => rfl
    | ok r =>
      have hkinds := (keeps_runRule (I := fun _ => True) (fun _ _ _ _ => trivial) hr trivial).2
      exact ih r.1 (hx r.1) (hkinds ▸ hs)
  | jump rule => exact hrule rule s

/-- A rule does the same atop more delimiters. -/
theorem runRule_atop (n : Nat) (r : Rule α) (s : State) (ds : List Delimiter) :
    runRule n r (s.atop ds) = (runRule n r s).map fun x => (x.1, x.2.atop ds) := by
  induction n generalizing α s with
  | zero => rfl
  | succ n ih => exact (balanced_grammar r []).run_atop ih List.nil_prefix

end Parser

end Remap
