import Remap.Proofs.Parser.Logic

/-!
# Scopes

A routine that opens a node closes it, one that marks a place gives the mark up, and the same goes for delimiters, for the
nesting depth and for how newlines are read. So every routine of the grammar leaves the surroundings of a state as it found
them (`Kept`), whatever it reads and however it ends, and no routine closes what it did not open.

Wrapping is the exception: it works on the innermost mark, so the routines that wrap may be run only where the innermost
frame is a mark.
-/

namespace Remap.Parser

variable {α β : Type}

/-- The surroundings of a state: the unfinished nodes around the innermost one with all they hold, what the innermost one
is and where it began, the open delimiters, the nesting depth, and how newlines are read. -/
structure Kept (s t : State) : Prop where
  label : t.top.label = s.top.label
  start : t.top.start = s.top.start
  below : t.below = s.below
  delimiters : t.delimiters = s.delimiters
  separating : t.separating = s.separating
  depth : t.depth = s.depth

namespace Kept

theorem refl (s : State) : Kept s s := ⟨rfl, rfl, rfl, rfl, rfl, rfl⟩

theorem trans {s t u : State} (h : Kept s t) (h' : Kept t u) : Kept s u :=
  ⟨h'.label.trans h.label, h'.start.trans h.start, h'.below.trans h.below, h'.delimiters.trans h.delimiters,
    h'.separating.trans h.separating, h'.depth.trans h.depth⟩

theorem skip (s : State) : Kept s s.skip := by
  rw [State.skip_eq]
  exact ⟨rfl, rfl, rfl, rfl, rfl, rfl⟩

theorem drain (s : State) : Kept s s.drain := by
  rw [State.drain_eq]
  exact ⟨rfl, rfl, rfl, rfl, rfl, rfl⟩

theorem report (s : State) (d : Diagnostic) : Kept s (s.report d) := by
  rw [State.report_eq]
  exact ⟨rfl, rfl, rfl, rfl, rfl, rfl⟩

theorem reportParameters (s : State) : Kept s s.reportParameters := by
  rw [State.reportParameters_eq]
  obtain ⟨reports, lastReport, h⟩ := State.foldl_report s.parameterProblems s
  rw [h]
  exact ⟨rfl, rfl, rfl, rfl, rfl, rfl⟩

end Kept

/-- Whether an action leaves the surroundings alone. -/
def Action.isPlain : {α : Type} → Action α → Bool
  | _, .peek | _, .peekRaw | _, .touches | _, .ahead _ | _, .atEnd | _, .stopped | _, .advance | _, .settle
  | _, .report _ _ | _, .reportUnclosed _ | _, .reportTarget _ | _, .checkParameters => true
  | _, _ => false

/-- An action that leaves the surroundings alone. -/
theorem kept_perform {action : Action α} (hplain : action.isPlain = true) (s : State) :
    Ends (· ≠ .misnested) (fun _ t => Kept s t) (action.perform s) := by
  cases action with
  | peek =>
    simp only [Action.perform, look]
    split
    · exact fun h => by cases h
    · exact (Kept.skip s).trans ⟨rfl, rfl, rfl, rfl, rfl, rfl⟩
  | peekRaw =>
    simp only [Action.perform, look]
    split
    · exact fun h => by cases h
    · exact ⟨rfl, rfl, rfl, rfl, rfl, rfl⟩
  | touches => exact Kept.skip s
  | ahead q => exact Kept.refl s
  | atEnd => exact Kept.refl s
  | stopped => exact Kept.refl s
  | advance =>
    cases hs : s.unread with
    | nil => simp [Action.perform, hs, Ends]
    | cons token rest =>
      rw [State.perform_advance hs]
      exact ⟨rfl, rfl, rfl, rfl, rfl, rfl⟩
  | settle => exact (Kept.skip s).trans (Kept.drain _)
  | report p d => exact (Kept.skip s).trans (Kept.report _ _)
  | reportUnclosed closer =>
    simp only [Action.perform]
    split
    · exact Kept.skip s
    · exact (Kept.skip s).trans (Kept.report _ _)
  | reportTarget flaw => exact Kept.report s _
  | checkParameters => exact Kept.reportParameters s
  | _ => cases hplain

/-! ## Scoped routines -/

/-- A routine keeps the surroundings and closes nothing it did not open. One that wraps needs the innermost frame to be a
mark. -/
def Scoped (enter : {γ : Type} → Rule γ → Step γ) (atMark : Bool) (x : Routine α) : Prop :=
  ∀ s, (atMark = true → s.top.label = none) → Ends (· ≠ .misnested) (fun _ t => Kept s t) (x.run enter s)

namespace Scoped

variable {enter : {γ : Type} → Rule γ → Step γ} {m : Bool}

theorem kept {x : Routine α} (h : Scoped enter false x) (s : State) :
    Ends (· ≠ .misnested) (fun _ t => Kept s t) (x.run enter s) :=
  h s nofun

/-- What needs no mark may also be run at one. -/
theorem weaken {x : Routine α} (h : Scoped enter false x) : Scoped enter m x := fun s _ => h.kept s

theorem done (a : α) : Scoped enter m (pure a : Routine α) := fun s _ => Kept.refl s

theorem fail {f : Fault} (h : f ≠ .misnested) : Scoped enter m (.fail f : Routine α) := fun _ _ => h

theorem bind {x : Routine α} {f : α → Routine β} (hx : Scoped enter m x) (hf : ∀ a, Scoped enter m (f a)) :
    Scoped enter m (x >>= f) := by
  intro s hs
  refine Ends.bind ((hx s hs).imp fun a t ht => ?_)
  refine (hf a t fun hm => ht.label.trans (hs hm)).imp fun b u hu => ?_
  exact ht.trans hu

theorem ite {c : Prop} [Decidable c] {x y : Routine α} (hx : Scoped enter m x) (hy : Scoped enter m y) :
    Scoped enter m (if c then x else y) := by
  split
  · exact hx
  · exact hy

/-- An action that leaves the surroundings alone is scoped. -/
theorem plain {action : Action α} (h : action.isPlain = true) : Scoped enter m (act action) := by
  intro s _
  rw [Routine.run_single]
  exact kept_perform h s

/-- A node is scoped if what is inside it is. -/
theorem node {k : Kind} {body : Routine α} (h : Scoped enter false body) : Scoped enter m (Parser.node k body) := by
  intro s _
  refine Ends.bind ?_
  rw [Routine.run_single]
  refine Ends.bind ((h.kept _).imp fun a t ht => Ends.bind ?_)
  have hbelow : t.below = s.drain.top :: s.drain.below := ht.below
  have hlabel : t.top.label = some k := ht.label
  have hdrain := Kept.drain s
  simp only [Routine.run_single, Action.perform, hlabel, hbelow]
  exact ⟨hdrain.label, hdrain.start, hdrain.below, ht.delimiters.trans hdrain.delimiters,
    ht.separating.trans hdrain.separating, ht.depth.trans hdrain.depth⟩

/-- What is built from a mark on is scoped if it is at a mark. -/
theorem marked {body : Routine α} (h : Scoped enter true body) : Scoped enter m (Parser.marked body) := by
  intro s _
  refine Ends.bind ?_
  rw [Routine.run_single]
  refine Ends.bind ((h _ fun _ => rfl).imp fun a t ht => Ends.bind ?_)
  have hbelow : t.below = s.drain.top :: s.drain.below := ht.below
  have hlabel : t.top.label = none := ht.label
  have hdrain := Kept.drain s
  simp only [Routine.run_single, Action.perform, hlabel, hbelow]
  exact ⟨hdrain.label, hdrain.start, hdrain.below, ht.delimiters.trans hdrain.delimiters,
    ht.separating.trans hdrain.separating, ht.depth.trans hdrain.depth⟩

/-- Wrapping what was built since a mark is scoped at that mark. -/
theorem wrapped {k : Kind} {body : Routine α} (h : Scoped enter false body) : Scoped enter true (Parser.wrapped k body) := by
  intro s hs
  have hmark := hs rfl
  refine Ends.bind ?_
  simp only [Routine.run_single, Action.perform, hmark]
  refine Ends.bind ((h.kept _).imp fun a t ht => Ends.bind ?_)
  have hbelow : t.below = ⟨none, s.top.start, []⟩ :: s.below := ht.below
  have hlabel : t.top.label = some k := ht.label
  simp only [Routine.run_single, Action.perform, hlabel, hbelow]
  exact ⟨hmark.symm, rfl, rfl, ht.delimiters, ht.separating, ht.depth⟩

/-- Reading newlines in another way for a while is scoped. -/
theorem separating {b : Bool} {body : Routine α} (h : Scoped enter m body) : Scoped enter m (Parser.separating b body) := by
  intro s hs
  refine Ends.bind ?_
  rw [Routine.run_single]
  refine Ends.bind ((h { s with separating := b } hs).imp fun a t ht => ?_)
  exact ⟨ht.label, ht.start, ht.below, ht.delimiters, rfl, ht.depth⟩

/-- Building one level deeper is scoped. -/
theorem nested {body : Routine Kind} (habsorb : Scoped enter false (rule .absorb)) (h : Scoped enter m body) :
    Scoped enter m (Parser.nested body) := by
  intro s hs
  refine Ends.bind ?_
  rw [Routine.run_single]
  simp only [Action.perform]
  split
  · exact Kept.refl s
  · split
    · have hbody := h { s with depth := s.depth + 1 }.refresh hs
      refine Ends.bind (hbody.imp fun k t ht => ?_)
      have hdepth : t.depth - 1 = s.depth := by
        rw [ht.depth]
        exact Nat.add_sub_cancel _ _
      exact ⟨ht.label, ht.start, ht.below, ht.delimiters, ht.separating, hdepth⟩
    · have hskip := Kept.skip s
      have herror : Scoped enter m (Parser.node .error (do rule .absorb; act .settle) >>= fun _ => pure Kind.error) :=
        .bind (.node (.bind habsorb fun _ => .plain rfl)) fun _ => .done _
      refine (herror { s.skip with reports := _, overflowed := true } fun hm => hskip.label.trans (hs hm)).imp ?_
      intro _ t ht
      exact hskip.trans ⟨ht.label, ht.start, ht.below, ht.delimiters, ht.separating, ht.depth⟩

end Scoped

/-! ## Delimiters -/

/-- The state with its innermost delimiter forgotten. -/
def State.popped (s : State) : State := { s with delimiters := s.delimiters.drop 1 }

theorem Kept.popped {s t : State} (h : Kept s t) : Kept s.popped t.popped :=
  ⟨h.label, h.start, h.below, congrArg (List.drop 1) h.delimiters, h.separating, h.depth⟩

/-- A routine forgets the innermost delimiter and keeps all else of the surroundings. -/
def Closes (enter : {γ : Type} → Rule γ → Step γ) (atMark : Bool) (x : Routine α) : Prop :=
  ∀ s, (atMark = true → s.top.label = none) → Ends (· ≠ .misnested) (fun _ t => Kept s.popped t) (x.run enter s)

namespace Closes

variable {enter : {γ : Type} → Rule γ → Step γ} {m : Bool}

theorem popDelimiter : Closes enter m (act .popDelimiter) := by
  intro s _
  rw [Routine.run_single]
  exact Kept.refl s.popped

/-- Something scoped, then something that closes. -/
theorem after {x : Routine α} {f : α → Routine β} (hx : Scoped enter m x) (hf : ∀ a, Closes enter m (f a)) :
    Closes enter m (x >>= f) := by
  intro s hs
  refine Ends.bind ((hx s hs).imp fun a t ht => ?_)
  exact (hf a t fun hm => ht.label.trans (hs hm)).imp fun b u hu => ht.popped.trans hu

/-- Something that closes, then something scoped. -/
theorem before {x : Routine α} {f : α → Routine β} (hx : Closes enter m x) (hf : ∀ a, Scoped enter m (f a)) :
    Closes enter m (x >>= f) := by
  intro s hs
  refine Ends.bind ((hx s hs).imp fun a t ht => ?_)
  exact (hf a t fun hm => ht.label.trans (hs hm)).imp fun b u hu => ht.trans hu

theorem ite {c : Prop} [Decidable c] {x y : Routine α} (hx : Closes enter m x) (hy : Closes enter m y) :
    Closes enter m (if c then x else y) := by
  split
  · exact hx
  · exact hy

theorem separating {b : Bool} {body : Routine α} (h : Closes enter m body) : Closes enter m (Parser.separating b body) := by
  intro s hs
  refine Ends.bind ?_
  rw [Routine.run_single]
  refine Ends.bind ((h { s with separating := b } hs).imp fun a t ht => ?_)
  exact ⟨ht.label, ht.start, ht.below, ht.delimiters, rfl, ht.depth⟩

end Closes

/-- What notes a delimiter and then closes it is scoped. -/
theorem Scoped.enclosed {enter : {γ : Type} → Rule γ → Step γ} {m : Bool} {k : Kind} {f : Unit → Routine α}
    (h : Closes enter m (f ())) : Scoped enter m (act (.pushDelimiter k) >>= f) := by
  intro s hs
  refine Ends.bind ?_
  rw [Routine.run_single]
  have hskip := Kept.skip s
  refine (h { s.skip with delimiters := ⟨k, s.skip.here⟩ :: s.skip.delimiters } fun hm => hskip.label.trans (hs hm)).imp fun _ t ht => ?_
  exact ⟨ht.label.trans hskip.label, ht.start.trans hskip.start, ht.below.trans hskip.below,
    ht.delimiters.trans hskip.delimiters, ht.separating.trans hskip.separating, ht.depth.trans hskip.depth⟩

/-! ## The routines of the grammar -/

/-- Whether a rule wraps what was built since the innermost mark. -/
def Rule.wraps : {α : Type} → Rule α → Bool
  | _, .binaryRest _ _ => true
  | _, _ => false

section Grammar

variable {enter : {γ : Type} → Rule γ → Step γ} {m : Bool}
  (he : ∀ {γ : Type} (r : Rule γ), Scoped enter r.wraps (rule r))

theorem scoped_peekIs (k : Kind) : Scoped enter m (peekIs k) := .bind (.plain rfl) fun _ => .done _

theorem scoped_eat (k : Kind) : Scoped enter m (eat k) :=
  .bind (scoped_peekIs k) fun _ => .ite (.bind (.plain rfl) fun _ => .done _) (.done _)

theorem scoped_require (k : Kind) : Scoped enter m (require k) :=
  .bind (.plain rfl) fun _ => .ite (.done _) (.fail nofun)

theorem scoped_report (p : Problem) (d : Option Detail) : Scoped enter m (report p d) := .plain rfl

theorem scoped_reportFound (p : Problem) (e : Option Expectation) : Scoped enter m (reportFound p e) := by
  refine .bind (.plain rfl) fun k => .bind (.plain rfl) fun b => .ite (scoped_report _ _) ?_
  cases e <;> exact scoped_report _ _

theorem scoped_reportAndAdvance (p : Problem) (d : Detail) : Scoped enter m (reportAndAdvance p d) :=
  .bind (scoped_report _ _) fun _ => .bind (.plain rfl) fun _ => .ite (.done _) (.node (.plain rfl))

include he

/-- A rule that does not wrap may be entered anywhere. -/
theorem scoped_rule (r : Rule α) (h : r.wraps = false) : Scoped enter m (rule r) := by
  have hr := he r
  rw [h] at hr
  exact hr.weaken

theorem scoped_newlines : Scoped enter m newlines := .weaken (he .newlines)

theorem scoped_newlinesBody : Scoped enter m newlinesBody :=
  .bind (scoped_peekIs _) fun _ => .ite (.bind (.plain rfl) fun _ => scoped_newlines he) (.done _)

theorem scoped_absorbBody : Scoped enter m absorbBody :=
  .bind (.plain rfl) fun _ => .ite (.done _) (.bind (.plain rfl) fun _ => .weaken (he .absorb))

theorem scoped_skipToBody (stops : KindSet) (depth : Nat) : Scoped enter m (skipToBody stops depth) :=
  .bind (.plain rfl) fun _ => .ite (.done _) <| .bind (.plain rfl) fun k => .ite (.done _) <|
    .bind (.plain rfl) fun _ => .weaken (he (.skipTo stops (depthAfter depth k)))

theorem scoped_resync (stops : KindSet) : Scoped enter m (resync stops) :=
  .bind (.plain rfl) fun _ => .ite (.done _) <| .bind (.plain rfl) fun _ => .ite (.done _) (.node (he (.skipTo stops 0)))

theorem scoped_nested {body : Routine Kind} (h : Scoped enter m body) : Scoped enter m (nested body) :=
  .nested (he .absorb) h

theorem closes_close (k : Kind) : Closes enter m (close k) := by
  have hunclosed (b : Bool) : Closes enter m (if b then act .popDelimiter else do
      if ← atEnd then act (.reportUnclosed k)
      act .popDelimiter) :=
    .ite .popDelimiter <| .after (.plain rfl) fun _ => .ite (.after (.plain rfl) fun _ => .popDelimiter) .popDelimiter
  refine .after (scoped_eat k) fun _ => .ite .popDelimiter <| .after (.plain rfl) fun _ => .ite ?_ ?_
  · exact .after (.done false) fun _ => hunclosed _
  · exact .after (scoped_report _ _) fun _ => .after (scoped_resync he _) fun _ => .after (scoped_eat k) fun _ => hunclosed _

/-! Literals and paths. -/

theorem scoped_template : Scoped enter m template :=
  .node <| .bind (.plain rfl) fun _ => .bind (he .templateParts) fun _ => .bind (.plain rfl) fun _ => .ite (.plain rfl) (.done _)

theorem scoped_templatePartsBody : Scoped enter m templatePartsBody := by
  refine .bind (.plain rfl) fun k => ?_
  split
  · exact .bind (.plain rfl) fun _ => .weaken (he .templateParts)
  · exact .bind (.plain rfl) fun _ => .weaken (he .templateParts)
  · exact .done _

theorem scoped_stringPartsBody : Scoped enter m stringPartsBody := by
  refine .bind (.plain rfl) fun k => ?_
  split
  · exact .bind (.plain rfl) fun _ => .weaken (he .stringParts)
  · exact .bind (.plain rfl) fun _ => .weaken (he .stringParts)
  · exact .bind (scoped_template he) fun _ => .weaken (he .stringParts)
  · exact .plain rfl
  · exact .done _

theorem scoped_string : Scoped enter m string :=
  .node <| .bind (scoped_require _) fun _ => .bind (.plain rfl) fun _ => .bind (he .stringParts) fun _ => .done _

omit he in
theorem scoped_simpleLiteral (k : Kind) : Scoped enter m (simpleLiteral k) :=
  .node <| .bind (scoped_peekIs _) fun _ => .ite
    (.bind (.plain rfl) fun _ => .bind (.plain rfl) fun _ => .done _) (.bind (.plain rfl) fun _ => .done _)

theorem scoped_literal : Scoped enter m literal := by
  refine .bind (.plain rfl) fun k => ?_
  split
  case h_3 =>
    refine .bind (.plain rfl) fun _ => .ite (scoped_simpleLiteral _) ?_
    refine .bind (.plain rfl) fun _ => .ite (scoped_simpleLiteral _) ?_
    exact .bind (scoped_reportAndAdvance _ _) fun _ => .done _
  case h_4 => exact scoped_string he
  case h_11 => exact .fail nofun
  all_goals exact scoped_simpleLiteral _

theorem scoped_fieldName : Scoped enter m fieldName :=
  .bind (scoped_peekIs _) fun _ => .ite (.bind (scoped_string he) fun _ => .done _) (.plain rfl)

theorem scoped_fieldSegment : Scoped enter m fieldSegment := by
  refine .node <| .bind (scoped_require _) fun _ => .bind (.plain rfl) fun _ => .bind (.plain rfl) fun k => ?_
  have hname (b : Bool) : Scoped enter false (if b then fieldName
      else reportFound .invalidPathContinuation (some .fieldAfterDot)) := .ite (scoped_fieldName he) (scoped_reportFound _ _)
  exact .ite (.bind (.plain rfl) fun b => hname b) (.bind (.done _) fun b => hname b)

theorem scoped_indexSegment : Scoped enter m indexSegment := by
  have hend : Closes enter false (do newlines; close .bracketClose) :=
    .after (scoped_newlines he) fun _ => closes_close he _
  have hexpect : Closes enter false (do
      reportFound .unexpectedToken (some .indexInteger); newlines; close .bracketClose) :=
    .after (scoped_reportFound _ _) fun _ => hend
  refine .node <| .enclosed <| .after (.plain rfl) fun _ => .after (scoped_newlines he) fun _ => .after (.plain rfl) fun k => ?_
  split
  · exact .after (.plain rfl) fun _ => hend
  · exact .after (.plain rfl) fun _ => .ite (.after (.plain rfl) fun _ => .after (.plain rfl) fun _ => hend) hexpect
  · exact hexpect

omit he in
theorem scoped_atSegment : Scoped enter m atSegment := .bind (.plain rfl) fun _ => .ite (.plain rfl) (.done _)

omit he in
theorem scoped_atFirstSegment : Scoped enter m atFirstSegment := .bind (.plain rfl) fun _ => .ite (.plain rfl) (.done _)

theorem scoped_pathSegmentsBody : Scoped enter m pathSegmentsBody :=
  .bind scoped_atSegment fun _ => .ite
    (.bind (scoped_peekIs _) fun _ => .ite (.bind (scoped_fieldSegment he) fun _ => .weaken (he .pathSegments))
      (.bind (scoped_indexSegment he) fun _ => .weaken (he .pathSegments))) (.done _)

theorem scoped_externalQuery : Scoped enter m externalQuery := by
  refine .node <| .bind (.plain rfl) fun _ => .bind scoped_atFirstSegment fun _ => .ite ?_ ?_
  · refine .bind (.node <| .bind (scoped_peekIs _) fun _ => .ite ?_ ?_) fun _ => .done _
    · exact .bind (scoped_indexSegment he) fun _ => he .pathSegments
    · exact .bind (.node (scoped_fieldName he)) fun _ => he .pathSegments
  · refine .bind scoped_atSegment fun _ => .ite (.bind (scoped_report _ _) fun _ => ?_) (.done _)
    exact .bind (.node (he .pathSegments)) fun _ => .done _

theorem scoped_continuePath (k : Kind) : Scoped enter true (continuePath k) := by
  have hquery (b : Bool) : Scoped enter true (if b then (do
      wrapped .query (node .path (rule .pathSegments)); return .query) else return k) :=
    .ite (.bind (.wrapped (.node (he .pathSegments))) fun _ => .done _) (.done _)
  exact .ite (.bind scoped_atSegment fun b => hquery b) (.bind (.done _) fun b => hquery b)

/-! Containers, calls and terms. -/

theorem scoped_group : Scoped enter m group := by
  refine .node <| .enclosed <| .after (.plain rfl) fun _ => ?_
  refine .before (.separating <| .after (.plain rfl) fun k => .ite ?_ ?_) fun _ => .done _
  · exact .after (he .assignment) fun _ => closes_close he _
  · exact .after (scoped_reportFound _ _) fun _ => closes_close he _

theorem scoped_delimited (opener : Kind) (list : ItemList) : Scoped enter m (delimited opener list) :=
  .enclosed <| .after (.plain rfl) fun _ => .separating <| .after (.weaken (he (.items list))) fun _ => closes_close he _

theorem scoped_array : Scoped enter m array := .node <| .bind (scoped_delimited he _ _) fun _ => .done _

theorem scoped_object : Scoped enter m object := .node <| .bind (scoped_delimited he _ _) fun _ => .done _

theorem scoped_block : Scoped enter m block := by
  refine .bind (scoped_peekIs _) fun _ => .ite ?_ (.bind (scoped_reportFound _ _) fun _ => .done _)
  refine .node <| .enclosed <| .after (.plain rfl) fun _ => .after (.separating (he (.statements (some .braceClose)))) fun _ => ?_
  exact .before (closes_close he _) fun _ => .done _

theorem scoped_element : Scoped enter m element :=
  .bind (.plain rfl) fun _ => .ite (.bind (.weaken (he (.binary 0))) fun _ => .done _)
    (.bind (scoped_reportFound _ _) fun _ => .done _)

theorem scoped_entry : Scoped enter m entry := by
  refine .bind (scoped_peekIs _) fun _ => .ite ?_ (.bind (scoped_reportFound _ _) fun _ => .done _)
  refine .bind (.node <| .bind (scoped_string he) fun _ => .bind (scoped_newlines he) fun _ => ?_) fun _ => .done _
  refine .bind (scoped_eat _) fun _ => .ite ?_ (scoped_report _ _)
  exact .bind (scoped_newlines he) fun _ => .bind (scoped_element he) fun _ => .done _

theorem scoped_argument : Scoped enter m argument := by
  have hnamed (b : Bool) : Scoped enter m (if b then (do
      node .namedArgument do
        advance
        let _ ← eat .colon
        newlines
        let _ ← element
      return true) else element) := by
    refine .ite (.bind (.node <| .bind (.plain rfl) fun _ => .bind (scoped_eat _) fun _ => ?_) fun _ => .done _)
      (scoped_element he)
    exact .bind (scoped_newlines he) fun _ => .bind (scoped_element he) fun _ => .done _
  exact .bind (.plain rfl) fun _ => .ite (.bind (.plain rfl) fun b => hnamed b) (.bind (.done _) fun b => hnamed b)

omit he in
theorem scoped_parameter : Scoped enter m parameter :=
  .bind (.plain rfl) fun _ => .ite (.bind (.plain rfl) fun _ => .done _) (.bind (scoped_reportFound _ _) fun _ => .done _)

theorem scoped_item (list : ItemList) : Scoped enter m (item list) := by
  cases list with
  | elements => exact scoped_element he
  | entries => exact scoped_entry he
  | arguments => exact scoped_argument he
  | parameters => exact scoped_parameter

theorem scoped_itemsBody (list : ItemList) : Scoped enter m (itemsBody list) := by
  refine .bind (scoped_newlines he) fun _ => .bind (.plain rfl) fun _ => .ite (.done _) ?_
  refine .bind (scoped_peekIs _) fun _ => .ite (.done _) <| .bind (scoped_item he list) fun _ => .ite ?_ (.done _)
  exact .bind (scoped_newlines he) fun _ => .bind (scoped_eat _) fun _ => .ite (.weaken (he (.items list))) (.done _)

theorem scoped_closure : Scoped enter m closure := by
  have hbody : Scoped enter false (do act .checkParameters; newlines; let _ ← block) :=
    .bind (.plain rfl) fun _ => .bind (scoped_newlines he) fun _ => .bind (scoped_block he) fun _ => .done _
  refine .node <| .bind (.plain rfl) fun _ => .bind (.node <| .bind (.plain rfl) fun k => ?_) fun _ => hbody
  split
  · exact .plain rfl
  · exact .enclosed <| .after (.plain rfl) fun _ => .after (he (.items .parameters)) fun _ => closes_close he _
  · exact scoped_reportFound _ _

theorem scoped_argumentList : Scoped enter m argumentList :=
  .node <| .bind (scoped_require _) fun _ => scoped_delimited he _ _

theorem scoped_identOrCall : Scoped enter m identOrCall := by
  refine .bind (scoped_require _) fun _ => .bind (.plain rfl) fun _ => .ite ?_ ?_
  · refine .node <| .bind (.plain rfl) fun _ => .bind (scoped_eat _) fun _ => .bind (scoped_argumentList he) fun _ => ?_
    exact .bind (scoped_peekIs _) fun _ => .ite (.bind (scoped_closure he) fun _ => .done _) (.done _)
  · exact .node <| .bind (.plain rfl) fun _ => .done _

omit he in
theorem scoped_missingOperand : Scoped enter m missingOperand := by
  have hother (d : Detail) : Scoped enter m (do
      if ← atEnd then report .expectedExpression none else reportAndAdvance .expectedExpression d) :=
    .bind (.plain rfl) fun _ => .ite (scoped_report _ _) (scoped_reportAndAdvance _ _)
  refine .bind (.plain rfl) fun k => ?_
  split
  · exact hother _
  · exact hother _
  · split
    case h_8 => exact hother _
    all_goals exact scoped_report _ _

theorem scoped_objectOrBlock : Scoped enter m objectOrBlock :=
  .bind (scoped_require _) fun _ => .bind (.plain rfl) fun _ => .ite (scoped_object he) (scoped_block he)

theorem scoped_term : Scoped enter m term := by
  refine scoped_nested he <| .marked <| .bind (.plain rfl) fun k => ?_
  split
  case h_1 | h_2 => exact .bind (scoped_externalQuery he) fun _ => scoped_continuePath he _
  case h_13 => exact .bind (scoped_group he) fun _ => scoped_continuePath he _
  case h_14 => exact .bind (scoped_array he) fun _ => scoped_continuePath he _
  case h_15 => exact .bind (scoped_objectOrBlock he) fun _ => scoped_continuePath he _
  case h_16 => exact .bind (scoped_identOrCall he) fun _ => scoped_continuePath he _
  case h_17 => exact .bind scoped_missingOperand fun _ => .done _
  all_goals exact .bind (scoped_literal he) fun _ => scoped_continuePath he _

/-! Operators. -/

theorem scoped_unaryBody : Scoped enter m unaryBody := by
  refine .bind (scoped_newlines he) fun _ => .bind (scoped_peekIs _) fun _ => .ite ?_ (scoped_term he)
  refine scoped_nested he <| .node <| .bind (.plain rfl) fun _ => .bind (scoped_newlines he) fun _ => ?_
  exact .bind (he .unary) fun _ => .done _

theorem scoped_binaryBody (min : Nat) : Scoped enter m (binaryBody min) :=
  .marked <| .bind (.weaken (he .unary)) fun lhs => he (.binaryRest min lhs)

theorem scoped_binaryRestBody (min : Nat) (lhs : Kind) : Scoped enter true (binaryRestBody min lhs) := by
  refine .bind (.plain rfl) fun k => ?_
  split
  · exact .done _
  · rename_i op _
    refine .ite (.done _) <| scoped_nested he <| .bind (.wrapped ?_) fun _ => he (.binaryRest min .binaryOp)
    exact .bind (.plain rfl) fun _ => .bind (scoped_newlines he) fun _ => .bind (scoped_rule he _ rfl) fun _ => .done _

/-! Statements. -/

theorem scoped_assignedValue : Scoped enter m assignedValue := by
  refine .bind (scoped_newlines he) fun _ => .bind (.plain rfl) fun _ => .ite ?_ (scoped_reportFound _ _)
  exact .bind (.weaken (he .statement)) fun _ => .done _

theorem scoped_target : Scoped enter m target :=
  .bind (scoped_peekIs _) fun _ => .ite (.node <| .bind (.plain rfl) fun _ => .done _) (.weaken (he (.binary 0)))

omit he in
theorem scoped_checkTarget (k : Kind) : Scoped enter m (checkTarget k) := by
  unfold checkTarget
  split
  case h_5 => exact .plain rfl
  all_goals exact .done _

theorem scoped_assignment : Scoped enter m assignment := by
  refine .marked <| .bind (scoped_target he) fun lhs => .bind (.plain rfl) fun k => .ite ?_ (.ite ?_ ?_)
  · refine .bind (scoped_checkTarget lhs) fun _ => .bind (.wrapped ?_) fun _ => .done _
    exact .bind (.plain rfl) fun _ => scoped_assignedValue he
  · refine .bind (scoped_checkTarget lhs) fun _ => .bind (.wrapped ?_) fun _ => .bind (.wrapped ?_) fun _ => .done _
    · refine .bind (.plain rfl) fun _ => .bind (scoped_newlines he) fun _ => ?_
      exact .marked <| .bind (scoped_target he) fun err => scoped_checkTarget err
    · refine .bind (.plain rfl) fun _ => .ite ?_ (scoped_reportFound _ _)
      exact .bind (.plain rfl) fun _ => scoped_assignedValue he
  · exact .ite (.bind (.plain rfl) fun _ => .done _) (.done _)

omit he in
theorem scoped_atContinuation : Scoped enter m atContinuation :=
  .bind (.plain rfl) fun _ => .ite (.done _) (.ite (.plain rfl) (.done _))

theorem scoped_conditionsBody (count : Nat) : Scoped enter m (conditionsBody count) := by
  refine .bind (scoped_newlines he) fun _ => .bind (.plain rfl) fun _ => .ite (.done _) ?_
  refine .bind (scoped_peekIs _) fun _ => .ite (.done _) <| .bind (.plain rfl) fun k => .ite ?_ (.ite ?_ ?_)
  · exact .bind (scoped_reportAndAdvance _ _) fun _ => .weaken (he (.conditions count))
  · refine .bind (.weaken (he .assignment)) fun _ => .bind (.plain rfl) fun k => ?_
    split
    · exact .bind (scoped_newlines he) fun _ => scoped_rule he _ rfl
    · exact .bind (.plain rfl) fun _ => .bind (scoped_newlines he) fun _ => scoped_rule he _ rfl
    · exact .done _
  · exact .bind (scoped_reportFound _ _) fun _ => .done _

theorem scoped_parenthesised : Scoped enter m parenthesised := by
  have hgroup (b : Bool) : Scoped enter true (if b then (do
      wrapped .group (pure ())
      let k ← continuePath .group
      let _ ← rule (.binaryRest 0 k)) else pure ()) := by
    refine .ite (.bind (.wrapped (.done _)) fun _ => .bind (scoped_continuePath he _) fun k => ?_) (.done _)
    exact .bind (he (.binaryRest 0 k)) fun _ => .done _
  refine .marked <| .enclosed <| .after (.plain rfl) fun _ => .after (.weaken (he (.conditions 0))) fun count => ?_
  refine .before (closes_close he _) fun _ => .ite ?_ ?_
  · exact .bind scoped_atContinuation fun b => hgroup b
  · exact .bind (.done _) fun b => hgroup b

theorem scoped_predicate : Scoped enter m predicate := by
  refine .bind (scoped_newlines he) fun _ => .node <| .bind (.plain rfl) fun k => .ite (scoped_parenthesised he) ?_
  exact .ite (.bind (he (.binary 0)) fun _ => .done _) (scoped_reportFound _ _)

theorem scoped_branch : Scoped enter m branch :=
  .bind (scoped_predicate he) fun _ => .bind (scoped_newlines he) fun _ => .bind (scoped_block he) fun _ => .done _

theorem scoped_elseBranchesBody : Scoped enter m elseBranchesBody := by
  refine .bind (scoped_eat _) fun _ => .ite ?_ (.done _)
  refine .bind (scoped_newlines he) fun _ => .bind (scoped_eat _) fun _ => .ite ?_ ?_
  · exact .bind (scoped_branch he) fun _ => .weaken (he .elseBranches)
  · exact .bind (scoped_block he) fun _ => .done _

theorem scoped_ifStatement : Scoped enter m ifStatement :=
  .node <| .bind (scoped_require _) fun _ => .bind (.plain rfl) fun _ => .bind (scoped_branch he) fun _ =>
    .bind (he .elseBranches) fun _ => .done _

theorem scoped_abortStatement : Scoped enter m abortStatement :=
  .node <| .bind (.plain rfl) fun _ => .bind (.plain rfl) fun _ => .ite (.bind (he .statement) fun _ => .done _) (.done _)

theorem scoped_returnStatement : Scoped enter m returnStatement := by
  refine .node <| .bind (.plain rfl) fun _ => .bind (scoped_newlines he) fun _ => .bind (.plain rfl) fun _ => .ite ?_ ?_
  · exact .bind (he .statement) fun _ => .done _
  · exact .bind (scoped_reportFound _ _) fun _ => .done _

theorem scoped_statement : Scoped enter m statement := by
  refine scoped_nested he <| .bind (.plain rfl) fun k => ?_
  split
  · exact scoped_ifStatement he
  · exact scoped_abortStatement he
  · exact scoped_returnStatement he
  · exact .weaken (he .assignment)

theorem scoped_endOfStatement (closer : Option Kind) : Scoped enter m (endOfStatement closer) := by
  refine .bind (.plain rfl) fun _ => .ite (.done _) <| .bind (.plain rfl) fun k => .ite ?_ (.ite ?_ (.ite (.done _) ?_))
  · exact .bind (scoped_newlines he) fun _ => .done _
  · exact .bind (.plain rfl) fun _ => .bind (scoped_newlines he) fun _ => .done _
  · exact .bind (scoped_reportFound _ _) fun _ => .done _

theorem scoped_statementAndEnd (closer : Option Kind) : Scoped enter m (statementAndEnd closer) :=
  .bind (.weaken (he .statement)) fun _ => .bind (scoped_endOfStatement he closer) fun _ => .ite (.done _) (scoped_resync he _)

theorem scoped_statementsBody (closer : Option Kind) : Scoped enter m (statementsBody closer) := by
  have hagain : Scoped enter m (rule (.statements closer)) := .weaken (he (.statements closer))
  refine .bind (scoped_newlines he) fun _ => .bind (.plain rfl) fun _ => .ite (.done _) ?_
  refine .bind (.plain rfl) fun k => .ite (.done _) (.ite ?_ (.ite ?_ (.ite ?_ ?_)))
  · exact .bind (scoped_reportAndAdvance _ _) fun _ => hagain
  · exact .bind (scoped_reportAndAdvance _ _) fun _ => hagain
  · exact .bind (scoped_statementAndEnd he closer) fun _ => hagain
  · exact .bind (scoped_reportFound _ _) fun _ => .bind (scoped_resync he _) fun _ => hagain

theorem scoped_program : Scoped enter m program :=
  .node <| .bind (he (.statements none)) fun _ => .plain rfl

/-- The body of every rule is scoped if the rules it enters are. -/
theorem scoped_grammar (r : Rule α) : Scoped enter r.wraps (grammar r) := by
  cases r with
  | newlines => exact scoped_newlinesBody he
  | absorb => exact scoped_absorbBody he
  | skipTo stops depth => exact scoped_skipToBody he stops depth
  | stringParts => exact scoped_stringPartsBody he
  | templateParts => exact scoped_templatePartsBody he
  | pathSegments => exact scoped_pathSegmentsBody he
  | items list => exact scoped_itemsBody he list
  | statements closer => exact scoped_statementsBody he closer
  | conditions count => exact scoped_conditionsBody he count
  | elseBranches => exact scoped_elseBranchesBody he
  | statement => exact scoped_statement he
  | assignment => exact scoped_assignment he
  | binary min => exact scoped_binaryBody he min
  | binaryRest min lhs => exact scoped_binaryRestBody he min lhs
  | unary => exact scoped_unaryBody he

end Grammar

/-- Every rule is scoped, by induction on the bound on nested rules. -/
theorem scoped_runRule (n : Nat) (r : Rule α) : Scoped (runRule n) r.wraps (rule r) := by
  induction n generalizing α with
  | zero => exact fun _ _ => nofun
  | succ n ih => exact scoped_grammar (fun r => ih r) r

/-- A program that is parsed gives back its surroundings, and closes nothing it did not open. -/
theorem program_kept (n : Nat) (s : State) :
    Ends (· ≠ .misnested) (fun _ t => Kept s t) (program.run (runRule n) s) :=
  (scoped_program (m := false) fun r => scoped_runRule n r).kept s

end Remap.Parser
