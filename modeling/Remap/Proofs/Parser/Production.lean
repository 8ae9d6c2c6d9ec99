import Remap.Proofs.Parser.Reach

/-!
# The productions of the grammar

A production is a routine that reads one construct of the grammar. Whatever state it is run from, and however it ends up
returning, it finds its way back to the surroundings it began in. The two that wrap what was built before them return only if the
innermost frame is the mark that they need, or if there is nothing to wrap.
-/

namespace Remap.Parser

variable {α β : Type}

/-- The expressions in a parenthesised condition with their parentheses. Returns how many there are. -/
def conditionSequence : Routine Nat := do
  act (.pushDelimiter .parenOpen)
  advance
  let count ← rule (.conditions 0)
  close .parenClose
  return count

/-- A condition that begins with a parenthesis is such a sequence, and perhaps the first operand of what follows. -/
theorem parenthesised_eq :
    parenthesised = marked (conditionSequence >>= fun count => do
      let grouped ← if count = 1 then atContinuation else pure false
      if grouped then
        wrapped .group (pure ())
        let k ← continuePath .group
        let _ ← rule (.binaryRest 0 k)) := by
  simp only [parenthesised, conditionSequence, Routine.bind_eq, Routine.pure_eq, Routine.bind_assoc, Routine.bind]

/-- The productions, indexed by the type of what they return. -/
inductive Production : Type → Type where
  | program : Production Unit
  | statements (closer : Option Kind) : Production Unit
  | endOfStatement (closer : Option Kind) : Production Bool
  | statement : Production Kind
  | ifStatement : Production Kind
  | predicate : Production Unit
  | conditionSequence : Production Nat
  | block : Production Kind
  | abortStatement : Production Kind
  | returnStatement : Production Kind
  | assignment : Production Kind
  | target : Production Kind
  | assignedValue : Production Unit
  | binary (min : Nat) : Production Kind
  | binaryRest (min : Nat) (lhs : Kind) : Production Kind
  | unary : Production Kind
  | term : Production Kind
  | literal : Production Kind
  | string : Production Kind
  | template : Production Unit
  | externalQuery : Production Kind
  | continuePath (root : Kind) : Production Kind
  | pathSegments : Production Unit
  | fieldSegment : Production Unit
  | fieldName : Production Unit
  | indexSegment : Production Unit
  | group : Production Kind
  | array : Production Kind
  | object : Production Kind
  | items (list : ItemList) : Production Unit
  | item (list : ItemList) : Production Bool
  | identOrCall : Production Kind
  | argumentList : Production Unit
  | closure : Production Unit

/-- What a production does. -/
def Production.routine : Production α → Routine α
  | .program => Parser.program
  | .statements closer => rule (.statements closer)
  | .endOfStatement closer => Parser.endOfStatement closer
  | .statement => rule .statement
  | .ifStatement => Parser.ifStatement
  | .predicate => Parser.predicate
  | .conditionSequence => Parser.conditionSequence
  | .block => Parser.block
  | .abortStatement => Parser.abortStatement
  | .returnStatement => Parser.returnStatement
  | .assignment => rule .assignment
  | .target => Parser.target
  | .assignedValue => Parser.assignedValue
  | .binary min => rule (.binary min)
  | .binaryRest min lhs => rule (.binaryRest min lhs)
  | .unary => rule .unary
  | .term => Parser.term
  | .literal => Parser.literal
  | .string => Parser.string
  | .template => Parser.template
  | .externalQuery => Parser.externalQuery
  | .continuePath root => Parser.continuePath root
  | .pathSegments => rule .pathSegments
  | .fieldSegment => Parser.fieldSegment
  | .fieldName => Parser.fieldName
  | .indexSegment => Parser.indexSegment
  | .group => Parser.group
  | .array => Parser.array
  | .object => Parser.object
  | .items list => rule (.items list)
  | .item list => Parser.item list
  | .identOrCall => Parser.identOrCall
  | .argumentList => Parser.argumentList
  | .closure => Parser.closure

/-! ## Surroundings -/

/-- A routine that returns has kept the surroundings, whether or not it was run at a mark. -/
def Restores (enter : {γ : Type} → Rule γ → Step γ) (x : Routine α) : Prop :=
  ∀ s t a, x.run enter s = .ok (a, t) → Kept s t

namespace Restores

variable {enter : {γ : Type} → Rule γ → Step γ}

theorem done (a : α) : Restores enter (pure a : Routine α) := by
  intro s t b h
  cases h
  exact Kept.refl s

theorem bind {x : Routine α} {f : α → Routine β} (hx : Restores enter x) (hf : ∀ a, Restores enter (f a)) : Restores enter (x >>= f) := by
  intro s u b h
  obtain ⟨a, t, hrun, hrest⟩ := Routine.run_bind_eq_ok.mp h
  exact (hx s t a hrun).trans (hf a t u b hrest)

theorem ite {c : Prop} [Decidable c] {x y : Routine α} (hx : Restores enter x) (hy : Restores enter y) :
    Restores enter (if c then x else y) := by
  split
  · exact hx
  · exact hy

/-- What is scoped everywhere keeps the surroundings. -/
theorem of_scoped {x : Routine α} (h : Scoped enter false x) : Restores enter x := fun s _ _ hrun => (h.kept s).of_ok hrun

/-- Wrapping does not return unless there is a mark. -/
theorem wrapped {k : Kind} {body : Routine α} (h : Scoped enter false body) : Restores enter (Parser.wrapped k body) := by
  intro s t a hrun
  refine (Scoped.wrapped h s fun _ => ?_).of_ok hrun
  obtain ⟨_, u, hwrap, -⟩ := Routine.run_bind_eq_ok.mp hrun
  rw [Routine.run_single] at hwrap
  simp only [Action.perform] at hwrap
  split at hwrap
  · assumption
  · cases hwrap

/-- Building one level deeper keeps the surroundings, whatever the reply to the attempt to enter is. -/
theorem nested {body : Routine Kind} (habsorb : Scoped enter false (rule .absorb)) (h : Restores enter body) :
    Restores enter (Parser.nested body) := by
  intro s t k hrun
  obtain ⟨reply, u, henter, hrest⟩ := Routine.run_bind_eq_ok.mp hrun
  rw [Routine.run_single, State.perform_enter] at henter
  split at henter
  · cases henter
    exact done _ s t k hrest
  split at henter
  · cases henter
    obtain ⟨_, v, hbody, hend⟩ := Routine.run_bind_eq_ok.mp hrest
    cases hend
    have hkept := h s.deeper v k hbody
    have hdepth : v.depth = s.depth + 1 := hkept.depth
    exact ⟨hkept.label, hkept.start, hkept.below, hkept.delimiters, hkept.separating, Nat.sub_eq_of_eq_add hdepth⟩
  · cases henter
    have herror : Scoped enter false (Parser.node .error (do rule .absorb; act .settle) >>= fun _ => pure Kind.error) :=
      .bind (.node (.bind habsorb fun _ => .plain rfl)) fun _ => .done _
    have hskip := Kept.skip s
    have hkept := of_scoped herror s.overrun t k hrest
    exact hskip.trans ⟨hkept.label, hkept.start, hkept.below, hkept.delimiters, hkept.separating, hkept.depth⟩

end Restores

/-- Paths that continue a term. -/
theorem restores_continuePath {enter : {γ : Type} → Rule γ → Step γ} (he : Scoped enter false (rule .pathSegments)) (k : Kind) :
    Restores enter (continuePath k) := by
  have hquery (b : Bool) : Restores enter (if b then (do
      wrapped .query (node .path (rule .pathSegments)); return .query) else return k) :=
    .ite (.bind (.wrapped (.node he)) fun _ => .done _) (.done _)
  exact .ite (.bind (.of_scoped scoped_atSegment) fun b => hquery b) (.bind (.done _) fun b => hquery b)

/-- The operators after an operand, by induction on the bound on nested rules: every fold is one rule deeper. -/
theorem restores_binaryRest (n min : Nat) (lhs : Kind) : Restores (runRule n) (rule (.binaryRest min lhs)) := by
  induction n generalizing lhs with
  | zero => exact fun _ _ _ => nofun
  | succ n ih =>
    have he {γ : Type} (r : Rule γ) : Scoped (runRule n) r.wraps (rule r) := scoped_runRule n r
    have hfold : Restores (runRule n) (binaryRestBody min lhs) := by
      refine .bind (.of_scoped (.plain rfl)) fun k => ?_
      split
      · exact .done _
      · refine .ite (.done _) <| .nested (he .absorb) <| .bind (.wrapped ?_) fun _ => ih .binaryOp
        exact .bind (.plain rfl) fun _ => .bind (scoped_newlines he) fun _ => .bind (scoped_rule he _ rfl) fun _ => .done _
    exact hfold

/-- A production that returns has kept the surroundings. -/
theorem restores_production (n : Nat) (P : Production α) : Restores (runRule n) P.routine := by
  have he {γ : Type} (r : Rule γ) : Scoped (runRule n) r.wraps (rule r) := scoped_runRule n r
  cases P with
  | program => exact .of_scoped (scoped_program he)
  | statements closer => exact .of_scoped (he (.statements closer))
  | endOfStatement closer => exact .of_scoped (scoped_endOfStatement he closer)
  | statement => exact .of_scoped (he .statement)
  | ifStatement => exact .of_scoped (scoped_ifStatement he)
  | predicate => exact .of_scoped (scoped_predicate he)
  | conditionSequence =>
    refine .of_scoped <| .enclosed <| .after (.plain rfl) fun _ => .after (he (.conditions 0)) fun _ => ?_
    exact .before (closes_close he _) fun _ => .done _
  | block => exact .of_scoped (scoped_block he)
  | abortStatement => exact .of_scoped (scoped_abortStatement he)
  | returnStatement => exact .of_scoped (scoped_returnStatement he)
  | assignment => exact .of_scoped (he .assignment)
  | target => exact .of_scoped (scoped_target he)
  | assignedValue => exact .of_scoped (scoped_assignedValue he)
  | binary min => exact .of_scoped (he (.binary min))
  | binaryRest min lhs => exact restores_binaryRest n min lhs
  | unary => exact .of_scoped (he .unary)
  | term => exact .of_scoped (scoped_term he)
  | literal => exact .of_scoped (scoped_literal he)
  | string => exact .of_scoped (scoped_string he)
  | template => exact .of_scoped (scoped_template he)
  | externalQuery => exact .of_scoped (scoped_externalQuery he)
  | continuePath root => exact restores_continuePath (he .pathSegments) root
  | pathSegments => exact .of_scoped (he .pathSegments)
  | fieldSegment => exact .of_scoped (scoped_fieldSegment he)
  | fieldName => exact .of_scoped (scoped_fieldName he)
  | indexSegment => exact .of_scoped (scoped_indexSegment he)
  | group => exact .of_scoped (scoped_group he)
  | array => exact .of_scoped (scoped_array he)
  | object => exact .of_scoped (scoped_object he)
  | items list => exact .of_scoped (he (.items list))
  | item list => exact .of_scoped (scoped_item he list)
  | identOrCall => exact .of_scoped (scoped_identOrCall he)
  | argumentList => exact .of_scoped (scoped_argumentList he)
  | closure => exact .of_scoped (scoped_closure he)

/-! ## Levels -/

/-- A production leaves as many levels as it enters. -/
theorem levels_production (P : Production α) : P.routine.Levels 0 0 := by
  have u := uniform_levels
  have l := u.toLevel
  have g := u.toGrammarClosed
  have p := u.toParts
  have hbranch := closed_branch p (level_continuedGroup l) (closed_block g)
  have hsettle : (act .settle).Levels 0 0 := .single rfl fun _ => rfl
  cases P with
  | program => exact u.anyNode .program (u.bind (u.rule _) fun _ => hsettle)
  | statements closer => exact u.rule _
  | endOfStatement closer => exact closed_endOfStatement p closer
  | statement => exact u.rule _
  | ifStatement => exact u.anyNode .ifStatement (closed_ifStatementBody p hbranch (u.rule _))
  | predicate => exact closed_predicate p (level_continuedGroup l)
  | conditionSequence =>
    refine u.bind (u.simple rfl) fun _ => u.bind (u.simple rfl) fun _ => u.bind (u.rule _) fun _ => ?_
    exact u.bind (closed_close p _) fun _ => u.done _
  | block => exact closed_block g
  | abortStatement => exact (rooted_abortStatement p).uniform u
  | returnStatement => exact (rooted_returnStatement p).uniform u
  | assignment => exact u.rule _
  | target => exact closed_target p
  | assignedValue => exact closed_assignedValue p
  | binary min => exact u.rule _
  | binaryRest min lhs => exact u.rule _
  | unary => exact u.rule _
  | term =>
    exact closed_term p (level_literal l) (level_externalQuery l) ((rooted_group p u.separating).uniform u)
      ((rooted_array p u.separating).uniform u) (uniform_objectOrBlock u (.single rfl fun _ => rfl)) (broad_identOrCall u.toBroad)
      (uniform_continuePath u)
  | literal => exact level_literal l
  | string => exact closed_string p
  | template => exact closed_template p
  | externalQuery => exact level_externalQuery l
  | continuePath root => exact uniform_continuePath u root
  | pathSegments => exact u.rule _
  | fieldSegment => exact broad_fieldSegment u.toBroad
  | fieldName => exact closed_fieldName p
  | indexSegment => exact level_indexSegment l
  | group => exact (rooted_group p u.separating).uniform u
  | array => exact (rooted_array p u.separating).uniform u
  | object => exact (rooted_object p u.separating).uniform u
  | items list => exact u.rule _
  | item list => exact closed_item p list
  | identOrCall => exact broad_identOrCall u.toBroad
  | argumentList => exact closed_argumentList g
  | closure => exact closed_closure g

end Remap.Parser
