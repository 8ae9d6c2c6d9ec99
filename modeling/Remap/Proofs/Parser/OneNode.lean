import Remap.Proofs.Parser.Carries
import Remap.Proofs.Parser.Extends
import Remap.Proofs.Parser.Leading
import Remap.Proofs.Parser.Trims

/-!
# A statement is one node

A routine for a statement or an expression may look at many tokens and wrap what it built many times over, but in a silent run that
starts in front of a token that is neither trivia nor a newline it adds one node to the innermost frame, and nothing behind it (`BuildsOne`).
That node is of the kind that the routine returns. What goes on with an operand at a mark leaves one node there (`KeepsOne`).
-/

namespace Remap

/-- The kinds of the statements that are no operator expressions. -/
def Kind.isStatement : Kind → Bool
  | .ifStatement | .abortStatement | .returnStatement | .assignment => true
  | _ => false

/-- The kinds of operator expressions. -/
def Kind.isOperand (k : Kind) : Bool := k.isExpr && !k.isStatement

/-- The kinds of what may stand on the left side of an assignment, before it is checked. -/
def Kind.isSide (k : Kind) : Bool := k = .noop || k.isOperand

namespace Parser

variable {α β : Type} {n : Nat}

open State (SameFrame)

/-! ## Frames in silent runs -/

namespace Accepts

variable {s : State} {Q : α → State → Prop}

/-- What holds of all runs holds of the silent ones, and they give back the frames. -/
theorem of_returns {x : Routine α} (h : Returns n x s Q) : Accepts n x s fun a t => SameFrame s t ∧ Q a t := by
  intro hs a t hrun hsilent
  obtain ⟨hfollows, hQ⟩ := h hs a t hrun hsilent.fuelled
  exact ⟨⟨hfollows.label, hfollows.below⟩, hQ⟩

/-- Something done between two actions, where the second undoes what the first did to the frames. -/
theorem between {first last : Action Unit} {body : Routine α} {s₁ : State} {g : State → State}
    (hfirst : ∀ s', first.perform s = .ok ((), s') → s' = s₁)
    (hlast : ∀ t u, SameFrame s₁ t → last.perform t = .ok ((), u) → u = g t)
    (h : Accepts n body s₁ fun a t => SameFrame s₁ t ∧ Q a (g t)) :
    Accepts n (do Parser.act first; let a ← body; Parser.act last; return a) s Q := by
  refine .bind (.single fun _ _ s' hopen _ => ?_)
  obtain rfl := hfirst s' hopen
  refine .bind (h.imp fun a t ht => .bind (.single fun _ _ u hclose _ => .done ?_))
  rw [hlast t u ht.1 hclose]
  exact ht.2

/-- Building a node. -/
theorem closing {k : Kind} {body : Routine α}
    (h : Accepts n body (s.pushed (some k)) fun a t => SameFrame (s.pushed (some k)) t ∧ Q a (s.closed k t)) :
    Accepts n (Parser.node k body) s Q := by
  refine between (fun s' hopen => by cases hopen; rfl) (fun t u hframe hclose => ?_) h
  have hlabel : t.top.label = some k := hframe.label
  have hbelow : t.below = s.drain.top :: s.drain.below := hframe.below
  simp only [Action.perform, hlabel, hbelow, Except.ok.injEq, Prod.mk.injEq, true_and] at hclose
  exact hclose.symm

/-- Building from a mark on. -/
theorem joining {body : Routine α} (h : Accepts n body (s.pushed none) fun a t => SameFrame (s.pushed none) t ∧ Q a (s.joined t)) :
    Accepts n (Parser.marked body) s Q := by
  refine between (fun s' hopen => by cases hopen; rfl) (fun t u hframe hclose => ?_) h
  have hlabel : t.top.label = none := hframe.label
  have hbelow : t.below = s.drain.top :: s.drain.below := hframe.below
  simp only [Action.perform, hlabel, hbelow, Except.ok.injEq, Prod.mk.injEq, true_and] at hclose
  exact hclose.symm

/-- Building a node that begins at the innermost mark. -/
theorem wrapping {k : Kind} {body : Routine α}
    (h : s.top.label = none → Accepts n body (s.wrapping k) fun a t => SameFrame (s.wrapping k) t ∧ Q a (s.wrapped k t)) :
    Accepts n (Parser.wrapped k body) s Q := by
  cases hmark : s.top.label with
  | some label =>
    refine .bind (.single fun _ _ s' hopen _ => ?_)
    simp [Action.perform, hmark] at hopen
  | none =>
    refine between (fun s' hopen => ?_) (fun t u hframe hclose => ?_) (h hmark)
    · simp only [Action.perform, hmark, Except.ok.injEq, Prod.mk.injEq, true_and] at hopen
      rw [← hopen, State.wrapping]
      simp only [hmark]
    · have hlabel : t.top.label = some k := hframe.label
      have hbelow : t.below = { s.top with built := [] } :: s.below := hframe.below
      simp only [Action.perform, hlabel, hbelow, Except.ok.injEq, Prod.mk.injEq, true_and] at hclose
      exact hclose.symm

/-- Building one level deeper. -/
theorem deepening {body : Routine Kind} {Q : Kind → State → Prop} (h : Accepts n body s.deeper fun k t => Q k t.shallower) :
    Accepts n (Parser.nested body) s Q := by
  refine accepts_nested fun _ => .bind (h.imp fun k t ht => .bind (.single fun _ _ u hleave _ => .done ?_))
  cases hleave
  exact ht

end Accepts

namespace State

variable {s t u : State} {k : Kind}

theorem sameFrame_closed : SameFrame s (s.closed k t) := by
  rw [closed, drain_eq]
  exact ⟨rfl, rfl⟩

theorem sameFrame_joined : SameFrame s (s.joined t) := by
  rw [joined, drain_eq]
  exact ⟨rfl, rfl⟩

/-! ## One node -/

/-- The next token is not passed over, and it is no newline. -/
structure AtToken (s : State) : Prop where
  ready : s.Ready
  kind : s.nextKind ≠ .newline

/-- One node of a kind was added to the innermost frame, behind what was held back. -/
structure GainsOne (k : Kind) (s t : State) : Prop extends SameFrame s t where
  built : ∃ cs, t.top.built = .node k cs :: s.drain.top.built

/-- The innermost frame holds one node, which is of a kind. -/
def HoldsOne (k : Kind) (s : State) : Prop := ∃ cs, s.top.built = [.node k cs]

theorem ready_looked : s.looked.Ready := ready_congr rfl rfl s.ready_skip

/-- A second look finds what the first one did. -/
theorem nextKind_looked_looked : s.looked.looked.nextKind = s.looked.nextKind := by
  have hunread : s.looked.looked.unread = s.looked.skip.unread := rfl
  exact nextKind_congr (by rw [hunread, skip_of_ready ready_looked])

/-- A look finds what stands next. -/
theorem AtToken.skip (h : s.AtToken) : s.skip = s := skip_of_ready h.ready

theorem AtToken.looked (h : s.AtToken) : s.looked = { s with patience := s.patience - 1 } := by rw [State.looked, h.skip]

theorem AtToken.congr (h : s.AtToken) (hunread : t.unread = s.unread) (hseparating : t.separating = s.separating) : t.AtToken :=
  ⟨ready_congr hunread hseparating h.ready, by rw [nextKind_congr hunread]; exact h.kind⟩

theorem AtToken.atLooked (h : s.AtToken) : s.looked.AtToken := by
  rw [h.looked]
  exact h.congr rfl rfl

theorem AtToken.atPushed (h : s.AtToken) (label : Option Kind) : (s.pushed label).AtToken :=
  h.congr (s.unread_pushed label) (by rw [pushed, drain_eq])

/-- What is gained after a look is gained. -/
theorem GainsOne.of_looked (h : GainsOne k s.looked t) (hs : s.AtToken) : GainsOne k s t := by
  rw [hs.looked] at h
  obtain ⟨hframe, hbuilt⟩ := h
  refine ⟨⟨hframe.label, hframe.below⟩, ?_⟩
  rw [drain_eq] at hbuilt ⊢
  exact hbuilt

/-- What is gained where nothing is held is all there is. -/
theorem GainsOne.holdsOne (h : GainsOne k s t) (hbuilt : s.top.built = []) (hheld : s.held = []) : t.HoldsOne k := by
  obtain ⟨-, cs, hgain⟩ := h
  refine ⟨cs, ?_⟩
  rw [hgain, built_drain, hbuilt, hheld]
  rfl

/-- A mark that holds one node adds it to the frame around it. -/
theorem HoldsOne.gainsOne (h : t.HoldsOne k) : GainsOne k s (s.joined t) := by
  obtain ⟨cs, hbuilt⟩ := h
  exact ⟨sameFrame_joined, cs, by rw [joined, hbuilt]; rfl⟩

end State

open State (AtToken GainsOne)

/-- In front of a token there are no newlines to be read. -/
theorem Accepts.newlines_atToken {s : State} (hs : s.AtToken) : Accepts n Parser.newlines s fun _ t => t = s.looked := by
  refine .rule fun m _ => .peekIs ?_
  rw [beq_false_of_ne hs.atLooked.kind]
  exact .done rfl

/-- In front of a token a routine builds one node, of the kind that it returns. -/
def BuildsOne (p : Kind → Bool) (n : Nat) (x : Routine Kind) : Prop :=
  ∀ s : State, s.AtToken → Accepts n x s fun k t => p k = true ∧ GainsOne k s t

/-- A routine that finds one node of a kind leaves one, of the kind that it returns. -/
def KeepsOne (p : Kind → Bool) (k : Kind) (n : Nat) (x : Routine Kind) : Prop :=
  ∀ s : State, s.HoldsOne k → Accepts n x s fun j t => p j = true ∧ SameFrame s t ∧ t.HoldsOne j

/-- At a mark where nothing is yet, a routine leaves one node, of the kind that it returns. -/
def FillsOne (p : Kind → Bool) (n : Nat) (x : Routine Kind) : Prop :=
  ∀ s : State, s.AtToken → s.top.built = [] → s.held = [] → Accepts n x s fun k t => p k = true ∧ SameFrame s t ∧ t.HoldsOne k

variable {p q : Kind → Bool} {k : Kind}

namespace KeepsOne

theorem done (hk : p k = true) : KeepsOne p k n (pure k : Routine Kind) := fun s hs => .done ⟨hk, .refl s, hs⟩

theorem ite {c : Prop} [Decidable c] {x y : Routine Kind} (hx : c → KeepsOne p k n x) (hy : ¬ c → KeepsOne p k n y) :
    KeepsOne p k n (if c then x else y) := by
  split
  · exact hx ‹_›
  · exact hy ‹_›

theorem look {action : Action α} (hlook : action.isLook = true) {f : α → Routine Kind} (h : ∀ a, KeepsOne p k n (f a)) :
    KeepsOne p k n (act action >>= f) := by
  refine fun s hs => .act fun _ a t hperform _ => ?_
  obtain ⟨hfollows, hbuilt⟩ := look_perform hlook hperform
  obtain ⟨cs, hone⟩ := hs
  exact (h a t ⟨cs, hbuilt.trans hone⟩).imp fun _ _ hu => ⟨hu.1, ⟨hu.2.1.label.trans hfollows.label, hu.2.1.below.trans hfollows.below⟩, hu.2.2⟩

theorem nested {body : Routine Kind} (h : KeepsOne p k n body) : KeepsOne p k n (Parser.nested body) :=
  fun s hs => .deepening <| (h s.deeper hs).imp fun _ _ ht => ⟨ht.1, ⟨ht.2.1.label, ht.2.1.below⟩, ht.2.2⟩

/-- Wrapping leaves one node, whatever is wrapped. -/
theorem wrapped {j : Kind} {body : Routine α} {f : α → Routine Kind} (h : Extends n body) (hf : ∀ a, KeepsOne p j n (f a)) :
    KeepsOne p k n (Parser.wrapped j body >>= f) := by
  have hone (s : State) : Accepts n (Parser.wrapped j body) s fun _ t => SameFrame s t ∧ t.HoldsOne j :=
    .wrapping fun _ => (Accepts.of_returns (h _)).imp fun _ _ ht => ⟨ht.1, ⟨rfl, rfl⟩, _, rfl⟩
  exact fun s _ => .bind <| (hone s).imp fun a t ht => (hf a t ht.2).imp fun _ _ hu => ⟨hu.1, ht.1.trans hu.2.1, hu.2.2⟩

/-- A target that passes its check is left as it is. -/
theorem checkTarget (lhs : Kind) {f : Unit → Routine Kind} (h : KeepsOne p k n (f ())) : KeepsOne p k n (Parser.checkTarget lhs >>= f) := by
  unfold Parser.checkTarget
  split
  case h_5 => exact .look rfl fun _ => h
  all_goals exact h

end KeepsOne

namespace BuildsOne

theorem never {x : Routine Kind} (h : ∀ s, Accepts n x s fun _ _ => False) : BuildsOne p n x :=
  fun s _ => (h s).imp fun _ _ hfalse => hfalse.elim

theorem ite {c : Prop} [Decidable c] {x y : Routine Kind} (hx : BuildsOne p n x) (hy : BuildsOne p n y) :
    BuildsOne p n (if c then x else y) := by
  split
  · exact hx
  · exact hy

theorem imp {x : Routine Kind} (h : BuildsOne p n x) (hpq : ∀ k, p k = true → q k = true) : BuildsOne q n x :=
  fun s hs => (h s hs).imp fun k _ ht => ⟨hpq k ht.1, ht.2⟩

/-- A node, whatever it holds. -/
theorem rooted {x : Routine Kind} (hk : p k = true) (hx : Rooted (fun {_} y => Extends n y) k x) : BuildsOne p n x := by
  obtain ⟨body, rfl, hanswers, hbody⟩ := hx
  have hreturned (s : State) : Accepts n body s fun j _ => j = k := fun _ _ _ hrun _ => of_decide_eq_true (hanswers _ _ _ _ hrun)
  refine fun s _ => .closing <| ((Accepts.of_returns (hbody _)).and (hreturned _)).imp fun j t ht => ⟨ht.1.1, ?_⟩
  obtain ⟨-, rfl⟩ := ht
  exact ⟨hk, State.sameFrame_closed, _, rfl⟩

theorem peek {f : Kind → Routine Kind} (h : ∀ k, BuildsOne p n (f k)) : BuildsOne p n (Parser.peek >>= f) :=
  fun s hs => .act fun _ k t hperform _ => by
    obtain ⟨rfl, rfl⟩ := State.of_perform_peek hperform
    exact (h _ _ hs.atLooked).imp fun _ _ ht => ⟨ht.1, ht.2.of_looked hs⟩

theorem peekIs {f : Bool → Routine Kind} (h : ∀ b, BuildsOne p n (f b)) : BuildsOne p n (Parser.peekIs k >>= f) :=
  .peek (f := fun j => f (j == k)) fun _ => h _

theorem require {f : Unit → Routine Kind} (h : BuildsOne p n (f ())) : BuildsOne p n (Parser.require k >>= f) := by
  rw [require_bind]
  exact .peek fun _ => .ite h fun _ _ => .fail _

theorem ahead {q : Lookahead} {f : Bool → Routine Kind} (h : ∀ b, BuildsOne p n (f b)) : BuildsOne p n (Parser.ahead q >>= f) :=
  fun s hs => .act fun _ b t hperform _ => by
    cases hperform
    exact h _ s hs

theorem newlines {f : Unit → Routine Kind} (h : BuildsOne p n (f ())) : BuildsOne p n (Parser.newlines >>= f) := by
  refine fun s hs => .bind ((Accepts.newlines_atToken hs).imp fun _ t ht => ?_)
  subst ht
  exact (h _ hs.atLooked).imp fun _ _ hu => ⟨hu.1, hu.2.of_looked hs⟩

theorem nested {body : Routine Kind} (h : BuildsOne p n body) : BuildsOne p n (Parser.nested body) := by
  refine fun s hs => .deepening <| (h s.deeper (hs.congr rfl rfl)).imp fun _ t ht => ⟨ht.1, ⟨ht.2.label, ht.2.below⟩, ?_⟩
  have hbuilt := ht.2.built
  rw [State.drain_eq] at hbuilt ⊢
  exact hbuilt

/-- What is built at a mark is added to the frame around it. -/
theorem marked {body : Routine Kind} (h : FillsOne p n body) : BuildsOne p n (Parser.marked body) := by
  refine fun s hs => .joining <| (h (s.pushed none) (hs.atPushed none) rfl ?_).imp fun _ t ht => ⟨ht.2.1, ht.1, ht.2.2.gainsOne⟩
  rw [State.pushed, State.drain_eq]

/-- A rule does what its body does. -/
theorem rule {r : Rule Kind} (h : ∀ m, BuildsOne p m (grammar r)) : BuildsOne p n (Parser.rule r) := fun s hs => .rule fun m _ => h m s hs

end BuildsOne

namespace FillsOne

/-- One routine builds the node, and another goes on with it. -/
theorem bind {x : Routine Kind} {f : Kind → Routine Kind} (hx : BuildsOne p n x) (hf : ∀ k, p k = true → KeepsOne q k n (f k)) :
    FillsOne q n (x >>= f) := by
  refine fun s hs hbuilt hheld => .bind <| (hx s hs).imp fun k t ht => ?_
  exact (hf k ht.1 t (ht.2.holdsOne hbuilt hheld)).imp fun _ u hu => ⟨hu.1, ht.2.toSameFrame.trans hu.2.1, hu.2.2⟩

theorem peek {f : Kind → Routine Kind} (h : ∀ k, FillsOne p n (f k)) : FillsOne p n (Parser.peek >>= f) := by
  refine fun s hs hbuilt hheld => .peek ?_
  have hlooked := h s.looked.nextKind s.looked hs.atLooked
  rw [hs.looked] at hlooked ⊢
  exact (hlooked hbuilt hheld).imp fun _ _ ht => ⟨ht.1, ⟨ht.2.1.label, ht.2.1.below⟩, ht.2.2⟩

end FillsOne

/-! ## The routines of the grammar -/

theorem keeps_continuePath (hk : k.isOperand = true) : KeepsOne Kind.isOperand k n (continuePath k) := by
  have e := uniform_extends n
  have hcontinued (b : Bool) : KeepsOne Kind.isOperand k n (if b then (do
      wrapped .query (node .path (rule .pathSegments)); return .query) else return k) :=
    .ite (fun _ => .wrapped (e.anyNode .path (e.rule .pathSegments)) fun _ => .done rfl) fun _ => .done hk
  refine .ite (fun _ => .look rfl fun j => ?_) fun _ => hcontinued false
  change KeepsOne _ _ _ ((if j = .dot || j = .bracketOpen then touches else pure false) >>= _)
  split
  · exact .look rfl hcontinued
  · exact hcontinued false

theorem buildsOne_simpleLiteral (hk : k.isOperand = true) : BuildsOne Kind.isOperand n (simpleLiteral k) :=
  .rooted hk ⟨_, rfl, .bind fun _ => .ite (.bind fun _ => .bind fun _ => .done (by simp)) (.bind fun _ => .done (by simp)),
    closed_simpleLiteralBody (uniform_extends n).toParts k⟩

theorem buildsOne_literal : BuildsOne Kind.isOperand n literal := by
  refine .peek fun k => ?_
  split
  case h_3 =>
    refine .ahead fun _ => .ite (buildsOne_simpleLiteral rfl) (.ahead fun _ => .ite (buildsOne_simpleLiteral rfl) ?_)
    exact .never fun _ => .never (.reportAndAdvance _ _)
  case h_4 => exact .rooted rfl (rooted_string (uniform_extends n).toParts)
  case h_11 => exact fun _ _ => .fail _
  all_goals exact buildsOne_simpleLiteral rfl

theorem buildsOne_block : BuildsOne Kind.isOperand n block := by
  have e := uniform_extends n
  obtain ⟨x, hx, heq⟩ := rooted_block e.toParts e.separating
  rw [heq]
  exact .peekIs fun _ => .ite (.rooted rfl hx) (.never fun _ => .never (.reportFound _ _))

theorem buildsOne_objectOrBlock : BuildsOne Kind.isOperand n objectOrBlock := by
  have e := uniform_extends n
  exact .require (.ahead fun _ => .ite (.rooted rfl (rooted_object e.toParts e.separating)) buildsOne_block)

theorem buildsOne_identOrCall : BuildsOne Kind.isOperand n identOrCall := by
  have e := uniform_extends n
  obtain ⟨call, name, hcall, hname, heq⟩ :=
    rooted_identOrCall e.toParts (closed_argumentList e.toGrammarClosed) (closed_closure e.toGrammarClosed)
  rw [heq]
  exact .require (.ahead fun _ => .ite (.rooted rfl hcall) (.rooted rfl hname))

theorem buildsOne_term : BuildsOne Kind.isOperand n term := by
  have e := uniform_extends n
  refine .nested (.marked (.peek fun k => ?_))
  split
  case h_1 | h_2 => exact .bind (.rooted rfl (rooted_externalQuery e.toParts (level_firstSegment e.toLevel))) fun _ => keeps_continuePath
  case h_13 => exact .bind (.rooted rfl (rooted_group e.toParts e.separating)) fun _ => keeps_continuePath
  case h_14 => exact .bind (.rooted rfl (rooted_array e.toParts e.separating)) fun _ => keeps_continuePath
  case h_15 => exact .bind buildsOne_objectOrBlock fun _ => keeps_continuePath
  case h_16 => exact .bind buildsOne_identOrCall fun _ => keeps_continuePath
  case h_17 => exact fun _ _ _ _ => .never .missingOperand
  all_goals exact .bind buildsOne_literal fun _ => keeps_continuePath

theorem keeps_binaryRest (min : Nat) (hk : k.isOperand = true) : KeepsOne Kind.isOperand k n (rule (.binaryRest min k)) := by
  induction n generalizing k with
  | zero => exact fun s _ => .rule fun m hm => by cases hm
  | succ n ih =>
    have e := uniform_extends n
    have hbody : KeepsOne Kind.isOperand k n (binaryRestBody min k) := by
      refine .look rfl fun _ => ?_
      split
      · exact .done hk
      · refine .ite (fun _ => .done hk) fun _ => .nested (.wrapped ?_ fun _ => ih rfl)
        exact e.bind (e.simple rfl) fun _ => e.bind (closed_newlines e.toParts) fun _ => e.bind (e.rule _) fun _ => e.done _
    exact fun s hs => .rule fun m hm => by cases hm; exact hbody s hs

theorem buildsOne_unary : BuildsOne Kind.isOperand n (rule .unary) := by
  refine .rule fun m => .newlines (.peekIs fun _ => .ite (.nested (.rooted (k := .unaryOp) rfl ⟨_, rfl, ?_, ?_⟩)) buildsOne_term)
  · exact .bind fun _ => .bind fun _ => .bind fun _ => .done rfl
  · have e := uniform_extends m
    exact e.bind (e.simple rfl) fun _ => e.bind (closed_newlines e.toParts) fun _ => e.bind (e.rule _) fun _ => e.done _

theorem buildsOne_binary (min : Nat) : BuildsOne Kind.isOperand n (rule (.binary min)) :=
  .rule fun _ => .marked (.bind buildsOne_unary fun _ => keeps_binaryRest min)

theorem buildsOne_target : BuildsOne Kind.isSide n target := by
  have e := uniform_extends n
  have hexpr (k : Kind) (hk : k.isOperand = true) : k.isSide = true := by simp [Kind.isSide, hk]
  refine .peekIs fun _ => .ite (.rooted (k := .noop) rfl ⟨_, rfl, .bind fun _ => .done rfl, ?_⟩) ((buildsOne_binary 0).imp hexpr)
  exact e.bind (e.simple rfl) fun _ => e.done _

theorem buildsOne_assignment : BuildsOne Kind.isExpr n (rule .assignment) := by
  refine .rule fun m => .marked (.bind buildsOne_target fun lhs hlhs => .look rfl fun j => .ite (fun _ => ?_) fun _ => .ite (fun _ => ?_) fun _ => ?_)
  all_goals
    have e := uniform_extends m
    have hassign : Extends m (do advance; assignedValue) := e.bind (e.simple rfl) fun _ => closed_assignedValue e.toParts
  · exact .checkTarget lhs (.wrapped hassign fun _ => .done rfl)
  · refine .checkTarget lhs (.wrapped ?_ fun _ => .wrapped ?_ fun _ => .done rfl)
    · refine e.bind (e.simple rfl) fun _ => e.bind (closed_newlines e.toParts) fun _ => e.marked ?_
      exact e.bind (closed_target e.toParts) fun err => closed_checkTarget e.toParts err
    · exact e.bind (e.simple rfl) fun _ => closed_ite (J := fun {_} x => Extends m x) hassign (closed_reportFound e.toParts rfl _)
  · refine .ite (fun _ _ _ => .reportTarget _ _) fun hne => .done ?_
    have hoperand : lhs.isOperand = true := by simpa [Kind.isSide, hne] using hlhs
    exact (Bool.and_eq_true_iff.mp hoperand).1

theorem buildsOne_ifStatement : BuildsOne Kind.isExpr n ifStatement := by
  have e := uniform_extends n
  refine .rooted rfl ⟨_, rfl, .bind fun _ => .bind fun _ => .bind fun _ => .bind fun _ => .done rfl, ?_⟩
  exact closed_ifStatementBody e.toParts (closed_branch e.toParts (level_continuedGroup e.toLevel) (closed_block e.toGrammarClosed)) (e.rule _)

/-- A statement is one node, which is of the kind of an expression. -/
theorem buildsOne_statement : BuildsOne Kind.isExpr n (rule .statement) := by
  refine .rule fun m => .nested (.peek fun k => ?_)
  have e := uniform_extends m
  split
  · exact buildsOne_ifStatement
  · exact .rooted rfl (rooted_abortStatement e.toParts)
  · exact .rooted rfl (rooted_returnStatement e.toParts)
  · exact buildsOne_assignment

end Parser

end Remap
