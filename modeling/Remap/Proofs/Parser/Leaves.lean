import Remap.Proofs.Parser.Effects
import Remap.Proofs.Parser.Run

/-!
# What a state holds

Every token is in one place at a time: as a leaf in some unfinished node, held back, or unread. `State.leaves` reads them
all from left to right. No action changes that reading, so no run does. A program is read until no token is left, or until
the fuel runs out, and then nothing is held back either: the leaves of the tree are the tokens.
-/

namespace Remap

namespace Tree

/-- Whether a tree is a leaf. -/
def isLeaf : Tree → Bool
  | .leaf _ _ => true
  | .node _ _ => false

theorem leavesOf_append (ts us : List Tree) : leavesOf (ts ++ us) = leavesOf ts ++ leavesOf us := by
  induction ts with
  | nil => rfl
  | cons t ts ih => simp only [List.cons_append, leavesOf, ih, List.append_assoc]

/-- Tokens in a row, as leaves, are read as their kinds and texts. -/
theorem leavesOf_map_leaf (ts : List Token) : leavesOf (ts.map Token.leaf) = ts.map Token.piece := by
  induction ts with
  | nil => rfl
  | cons t ts ih => simp only [List.map_cons, leavesOf, ih, Token.leaf, leaves, Token.piece, List.cons_append, List.nil_append]

end Tree

namespace Parser

/-- The leaves in a frame, from left to right. -/
def Frame.leaves (f : Frame) : List (Kind × Text) := Tree.leavesOf f.built.reverse

/-- The leaves in a stack of frames, whose innermost frame comes first and holds the last leaves. -/
def leavesOfFrames : List Frame → List (Kind × Text)
  | [] => []
  | f :: fs => leavesOfFrames fs ++ f.leaves

/-- Everything a state holds, from left to right: what was placed, what is held back, what is unread. -/
def State.leaves (s : State) : List (Kind × Text) :=
  leavesOfFrames (s.top :: s.below) ++ (s.held ++ s.unread).map Token.piece

namespace State

@[simp] theorem leaves_skip (s : State) : s.skip.leaves = s.leaves := by
  rw [skip_eq]
  simp only [leaves, List.append_assoc, List.takeWhile_append_dropWhile]

@[simp] theorem leaves_drain (s : State) : s.drain.leaves = s.leaves := by
  rw [drain_eq]
  simp only [leaves, leavesOfFrames, Frame.leaves, List.reverse_append, List.reverse_reverse, Tree.leavesOf_append,
    Tree.leavesOf_map_leaf, List.nil_append, List.map_append, List.append_assoc]

@[simp] theorem leaves_report (s : State) (d : Diagnostic) : (s.report d).leaves = s.leaves := by
  rw [report_eq]
  rfl

@[simp] theorem leaves_reportParameters (s : State) : s.reportParameters.leaves = s.leaves := by
  rw [reportParameters_eq]
  obtain ⟨reports, lastReport, h⟩ := foldl_report s.parameterProblems s
  rw [h]
  rfl

end State

/-- Consuming a token moves it from the unread ones into the innermost frame, after what was held back. -/
theorem leaves_consumed {s : State} {t : Token} {rest : List Token} (h : s.unread = t :: rest) :
    (s.consumed t rest).leaves = s.leaves := by
  simp only [State.consumed, State.leaves, leavesOfFrames, Frame.leaves, List.reverse_cons, List.reverse_append,
    List.reverse_reverse, Tree.leavesOf_append, Tree.leavesOf_map_leaf, h, List.nil_append, List.map_append, List.map_cons,
    List.append_assoc, Tree.leavesOf, Tree.leaves, Token.leaf, Token.piece, List.cons_append]

/-- No action loses, adds or moves a leaf. -/
theorem leaves_perform {α : Type} {action : Action α} {s t : State} {a : α} (h : action.perform s = .ok (a, t)) :
    t.leaves = s.leaves := by
  cases action with
  | advance =>
    obtain ⟨token, rest, hs, rfl⟩ := State.of_perform_advance h
    exact leaves_consumed hs
  | peek =>
    simp only [Action.perform, look] at h
    split at h
    · cases h
    · cases h
      exact State.leaves_skip s
  | peekRaw =>
    simp only [Action.perform, look] at h
    split at h
    · cases h
    · cases h
      rfl
  | touches =>
    cases h
    exact State.leaves_skip s
  | ahead q => cases h; rfl
  | atEnd => cases h; rfl
  | stopped => cases h; rfl
  | settle =>
    cases h
    rw [State.leaves_drain, State.leaves_skip]
  | openNode k =>
    cases h
    rw [← State.leaves_drain s]
    simp [State.leaves, leavesOfFrames, Frame.leaves, Tree.leavesOf]
  | mark =>
    cases h
    rw [← State.leaves_drain s]
    simp [State.leaves, leavesOfFrames, Frame.leaves, Tree.leavesOf]
  | closeNode =>
    simp only [Action.perform] at h
    split at h
    · rename_i k f fs hl hb
      cases h
      simp [State.leaves, leavesOfFrames, Frame.leaves, hb, Tree.leavesOf_append, Tree.leavesOf, Tree.leaves]
    · cases h
  | wrap k =>
    simp only [Action.perform] at h
    split at h
    · cases h
      simp [State.leaves, leavesOfFrames, Frame.leaves, Tree.leavesOf]
    · cases h
  | unmark =>
    simp only [Action.perform] at h
    split at h
    · rename_i f fs hl hb
      cases h
      simp [State.leaves, leavesOfFrames, Frame.leaves, hb, Tree.leavesOf_append]
    · cases h
  | report p d =>
    cases h
    rw [State.leaves_report, State.leaves_skip]
  | reportUnclosed closer =>
    simp only [Action.perform] at h
    split at h <;> cases h
    · exact State.leaves_skip s
    · rw [State.leaves_report, State.leaves_skip]
  | reportTarget flaw =>
    cases h
    exact State.leaves_report s _
  | checkParameters =>
    cases h
    exact State.leaves_reportParameters s
  | enter =>
    simp only [Action.perform] at h
    split at h
    · cases h
      rfl
    · split at h <;> cases h
      · rfl
      · exact State.leaves_skip s
  | leave => cases h; rfl
  | pushDelimiter k =>
    cases h
    exact State.leaves_skip s
  | popDelimiter => cases h; rfl
  | setSeparating b => cases h; rfl

/-- No run loses, adds or moves a leaf. -/
theorem respected_leaves : Respected fun s t => t.leaves = s.leaves where
  refl _ := rfl
  trans h h' := h'.trans h
  perform h := leaves_perform h

/-! ## A program is read to its end -/

/-- Whether a state tells the loops of the grammar to stop: no token is left, or the fuel ran out. -/
def State.Stopped (s : State) : Prop := s.unread = [] ∨ s.exhausted = true

/-- The statements of a program end where the parser has to stop, and nowhere else. -/
theorem stopped_of_statements {n : Nat} {s t : State} {u : Unit} (h : runRule n (.statements none) s = .ok (u, t)) :
    t.Stopped := by
  induction n generalizing s with
  | zero => simp [runRule] at h
  | succ n ih =>
    simp only [runRule, grammar, statementsBody, Routine.bind_eq, Routine.pure_eq, Routine.run_bind_eq_ok] at h
    obtain ⟨_, s₁, _, stop, s₂, hstop, h⟩ := h
    simp only [stopped, Routine.run_single, Action.perform, Except.ok.injEq, Prod.mk.injEq] at hstop
    obtain ⟨hstop, rfl⟩ := hstop
    split at h
    · rename_i htrue
      simp only [Routine.run, Except.ok.injEq, Prod.mk.injEq, true_and] at h
      rw [← h]
      simpa [State.Stopped, ← hstop] using htrue
    · -- every other way through the body ends by entering the same rule again
      simp only [Routine.run_bind_eq_ok] at h
      obtain ⟨k, s₄, _, h⟩ := h
      simp only [reduceCtorEq, if_false] at h
      split at h
      · obtain ⟨_, _, _, h⟩ := Routine.run_bind_eq_ok.mp h
        exact ih h
      · split at h
        · obtain ⟨_, _, _, h⟩ := Routine.run_bind_eq_ok.mp h
          exact ih h
        · split at h
          · obtain ⟨_, _, _, h⟩ := Routine.run_bind_eq_ok.mp h
            exact ih h
          · obtain ⟨_, _, _, h⟩ := Routine.run_bind_eq_ok.mp h
            obtain ⟨_, _, _, h⟩ := Routine.run_bind_eq_ok.mp h
            exact ih h

/-- A program that was read without running out of fuel has left nothing unread and nothing held back. -/
theorem nothing_left {n : Nat} {s t : State} {u : Unit} (h : program.run (runRule n) s = .ok (u, t))
    (hfuel : t.exhausted = false) : t.unread = [] ∧ t.held = [] := by
  simp only [program, node, Routine.bind_eq, Routine.pure_eq, Routine.run_bind_eq_ok, Routine.run_single, Routine.run_rule]
    at h
  obtain ⟨_, s₁, _, _, s₂, ⟨_, s₃, hstatements, hsettle⟩, _, s₄, hclose, ht⟩ := h
  cases ht
  cases hsettle
  simp only [Action.perform] at hclose
  split at hclose
  · cases hclose
    simp only [State.drain_eq, State.skip_eq] at hfuel ⊢
    rcases stopped_of_statements hstatements with hnil | hexhausted
    · simp [hnil]
    · rw [hexhausted] at hfuel
      cases hfuel
  · cases hclose

/-- A finished state holds its tree and what is still to be read. -/
theorem leaves_of_finish {s : State} {r : Result} (h : s.finish = .ok r) (hunread : s.unread = []) (hheld : s.held = []) :
    r.tree.leaves = s.leaves := by
  have hholds := State.holds_of_finish h
  simp [State.leaves, leavesOfFrames, Frame.leaves, hholds.built, hholds.below, hunread, hheld, Tree.leavesOf]

/-- The leaves of the tree of a parse that did not run out of fuel are the tokens, in order. -/
theorem leaves_parseTokens {tokens : List Token} {limit : Nat} {fuel : Option Nat} {r : Result}
    (h : parseTokens tokens limit fuel = .ok r) (hfuel : r.exhausted = false) : r.tree.leaves = tokens.map Token.piece := by
  obtain ⟨s, hrun, hfinish⟩ := parseTokens_eq_ok.mp h
  have hexhausted : s.exhausted = false := (State.holds_of_finish hfinish).exhausted ▸ hfuel
  obtain ⟨hunread, hheld⟩ := nothing_left hrun hexhausted
  rw [leaves_of_finish hfinish hunread hheld, respected_leaves.run hrun]
  simp [State.leaves, State.start, leavesOfFrames, Frame.leaves, Tree.leavesOf]

end Parser

end Remap
