import Remap.Proofs.Parser.Limit

/-!
# Where a state stands

What was placed and what is held back make up the source before the unread tokens, so the sum of their sizes is the offset at
which the unread tokens begin: the front of the state. It never moves back. Whatever is reported about the next token is
reported at the front; whatever else is reported is about something before it.
-/

namespace Remap.Parser

variable {α : Type}

namespace State

/-- The offset at which the unread tokens begin. -/
def front (s : State) : Nat := s.placed + sizeOfTokens s.held

theorem sizeOfTokens_append (ts us : List Token) : sizeOfTokens (ts ++ us) = sizeOfTokens ts + sizeOfTokens us := by
  rw [sizeOfTokens, List.map_append, Tree.bytesOf_append]
  rfl

theorem sizeOfTokens_eq_spelled (ts : List Token) : sizeOfTokens ts = Text.bytes (spelled (ts.map Token.piece)) := by
  rw [sizeOfTokens, Tree.bytesOf_eq_spelled, Tree.leavesOf_map_leaf]

/-- The front is as far as the tokens before it reach. -/
theorem Reading.front_eq {tokens before : List Token} {s : State} (h : s.Reading tokens)
    (hbefore : Tree.leavesOf s.forest ++ s.held.map Token.piece = before.map Token.piece) : s.front = sizeOfTokens before := by
  have hsized : s.placed = Tree.bytesOf s.forest := h.sized
  rw [sizeOfTokens_eq_spelled before, ← hbefore, spelled_append, Text.bytes_append, ← Tree.bytesOf_eq_spelled,
    ← sizeOfTokens_eq_spelled, front, hsized]

theorem front_skip_le (s : State) : s.front ≤ s.skip.front := by
  rw [skip_eq]
  simp only [front, sizeOfTokens_append]
  omega

@[simp] theorem front_drain (s : State) : s.drain.front = s.front := by
  rw [drain_eq]
  rfl

@[simp] theorem front_report (s : State) (d : Diagnostic) : (s.report d).front = s.front := by
  rw [report_eq]
  rfl

theorem Reading.skip {tokens : List Token} {s : State} (h : s.Reading tokens) : s.skip.Reading tokens := by
  have htouches : Action.touches.perform s = .ok (s.skip.unread.head?.any (·.immediate), s.skip) := rfl
  exact (respected_reading tokens).perform htouches h

/-- Where a report is made, the front is where the next token begins. -/
theorem start_here {ps : List (Kind × Text)} {s : State} (h : s.Reading (Token.place 0 none ps)) : s.here.start = s.front := by
  obtain ⟨before, hsplit, hbefore⟩ := h.exists_before
  have hstart : s.here.start = Text.bytes (spelled (before.map Token.piece)) := start_limitProblem h hsplit hbefore
  rw [hstart, ← sizeOfTokens_eq_spelled, ← h.front_eq hbefore]

/-- What comes before the front and what is unread are all the tokens. -/
theorem front_add_unread {tokens : List Token} {s : State} (h : s.Reading tokens) :
    s.front + sizeOfTokens s.unread = sizeOfTokens tokens := by
  obtain ⟨before, rfl, hbefore⟩ := h.exists_before
  rw [h.front_eq hbefore, sizeOfTokens_append]

/-- The front does not move back. -/
theorem front_le_of_suffix {tokens : List Token} {s t : State} (hs : s.Reading tokens) (ht : t.Reading tokens)
    (h : t.unread <:+ s.unread) : s.front ≤ t.front := by
  obtain ⟨passed, hpassed⟩ := h
  have hsum := (front_add_unread hs).trans (front_add_unread ht).symm
  rw [← hpassed, sizeOfTokens_append] at hsum
  omega

end State

/-- Each frame began after all that is in the frames around it. -/
def Anchored : List Frame → Prop
  | [] => True
  | f :: fs => f.start = Tree.bytesOf (treesOfFrames fs) ∧ Anchored fs

/-- Where a frame began does not depend on what it holds. -/
theorem Anchored.hold {f g : Frame} {fs : List Frame} (h : Anchored (f :: fs)) (hstart : g.start = f.start) : Anchored (g :: fs) :=
  ⟨hstart.trans h.1, h.2⟩

namespace State

/-- All unfinished nodes and marks of a state began where what is around them ends. -/
def Anchored (s : State) : Prop := Parser.Anchored (s.top :: s.below)

theorem Anchored.of_eq {s t : State} (h : s.Anchored) (htop : t.top.start = s.top.start) (hbelow : t.below = s.below) :
    t.Anchored := by
  unfold Anchored
  rw [hbelow]
  exact h.hold htop

theorem Anchored.skip {s : State} (h : s.Anchored) : s.skip.Anchored := by
  rw [skip_eq]
  exact h

theorem Anchored.drain {s : State} (h : s.Anchored) : s.drain.Anchored := by
  rw [drain_eq]
  exact h.of_eq rfl rfl

theorem Anchored.pushed {s : State} (h : s.Anchored) (hsized : s.Sized) (label : Option Kind) : (s.pushed label).Anchored :=
  ⟨hsized.drain, h.drain⟩

/-- What was built since the innermost mark began before the front. -/
theorem Anchored.start_le_front {s : State} (h : s.Anchored) (hsized : s.Sized) : s.top.start ≤ s.front := by
  rw [h.1, front, hsized, forest, treesOfFrames, Tree.bytesOf_append]
  omega

end State

/-- No action changes where a frame began. -/
theorem anchored_perform {action : Action α} {s t : State} {a : α} (h : action.perform s = .ok (a, t)) (hsized : s.Sized)
    (hs : s.Anchored) : t.Anchored := by
  cases action with
  | peek =>
    obtain ⟨-, rfl⟩ := State.of_perform_peek h
    exact hs.skip
  | peekRaw =>
    simp only [Action.perform, look] at h
    split at h <;> cases h
    exact hs
  | advance =>
    obtain ⟨token, rest, hu, rfl⟩ := State.of_perform_advance h
    exact hs.of_eq rfl rfl
  | touches | pushDelimiter k =>
    cases h
    exact hs.skip
  | settle =>
    cases h
    exact hs.skip.drain
  | openNode k | mark =>
    cases h
    exact hs.pushed hsized _
  | closeNode =>
    simp only [Action.perform] at h
    split at h
    · rename_i k f fs hlabel hbelow
      cases h
      have hrest : Anchored (f :: fs) := hbelow ▸ hs.2
      exact hrest.hold rfl
    · cases h
  | unmark =>
    simp only [Action.perform] at h
    split at h
    · rename_i f fs hlabel hbelow
      cases h
      have hrest : Anchored (f :: fs) := hbelow ▸ hs.2
      exact hrest.hold rfl
    · cases h
  | wrap k =>
    simp only [Action.perform] at h
    split at h <;> cases h
    refine ⟨?_, hs.hold rfl⟩
    rw [treesOfFrames, List.reverse_nil, List.append_nil]
    exact hs.1
  | report p d =>
    cases h
    rw [State.report_eq]
    exact hs.skip
  | reportUnclosed closer =>
    simp only [Action.perform] at h
    split at h <;> cases h
    · exact hs.skip
    · rw [State.report_eq]
      exact hs.skip
  | reportTarget flaw =>
    cases h
    rw [State.report_eq]
    exact hs
  | checkParameters =>
    cases h
    rw [State.reportParameters_eq]
    obtain ⟨reports, lastReport, hfold⟩ := State.foldl_report s.parameterProblems s
    rw [hfold]
    exact hs
  | enter =>
    rw [State.perform_enter] at h
    split at h
    · cases h
      exact hs
    · split at h <;> cases h
      · exact hs
      · exact hs.skip
  | ahead q | atEnd | stopped | leave | popDelimiter | setSeparating b =>
    cases h
    exact hs

/-! ## What is said -/

/-- What was said so far: the reports, where the last one was made, and whether the limit was hit. -/
def State.said (s : State) : List Diagnostic × Option Nat × Bool := (s.reports, s.lastReport, s.overflowed)

@[simp] theorem State.said_skip (s : State) : s.skip.said = s.said := by
  rw [skip_eq]
  rfl

@[simp] theorem State.said_drain (s : State) : s.drain.said = s.said := by
  rw [drain_eq]
  rfl

/-- Whether an action says nothing. -/
def Action.saysNothing : {α : Type} → Action α → Bool
  | _, .report _ _ | _, .reportUnclosed _ | _, .reportTarget _ | _, .checkParameters | _, .enter => false
  | _, _ => true

theorem said_perform {action : Action α} {s t : State} {a : α} (hnothing : action.saysNothing = true)
    (h : action.perform s = .ok (a, t)) : t.said = s.said := by
  cases action with
  | peek =>
    obtain ⟨-, rfl⟩ := State.of_perform_peek h
    exact s.said_skip
  | peekRaw | closeNode | wrap k | unmark =>
    simp only [Action.perform, look] at h
    split at h <;> cases h
    rfl
  | advance =>
    obtain ⟨token, rest, hu, rfl⟩ := State.of_perform_advance h
    rfl
  | touches | pushDelimiter k =>
    cases h
    exact s.said_skip
  | settle =>
    cases h
    exact s.skip.said_drain.trans s.said_skip
  | openNode k | mark =>
    cases h
    exact s.said_drain
  | ahead q | atEnd | stopped | leave | popDelimiter | setSeparating b =>
    cases h
    rfl
  | report p d | reportUnclosed closer | reportTarget flaw | checkParameters | enter => cases hnothing

end Remap.Parser
