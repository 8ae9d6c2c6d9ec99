import Remap.Proofs.Parser.Extends
import Remap.Proofs.Parser.Outlook
import Remap.Proofs.Token.Places

/-!
# How far a parse has come

A state remembers where the last token ends that is neither trivia nor a newline. That end does not move back: it stays where it
is, or comes to lie beyond where the front was. So it lies beyond where the front was when a rule was entered that has consumed
such a token since, and beyond where the innermost node or mark began if one was consumed since then.
-/

namespace Remap.Parser

variable {α : Type}

open State (Follows)

namespace State

/-- The last token placed that is neither trivia nor a newline ends beyond an offset. -/
def EndsBeyond (s : State) (offset : Nat) : Prop := ∃ e, s.lastEnd = some e ∧ offset < e

theorem EndsBeyond.mono {s : State} {m n : Nat} (h : s.EndsBeyond n) (hmn : m ≤ n) : s.EndsBeyond m := by
  obtain ⟨e, he, hlt⟩ := h
  exact ⟨e, he, Nat.lt_of_le_of_lt hmn hlt⟩

theorem EndsBeyond.of_eq {s t : State} {n : Nat} (h : s.EndsBeyond n) (hlast : t.lastEnd = s.lastEnd) : t.EndsBeyond n := by
  obtain ⟨e, he, hlt⟩ := h
  exact ⟨e, hlast.trans he, hlt⟩

end State

/-- Whether an action consumes a token. -/
def Action.isAdvance : {α : Type} → Action α → Bool
  | _, .advance => true
  | _, _ => false

/-- Where the last token ends is known from the tokens consumed. -/
theorem lastEnd_perform {action : Action α} {s t : State} {a : α} (hstill : action.isAdvance = false)
    (h : action.perform s = .ok (a, t)) : t.lastEnd = s.lastEnd := by
  have hskip : s.skip.lastEnd = s.lastEnd := by rw [State.skip_eq]
  have hdrain (u : State) : u.drain.lastEnd = u.lastEnd := by rw [State.drain_eq]
  have hreport (u : State) (d : Diagnostic) : (u.report d).lastEnd = u.lastEnd := by rw [State.report_eq]
  cases action with
  | advance => cases hstill
  | peek =>
    obtain ⟨-, rfl⟩ := State.of_perform_peek h
    exact hskip
  | peekRaw =>
    simp only [Action.perform, look] at h
    split at h <;> cases h
    rfl
  | touches | pushDelimiter k =>
    cases h
    exact hskip
  | settle =>
    cases h
    exact (hdrain _).trans hskip
  | openNode k | mark =>
    cases h
    exact hdrain s
  | closeNode | wrap k | unmark =>
    simp only [Action.perform] at h
    split at h <;> cases h
    rfl
  | report p d =>
    cases h
    exact (hreport _ _).trans hskip
  | reportUnclosed closer =>
    simp only [Action.perform] at h
    split at h <;> cases h
    · exact hskip
    · exact (hreport _ _).trans hskip
  | reportTarget flaw =>
    cases h
    exact hreport _ _
  | checkParameters =>
    cases h
    rw [State.reportParameters_eq]
    obtain ⟨reports, lastReport, hfold⟩ := State.foldl_report s.parameterProblems s
    rw [hfold]
  | enter =>
    rw [State.perform_enter] at h
    split at h
    · cases h
      rfl
    · split at h <;> cases h
      · rfl
      · exact hskip
  | ahead q | atEnd | stopped | leave | popDelimiter | setSeparating b =>
    cases h
    rfl

/-- What an action that consumes nothing adds to what is known of the tokens consumed: nothing. -/
theorem Action.landed_of_still {action : Action α} (hstill : action.isAdvance = false) (σ : Outlook) (a : α) :
    (action.outlook σ a).landed = σ.landed := by
  cases action with
  | advance => cases hstill
  | ahead q => cases q <;> rfl
  | enter => cases a <;> first | rfl | exact σ.landed_looked
  | peek | touches | settle | reportUnclosed k | pushDelimiter k | report p d => exact σ.landed_looked
  | _ => rfl

/-- What was consumed since the innermost node or mark began was consumed before, and none is innermost that began later. -/
theorem begun_perform {action : Action α} {σ : Outlook} {s t : State} {a : α} (hstill : action.isAdvance = false)
    (h : action.perform s = .ok (a, t)) (hs : s.Anchored) (ht : t.Anchored) (hbegun : (action.outlook σ a).begun = true) :
    σ.begun = true ∧ t.top.start ≤ s.top.start := by
  have hflat (hflat : action.isFlat = true) : t.top.start ≤ s.top.start := by
    obtain ⟨hfollows, -⟩ := flat_perform hflat h
    exact Nat.le_of_eq (by rw [hs.1, ht.1, hfollows.below])
  have hclosing {f : Frame} {fs : List Frame} (hbelow : s.below = f :: fs) : f.start ≤ s.top.start := by
    have hrest : Anchored (f :: fs) := hbelow ▸ hs.2
    rw [hs.1, hbelow, hrest.1, treesOfFrames, Tree.bytesOf_append]
    exact Nat.le_add_right _ _
  cases action with
  | advance => cases hstill
  | openNode k | mark => cases hbegun
  | closeNode | unmark =>
    simp only [Action.perform] at h
    split at h
    · rename_i f fs _ hbelow
      cases h
      exact ⟨hbegun, hclosing (f := f) hbelow⟩
    · cases h
  | wrap k =>
    simp only [Action.perform] at h
    split at h <;> cases h
    exact ⟨hbegun, Nat.le_refl _⟩
  | enter =>
    rw [State.perform_enter] at h
    split at h
    · cases h
      exact ⟨hbegun, Nat.le_refl _⟩
    · split at h <;> cases h
      · exact ⟨hbegun, Nat.le_refl _⟩
      · have hstart : s.overrun.top.start = s.top.start := by rw [State.overrun, State.skip_eq]
        exact ⟨σ.begun_looked.symm.trans hbegun, Nat.le_of_eq hstart⟩
  | leave =>
    cases h
    exact ⟨hbegun, Nat.le_refl _⟩
  | ahead q => cases q <;> exact ⟨hbegun, hflat rfl⟩
  | peek | touches | settle | reportUnclosed k | pushDelimiter k | report p d =>
    exact ⟨σ.begun_looked.symm.trans hbegun, hflat rfl⟩
  | _ => exact ⟨hbegun, hflat rfl⟩

/-! ## Frames -/

/-- A rule ends where the innermost node or mark is the one where it began. -/
theorem start_runRule {ps : List (Kind × Text)} {n : Nat} {r : Rule α} {s t : State} {a : α} (h : runRule n r s = .ok (a, t))
    (hfuel : t.exhausted = false) (hs : s.Orderly ps) (hsteady : s.Steady) : t.top.start = s.top.start := by
  have hfollows : Follows s t := (extends_rule n r s hsteady a t h hfuel).1
  rw [hs.anchored.1, ((respected_orderly ps).runRule h hs).anchored.1, hfollows.below]

/-! ## What was consumed -/

/-- Since a rule was entered in `s₀` the front has not moved back, nor has the end of the last token; and what is known to have been
consumed was. -/
structure Tracks (s₀ : State) (σ : Outlook) (s : State) : Prop where
  front : s₀.front ≤ s.front
  lastEnd : s.lastEnd = s₀.lastEnd ∨ s.EndsBeyond s₀.front
  landed : σ.landed = true → s.EndsBeyond s₀.front
  begun : σ.begun = true → s.EndsBeyond s.top.start

namespace Tracks

variable {s₀ s t : State} {σ τ : Outlook}

/-- A step that consumes nothing. -/
theorem still (h : Tracks s₀ σ s) (hfront : s.front ≤ t.front) (hlast : t.lastEnd = s.lastEnd) (hlanded : τ.landed = σ.landed)
    (hbegun : τ.begun = true → σ.begun = true ∧ t.top.start ≤ s.top.start) : Tracks s₀ τ t where
  front := Nat.le_trans h.front hfront
  lastEnd := h.lastEnd.imp hlast.trans (·.of_eq hlast)
  landed hτ := (h.landed (hlanded ▸ hτ)).of_eq hlast
  begun hτ := ((h.begun (hbegun hτ).1).mono (hbegun hτ).2).of_eq hlast

/-- A step after which the last token may end further on. -/
theorem moved (h : Tracks s₀ σ s) (hfront : s.front ≤ t.front) (hstart : t.top.start = s.top.start) (hbehind : s.top.start ≤ s.front)
    (hlast : t.lastEnd = s.lastEnd ∨ t.EndsBeyond s.front) {consumed : Bool} (hconsumed : consumed = true → t.EndsBeyond s.front)
    (hlanded : τ.landed = (σ.landed || consumed)) (hbegun : τ.begun = (σ.begun || consumed)) : Tracks s₀ τ t where
  front := Nat.le_trans h.front hfront
  lastEnd := by
    rcases hlast with hlast | hlast
    · exact h.lastEnd.imp hlast.trans (·.of_eq hlast)
    · exact .inr (hlast.mono h.front)
  landed hτ := by
    rw [hlanded, Bool.or_eq_true] at hτ
    rcases hτ with hσ | hnew
    · exact hlast.elim (h.landed hσ).of_eq (·.mono h.front)
    · exact (hconsumed hnew).mono h.front
  begun hτ := by
    rw [hbegun, Bool.or_eq_true] at hτ
    rw [hstart]
    rcases hτ with hσ | hnew
    · exact hlast.elim (h.begun hσ).of_eq (·.mono hbehind)
    · exact (hconsumed hnew).mono hbehind

end Tracks

/-- A token that is consumed and is neither trivia nor a newline ends beyond where it begins. -/
theorem tracks_advance {ps : List (Kind × Text)} (hps : ∀ p ∈ ps, p.2 ≠ []) {σ : Outlook} {s₀ s t : State} {a : Unit}
    (h : Action.advance.perform s = .ok (a, t)) (hs : s.Orderly ps) (hσ : σ.Shows s) (htracks : Tracks s₀ σ s)
    (hfront : s.front ≤ t.front) : Tracks s₀ σ.moved t := by
  obtain ⟨token, rest, hu, rfl⟩ := State.of_perform_advance h
  have hstart : token.start = s.front := by
    rw [← State.start_here hs.reading, State.here, hu]
    rfl
  have hmem : token ∈ Token.place 0 none ps := hs.reading.unread.subset (hu ▸ List.mem_cons_self)
  have hpiece : token.piece ∈ ps := by
    rw [← Token.map_piece_place 0 none ps]
    exact List.mem_map_of_mem hmem
  have hsize : 0 < token.text.bytes := Text.bytes_pos (hps token.piece hpiece)
  have hend (hsolid : token.kind.isSolid = true) : (s.consumed token rest).EndsBeyond s.front := by
    refine ⟨token.stop, ?_, by rw [Token.stop]; omega⟩
    simp only [Kind.isSolid, Bool.not_eq_true'] at hsolid
    simp only [State.consumed, hsolid, Bool.false_eq_true, if_false]
  refine htracks.moved hfront rfl (hs.anchored.start_le_front hs.reading.sized) ?_ (fun hnext => hend ?_) rfl rfl
  · cases hsolid : token.kind.isSolid with
    | true => exact .inr (hend hsolid)
    | false =>
      simp only [Kind.isSolid, Bool.not_eq_false'] at hsolid
      exact .inl (if_pos hsolid)
  · obtain ⟨k, hk, hsolid⟩ := (Option.any_eq_true _ _).mp hnext
    have hkind : token.kind = k := by
      rw [← (hσ.next k hk).2, State.nextKind, hu]
    exact hkind ▸ hsolid

/-- What an outlook says was consumed was consumed, in every run. -/
theorem heeded_tracks {ps : List (Kind × Text)} (hps : ∀ p ∈ ps, p.2 ≠ []) : Heeded ps Tracks where
  start {_ r s} _ := by
    have hunknown : r.outlook.landed = false ∧ r.outlook.begun = false := by cases r <;> exact ⟨rfl, rfl⟩
    refine ⟨Nat.le_refl _, .inl rfl, fun h => ?_, fun h => ?_⟩
    · exact Bool.noConfusion (hunknown.1.symm.trans h)
    · exact Bool.noConfusion (hunknown.2.symm.trans h)
  step {_ action σ s₀ s t a} h hpermits hs hσ htracks := by
    have ht := (respected_orderly ps).perform h hs
    have hfront : s.front ≤ t.front := State.front_le_of_suffix hs.reading ht.reading (suffix_perform h)
    cases hstill : action.isAdvance with
    | false =>
      exact htracks.still hfront (lastEnd_perform hstill h) (action.landed_of_still hstill σ a)
        (begun_perform hstill h hs.anchored ht.anchored)
    | true =>
      cases action with
      | advance => exact tracks_advance hps h hs hσ htracks hfront
      | _ => cases hstill
  leave {_ n r σ τ s₀ s t a} h hfuel hs hsteady hlanded htracks hrule := by
    have hbehind : s.top.start ≤ s.front := hs.anchored.start_le_front hs.reading.sized
    exact htracks.moved hrule.front (start_runRule h hfuel hs hsteady) hbehind hrule.lastEnd (fun hconsumed => hrule.landed (hlanded hconsumed))
      rfl rfl

end Remap.Parser
