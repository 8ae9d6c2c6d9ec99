import Remap.Proofs.Parser.Landing

/-!
# What reports point to

The spans that diagnostics point to can be cut out of the source: both ends lie between characters, and a span is empty only at the
end of the source. A report about what comes next points to the token that comes next, or to the end if there is none; a report about
what was built points to something that was built and is not empty; and a delimiter is remembered as the token that opened it.
-/

namespace Remap

/-- An offset lies between two characters of a text, or at one of its ends. -/
def Text.Boundary (source : Text) (offset : Nat) : Prop := ∃ before after, source = before ++ after ∧ before.bytes = offset

/-- A span can be cut out of a source, and is empty only at its end. -/
structure Span.Fits (source : Text) (s : Span) : Prop where
  start : source.Boundary s.start
  stop : source.Boundary s.stop
  ordered : s.start ≤ s.stop
  empty : s.start = s.stop → s.stop = source.bytes

/-- A text that stands in a source can be cut out of it. -/
theorem Span.Holds.fits {source t : Text} {s : Span} (h : s.Holds source t) (ht : t ≠ []) : s.Fits source := by
  obtain ⟨before, after, hsource, rfl⟩ := h
  have hpos := Text.bytes_pos ht
  refine ⟨⟨before, t ++ after, hsource, rfl⟩, ⟨before ++ t, after, ?_, Text.bytes_append _ _⟩, Nat.le_add_right _ _, fun hempty => ?_⟩
  · rw [hsource, List.append_assoc]
  · simp only [ofSize] at hempty
    omega

theorem Span.fits_end (source : Text) : (Span.empty source.bytes).Fits source := by
  have hend : source.Boundary source.bytes := ⟨source, [], (List.append_nil _).symm, rfl⟩
  exact ⟨hend, hend, Nat.le_refl _, fun _ => rfl⟩

/-- The problems that are reported about a token; at the end of the input they become another problem. -/
def Problem.aboutToken (p : Problem) : Prop := p = .expectedExpression ∨ p = .unexpectedToken ∨ p = .missingSeparator

/-- What the parser says about a source points to a place in it; what it says about the next token points to that token. -/
structure Diagnostic.Founded (ps : List (Kind × Text)) (d : Diagnostic) : Prop where
  span : d.span.Fits (spelled ps)
  related : ∀ r ∈ d.related, r.span.Fits (spelled ps)
  ending : d.problem = .unexpectedEndOfInput → d.span = .empty (spelled ps).bytes ∧
    ∀ r ∈ d.related, ∃ t ∈ Token.place 0 none ps, r = ⟨t.span, .opened t.kind⟩
  token : d.problem.aboutToken → ∃ t ∈ Token.place 0 none ps, t.kind.isTrivia = false ∧ d.span = t.span

namespace Parser

variable {α : Type} {ps : List (Kind × Text)}

/-- A token that was placed can be cut out of what the tokens spell. -/
theorem fits_token (hps : ∀ p ∈ ps, p.2 ≠ []) {t : Token} (h : t ∈ Token.place 0 none ps) : t.span.Fits (spelled ps) := by
  have hpiece : t.piece ∈ ps := by
    rw [← Token.map_piece_place 0 none ps]
    exact List.mem_map_of_mem h
  exact (Token.holds_of_mem_place h).fits (hps t.piece hpiece)

namespace State

variable {s t : State}

/-- What the tokens spell, from what was placed on. -/
theorem Reading.spelled_eq (h : s.Reading (Token.place 0 none ps)) : ∃ after, spelled ps = spelled (Tree.leavesOf s.forest) ++ after := by
  obtain ⟨before, hsplit, hbefore⟩ := h.exists_before
  refine ⟨spelled (s.held.map Token.piece ++ s.unread.map Token.piece), ?_⟩
  rw [← Token.map_piece_place 0 none ps, hsplit, List.map_append, ← hbefore, ← spelled_append, List.append_assoc]

/-- Where the state stands is the next token, or the end if there is none. -/
theorem here_cases (h : s.Reading (Token.place 0 none ps)) :
    (s.unread = [] ∧ s.here = .empty (spelled ps).bytes) ∨
      ∃ t rest, s.unread = t :: rest ∧ t ∈ Token.place 0 none ps ∧ s.here = t.span := by
  cases hu : s.unread with
  | nil =>
    have hfront : s.front = (spelled ps).bytes := by
      have hsum := front_add_unread h
      rwa [hu, sizeOfTokens_eq_spelled (Token.place 0 none ps), Token.map_piece_place] at hsum
    have hstart : s.here.start = s.front := start_here h
    refine .inl ⟨rfl, ?_⟩
    rw [here, hu] at hstart ⊢
    rw [← hfront, ← hstart]
    rfl
  | cons t rest => exact .inr ⟨t, rest, rfl, h.unread.subset (hu ▸ List.mem_cons_self), by rw [here, hu]⟩

theorem fits_here (hps : ∀ p ∈ ps, p.2 ≠ []) (h : s.Reading (Token.place 0 none ps)) : s.here.Fits (spelled ps) := by
  rcases here_cases h with ⟨-, hhere⟩ | ⟨t, rest, -, ht, hhere⟩
  · exact hhere ▸ Span.fits_end _
  · exact hhere ▸ fits_token hps ht

end State

/-! ## Parameters -/

/-- The parameters of a list are leaves of it. -/
theorem fits_parametersOf {source : Text} {cs : List Tree} {before after : Text}
    (h : source = before ++ (spelled (Tree.leavesOf cs) ++ after)) (hcs : ∀ p ∈ Tree.leavesOf cs, p.2 ≠ []) :
    ∀ x ∈ parametersOf before.bytes cs, x.2.Fits source := by
  induction cs generalizing before with
  | nil => exact fun x hx => absurd hx List.not_mem_nil
  | cons c cs ih =>
    have hfirst : source = before ++ (spelled c.leaves ++ (spelled (Tree.leavesOf cs) ++ after)) := by
      rw [h, Tree.leavesOf, spelled_append, List.append_assoc]
    have hrest : ∀ x ∈ parametersOf (before.bytes + c.bytes) cs, x.2.Fits source := by
      rw [Tree.bytes_eq_spelled, ← Text.bytes_append]
      exact ih (by rw [hfirst, List.append_assoc]) fun p hp => hcs p (by simp [Tree.leavesOf, hp])
    cases c with
    | node k ds => exact hrest
    | leaf k t =>
      have ht : t ≠ [] := hcs (k, t) (by simp [Tree.leavesOf, Tree.leaves])
      intro x hx
      simp only [parametersOf] at hx
      split at hx
      · rcases List.mem_cons.mp hx with rfl | hx
        · exact Span.Holds.fits ⟨before, _, by simpa [Tree.leaves] using hfirst, rfl⟩ ht
        · exact hrest x hx
      · exact hrest x hx

/-- A report about something that was built. -/
theorem founded_back {d : Diagnostic} (hd : d.PointsBack) (hspan : d.span.Fits (spelled ps))
    (hrelated : ∀ r ∈ d.related, r.span.Fits (spelled ps)) : d.Founded ps := by
  refine ⟨hspan, hrelated, fun hproblem => ?_, fun hproblem => ?_⟩
  · rcases hd with hd | hd <;> cases hd.symm.trans hproblem
  · rcases hproblem with hproblem | hproblem | hproblem <;> rcases hd with hd | hd <;> cases hd.symm.trans hproblem

theorem founded_parameterProblems (hps : ∀ p ∈ ps, p.2 ≠ []) {s : State} (hs : s.Reading (Token.place 0 none ps)) :
    ∀ d ∈ s.parameterProblems, d.Founded ps := by
  intro d hd
  unfold State.parameterProblems at hd
  split at hd
  · rename_i cs more hbuilt
    obtain ⟨⟨name, span, first⟩, hx, rfl⟩ := List.mem_map.mp hd
    have hforest : s.forest = (treesOfFrames s.below ++ more.reverse) ++ [.node .closureParams cs] := by
      rw [State.forest, treesOfFrames, hbuilt, List.reverse_cons, List.append_assoc]
    generalize treesOfFrames s.below ++ more.reverse = before at hforest
    obtain ⟨after, hspelled⟩ := hs.spelled_eq
    have hsource : spelled ps = spelled (Tree.leavesOf before) ++ (spelled (Tree.leavesOf cs) ++ after) := by
      rw [hspelled, hforest, Tree.leavesOf_append, spelled_append, List.append_assoc]
      simp [Tree.leavesOf, Tree.leaves]
    have hleaves : ∀ p ∈ Tree.leavesOf cs, p.2 ≠ [] := by
      intro p hp
      obtain ⟨earlier, hsplit, hbefore⟩ := hs.exists_before
      refine hps p ?_
      rw [← Token.map_piece_place 0 none ps, hsplit, List.map_append, ← hbefore, hforest, Tree.leavesOf_append]
      simp [Tree.leavesOf, Tree.leaves, hp]
    have hstart : s.placed - Tree.bytesOf cs = (spelled (Tree.leavesOf before)).bytes := by
      rw [hs.sized, hforest, Tree.bytesOf_append, ← Tree.bytesOf_eq_spelled]
      simp [Tree.bytesOf, Tree.bytes]
    have hfits := fits_parametersOf hsource hleaves
    rw [← hstart] at hfits
    obtain ⟨hspan, hfirst⟩ := mem_repeatedParameters hx
    refine founded_back (.inr rfl) (hfits _ hspan) fun r hr => ?_
    rw [List.mem_singleton.mp hr]
    exact hfits _ hfirst
  · cases hd

/-! ## Every run -/

/-- All reports of a state are founded, its delimiters are tokens, and it knows the end of a token. -/
structure State.Founded (ps : List (Kind × Text)) (s : State) : Prop where
  reports : ∀ d ∈ s.reports, d.Founded ps
  delimiters : ∀ d ∈ s.delimiters, ∃ t ∈ Token.place 0 none ps, d = ⟨t.kind, t.span⟩
  lastEnd : ∀ e, s.lastEnd = some e → (spelled ps).Boundary e

namespace State.Founded

variable {s t : State}

theorem of_eq (h : s.Founded ps) (hreports : t.reports = s.reports) (hdelimiters : t.delimiters = s.delimiters)
    (hlast : t.lastEnd = s.lastEnd) : t.Founded ps :=
  ⟨hreports ▸ h.reports, hdelimiters ▸ h.delimiters, hlast ▸ h.lastEnd⟩

theorem skip (h : s.Founded ps) : s.skip.Founded ps := by
  rw [State.skip_eq]
  exact h.of_eq rfl rfl rfl

theorem drain (h : s.Founded ps) : s.drain.Founded ps := by
  rw [State.drain_eq]
  exact h.of_eq rfl rfl rfl

theorem report (h : s.Founded ps) {d : Diagnostic} (hd : d.Founded ps) : (s.report d).Founded ps := by
  rw [State.report_eq]
  refine ⟨fun e he => ?_, h.delimiters, h.lastEnd⟩
  simp only at he
  split at he
  · exact h.reports e he
  · rcases List.mem_cons.mp he with rfl | he
    · exact hd
    · exact h.reports e he

theorem foldl_report (h : s.Founded ps) {ds : List Diagnostic} (hds : ∀ d ∈ ds, d.Founded ps) :
    (ds.foldl State.report s).Founded ps := by
  induction ds generalizing s with
  | nil => exact h
  | cons d ds ih => exact ih (h.report (hds d List.mem_cons_self)) fun e he => hds e (List.mem_cons_of_mem _ he)

end State.Founded

/-- A report about what comes next: at the end of the input it is about the end, and elsewhere about a token that is no trivia. -/
theorem founded_here (hps : ∀ p ∈ ps, p.2 ≠ []) {s : State} (hs : s.Reading (Token.place 0 none ps)) (hready : s.Ready) {p : Problem}
    (hp : p ≠ .unexpectedEndOfInput) (d : Option Detail) :
    Diagnostic.Founded ps { problem := if s.unread.isEmpty then atEndOfInput p else p, span := s.here, detail := d } := by
  have hnone {q : Prop} {r : Related} (hr : r ∈ ([] : List Related)) : q := absurd hr List.not_mem_nil
  refine ⟨State.fits_here hps hs, fun _ => hnone, fun hproblem => ?_, fun hproblem => ?_⟩
  · rcases State.here_cases hs with ⟨-, hhere⟩ | ⟨t, rest, hu, -, -⟩
    · exact ⟨hhere, fun _ => hnone⟩
    · simp only [hu, List.isEmpty_cons, Bool.false_eq_true, if_false] at hproblem
      exact absurd hproblem hp
  · rcases State.here_cases hs with ⟨hu, -⟩ | ⟨t, rest, hu, ht, hhere⟩
    · simp only [hu, List.isEmpty_nil, if_true] at hproblem
      revert hproblem
      cases p <;> simp [atEndOfInput, Problem.aboutToken]
    · have hkind := hready t rest hu
      simp only [State.skips, Bool.or_eq_false_iff] at hkind
      exact ⟨t, ht, hkind.1, hhere⟩

/-- An assignment target that was built begins where the innermost mark is and ends where the last token does. -/
theorem founded_target {s : State} (hs : s.Orderly ps) (hf : s.Founded ps) (hbegun : s.EndsBeyond s.top.start) (d : Option Detail) :
    Diagnostic.Founded ps { problem := .invalidAssignmentTarget, span := s.targetSpan, detail := d } := by
  obtain ⟨e, he, hlt⟩ := hbegun
  have hspan : s.targetSpan = ⟨s.top.start, e⟩ := by
    simp only [State.targetSpan, he, Option.getD_some, Nat.max_eq_left (Nat.le_of_lt hlt)]
  have hstart : (spelled ps).Boundary s.top.start := by
    obtain ⟨after, hspelled⟩ := hs.reading.spelled_eq
    refine ⟨spelled (Tree.leavesOf (treesOfFrames s.below)), spelled (Tree.leavesOf s.top.built.reverse) ++ after, ?_, ?_⟩
    · rw [hspelled, State.forest, treesOfFrames, Tree.leavesOf_append, spelled_append, List.append_assoc]
    · rw [hs.anchored.1, Tree.bytesOf_eq_spelled]
  refine founded_back (.inl rfl) ?_ fun r hr => absurd hr List.not_mem_nil
  rw [hspan]
  exact ⟨hstart, hf.lastEnd e he, Nat.le_of_lt hlt, fun hempty => absurd hempty (Nat.ne_of_lt hlt)⟩

/-- The end of a token that is consumed is remembered. -/
theorem boundary_perform {action : Action α} {s t : State} {a : α} (h : action.perform s = .ok (a, t))
    (hs : s.Reading (Token.place 0 none ps)) (hlast : ∀ e, s.lastEnd = some e → (spelled ps).Boundary e) :
    ∀ e, t.lastEnd = some e → (spelled ps).Boundary e := by
  cases hstill : action.isAdvance with
  | false => exact lastEnd_perform hstill h ▸ hlast
  | true =>
    cases action with
    | advance =>
      obtain ⟨token, rest, hu, rfl⟩ := State.of_perform_advance h
      intro e he
      simp only [State.consumed] at he
      split at he
      · exact hlast e he
      · cases he
        obtain ⟨before, after, hsource, hspan⟩ := Token.holds_of_mem_place (hs.unread.subset (hu ▸ List.mem_cons_self))
        refine ⟨before ++ token.text, after, by rw [hsource, List.append_assoc], ?_⟩
        rw [Text.bytes_append]
        exact (congrArg Span.stop hspan).symm
    | _ => cases hstill

/-- An action that is permitted reports only what is founded. -/
theorem founded_perform (hps : ∀ p ∈ ps, p.2 ≠ []) {action : Action α} {σ : Outlook} {s t : State} {a : α}
    (h : action.perform s = .ok (a, t)) (hpermits : action.permits σ = true) (hs : s.Orderly ps) (hσ : σ.Shows s)
    (hbegun : σ.begun = true → s.EndsBeyond s.top.start) (hf : s.Founded ps) : t.Founded ps := by
  have hlast := boundary_perform h hs.reading hf.lastEnd
  have hskip := hs.reading.skip
  cases action with
  | report p d =>
    cases h
    exact hf.skip.report (founded_here hps hskip s.ready_skip (bne_iff_ne.mp hpermits) d)
  | reportUnclosed closer =>
    have hend : s.skip.unread = [] := by rw [State.unread_skip, hσ.ended hpermits, List.dropWhile_nil]
    simp only [Action.perform] at h
    split at h
    · cases h
      exact hf.skip
    · rename_i d ds hd
      cases h
      have hhere : s.skip.here = .empty (spelled ps).bytes := by
        rcases State.here_cases hskip with ⟨-, hhere⟩ | ⟨t, rest, hu, -, -⟩
        · exact hhere
        · cases hend.symm.trans hu
      obtain ⟨t, ht, rfl⟩ := hf.skip.delimiters d (hd ▸ List.mem_cons_self)
      refine hf.skip.report ⟨State.fits_here hps hskip, fun r hr => ?_, fun _ => ⟨hhere, fun r hr => ⟨t, ht, List.mem_singleton.mp hr⟩⟩,
        fun hproblem => ?_⟩
      · rw [List.mem_singleton.mp hr]
        exact fits_token hps ht
      · rcases hproblem with hproblem | hproblem | hproblem <;> cases hproblem
  | reportTarget flaw =>
    cases h
    exact hf.report (founded_target hs hf (hbegun hpermits) _)
  | checkParameters =>
    cases h
    rw [State.reportParameters_eq]
    exact hf.foldl_report (founded_parameterProblems hps hs.reading)
  | enter =>
    rw [State.perform_enter] at h
    split at h
    · cases h
      exact hf
    · split at h <;> cases h
      · exact hf.of_eq rfl rfl rfl
      · refine ⟨fun d hd => ?_, hf.skip.delimiters, hlast⟩
        rcases List.mem_cons.mp hd with rfl | hd
        · refine ⟨State.fits_here hps hskip, fun r hr => absurd hr List.not_mem_nil, fun hproblem => ?_, fun hproblem => ?_⟩
          · cases hproblem
          · rcases hproblem with hproblem | hproblem | hproblem <;> cases hproblem
        · exact hf.skip.reports d hd
  | pushDelimiter k =>
    cases h
    refine ⟨hf.skip.reports, fun d hd => ?_, hlast⟩
    rcases List.mem_cons.mp hd with rfl | hd
    · -- the delimiter is the next token, which is known to be of its kind
      obtain ⟨hk, hnext⟩ := Bool.and_eq_true_iff.mp hpermits
      obtain ⟨hready, hkind⟩ := hσ.next k (of_decide_eq_true hnext)
      rw [State.skip_of_ready hready] at hskip ⊢
      rcases State.here_cases hskip with ⟨hu, -⟩ | ⟨t, rest, hu, ht, hhere⟩
      · rw [State.nextKind, hu] at hkind
        exact absurd hkind.symm (bne_iff_ne.mp hk)
      · refine ⟨t, ht, ?_⟩
        rw [hhere, ← hkind, State.nextKind, hu]
    · exact hf.skip.delimiters d hd
  | popDelimiter =>
    cases h
    exact ⟨hf.reports, fun d hd => hf.delimiters d (List.mem_of_mem_drop hd), hlast⟩
  | peek =>
    obtain ⟨-, rfl⟩ := State.of_perform_peek h
    exact hf.skip.of_eq rfl rfl rfl
  | peekRaw | closeNode | wrap k | unmark =>
    simp only [Action.perform, look] at h
    split at h <;> cases h
    exact hf.of_eq rfl rfl rfl
  | advance =>
    obtain ⟨token, rest, hu, rfl⟩ := State.of_perform_advance h
    exact ⟨hf.reports, hf.delimiters, hlast⟩
  | touches =>
    cases h
    exact hf.skip
  | settle =>
    cases h
    exact hf.skip.drain
  | openNode k | mark =>
    cases h
    exact hf.drain.of_eq rfl rfl rfl
  | ahead q | atEnd | stopped | leave | setSeparating b =>
    cases h
    exact hf.of_eq rfl rfl rfl

/-- Every run reports only what is founded. -/
theorem heeded_founded (hps : ∀ p ∈ ps, p.2 ≠ []) :
    Heeded ps fun s₀ σ s => Tracks s₀ σ s ∧ (s₀.Founded ps → s.Founded ps) where
  start hs := ⟨(heeded_tracks hps).start hs, id⟩
  step h hpermits hs hσ hR :=
    ⟨(heeded_tracks hps).step h hpermits hs hσ hR.1, founded_perform hps h hpermits hs hσ hR.1.begun ∘ hR.2⟩
  leave h hfuel hs hsteady hlanded hR hrule :=
    ⟨(heeded_tracks hps).leave h hfuel hs hsteady hlanded hR.1 hrule.1, hrule.2 ∘ hR.2⟩

/-- Where a parse ends that was given enough fuel, all reports are founded. -/
theorem founded_program (hps : ∀ p ∈ ps, p.2 ≠ []) {n limit : Nat} {fuel : Option Nat} {t : State} {a : Unit}
    (hrun : program.run (runRule n) (.start (Token.place 0 none ps) limit fuel) = .ok (a, t)) (hfuel : t.exhausted = false) :
    t.Founded ps := by
  obtain ⟨-, -, hfounded⟩ := (heeded_founded hps).program hrun hfuel
  refine hfounded ⟨fun d hd => absurd hd List.not_mem_nil, fun d hd => absurd hd List.not_mem_nil, fun e he => ?_⟩
  cases he

end Parser

end Remap
