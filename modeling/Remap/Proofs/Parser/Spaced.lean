import Remap.Proofs.Parser.Offsets

/-!
# Where diagnostics are reported

A report is left out if the last one was made at the same offset. Most reports are about the next token, and those move forward
through the source, so that no offset comes up a second time. Two kinds of report point back to something that was read before:
an assignment target that cannot be assigned to, and a closure parameter that repeats a name. After one of these an offset can
be reported a second time, and that is the only way in which it can happen.
-/

namespace Remap

/-- A diagnostic about something that was read before it was found wrong. -/
def Diagnostic.PointsBack (d : Diagnostic) : Prop :=
  d.problem = .invalidAssignmentTarget ∨ d.problem = .duplicateClosureParam

instance (d : Diagnostic) : Decidable d.PointsBack := inferInstanceAs (Decidable (_ ∨ _))

/-- Diagnostics, latest first, none at the offset of the one made just before it, and none before an earlier one unless it
points back. The limit is reported wherever it is hit. -/
inductive Spaced : List Diagnostic → Prop where
  | nil : Spaced []
  | cons {e : Diagnostic} {ds : List Diagnostic} (apart : e.AtLimit ∨ ∀ d, ds.head? = some d → d.span.start ≠ e.span.start)
      (forward : e.PointsBack ∨ ∀ d ∈ ds, d.span.start ≤ e.span.start) (rest : Spaced ds) : Spaced (e :: ds)

namespace Spaced

theorem of_append {es ds : List Diagnostic} (h : Spaced (es ++ ds)) : Spaced ds := by
  induction es with
  | nil => exact h
  | cons e es ih =>
    cases h with
    | cons _ _ rest => exact ih rest

/-- An offset comes up again only after a report that points back, or by one. -/
theorem exists_pointsBack {e d : Diagnostic} {between before : List Diagnostic} (h : Spaced (e :: between ++ d :: before))
    (hlimit : ¬ e.AtLimit) (hstart : d.span.start = e.span.start) : ∃ f ∈ e :: between, f.PointsBack := by
  obtain _ | ⟨apart, forward, rest⟩ := h
  rcases forward with hback | hforward
  · exact ⟨e, List.mem_cons_self, hback⟩
  replace apart := apart.resolve_left hlimit
  cases between with
  | nil => exact absurd hstart (apart d rfl)
  | cons g between =>
    obtain _ | ⟨-, forward, -⟩ := rest
    rcases forward with hback | hbefore
    · exact ⟨g, List.mem_cons_of_mem _ List.mem_cons_self, hback⟩
    -- the report just before `e` would lie between two equal offsets
    have hlow : d.span.start ≤ g.span.start := hbefore d (List.mem_append_right _ List.mem_cons_self)
    have hhigh : g.span.start ≤ e.span.start := hforward g List.mem_cons_self
    exact absurd (Nat.le_antisymm hhigh (hstart ▸ hlow)) (apart g rfl)

end Spaced

namespace Parser

variable {α : Type}

/-- The reports are spaced and none lies ahead, and the last one is remembered as long as reports are made at all. -/
structure State.Spaced (s : State) : Prop where
  reports : Remap.Spaced s.reports
  behind : ∀ d ∈ s.reports, d.span.start ≤ s.front
  last : s.overflowed = false → s.lastReport = s.reports.head?.map (·.span.start)

namespace State.Spaced

variable {s t : State}

/-- A state in which nothing more was said, and which is no less far on. -/
theorem of_said (h : s.Spaced) (hsaid : t.said = s.said) (hfront : s.front ≤ t.front) : t.Spaced := by
  simp only [State.said, Prod.mk.injEq] at hsaid
  obtain ⟨hreports, hlast, hover⟩ := hsaid
  refine ⟨hreports ▸ h.reports, fun d hd => Nat.le_trans (h.behind d (hreports ▸ hd)) hfront, fun hopen => ?_⟩
  rw [hlast, hreports]
  exact h.last (hover ▸ hopen)

theorem skip (h : s.Spaced) : s.skip.Spaced := h.of_said s.said_skip s.front_skip_le

/-- A report at the front, or one that points back, keeps reports spaced. -/
theorem report (h : s.Spaced) {d : Diagnostic} (hd : d.span.start = s.front ∨ d.PointsBack ∧ d.span.start ≤ s.front) :
    (s.report d).Spaced := by
  unfold State.report
  split
  · exact h
  · rename_i hnew
    simp only [Bool.or_eq_true, not_or, Bool.not_eq_true, decide_eq_true_eq] at hnew
    obtain ⟨hopen, hnew⟩ := hnew
    refine ⟨.cons (.inr fun e he heq => ?_) ?_ h.reports, fun e he => ?_, fun _ => rfl⟩
    · rw [h.last hopen, he, Option.map_some, heq] at hnew
      exact hnew rfl
    · exact hd.elim (fun hfront => .inr fun e he => hfront ▸ h.behind e he) (fun hback => .inl hback.1)
    · rcases List.mem_cons.mp he with rfl | he
      · exact hd.elim Nat.le_of_eq And.right
      · exact h.behind e he

/-- Reports that all point back keep reports spaced. -/
theorem foldl_report (h : s.Spaced) {ds : List Diagnostic} (hds : ∀ d ∈ ds, d.PointsBack ∧ d.span.start ≤ s.front) :
    (ds.foldl State.report s).Spaced := by
  induction ds generalizing s with
  | nil => exact h
  | cons d ds ih =>
    refine ih (h.report (.inr (hds d List.mem_cons_self))) fun e he => ?_
    rw [front_report]
    exact hds e (List.mem_cons_of_mem _ he)

/-- Where the limit is hit that is reported, wherever the last report was made. -/
theorem overrun (h : s.Spaced) (hhere : s.skip.here.start = s.skip.front) : s.overrun.Spaced := by
  refine ⟨.cons (.inl rfl) (.inr fun d hd => ?_) h.skip.reports, fun d hd => ?_, nofun⟩
  · exact Nat.le_trans (h.skip.behind d hd) (Nat.le_of_eq hhere.symm)
  · rcases List.mem_cons.mp hd with rfl | hd
    · exact Nat.le_of_eq hhere
    · exact h.skip.behind d hd

end State.Spaced

/-! ## Parameters are behind -/

theorem start_le_of_mem_parametersOf {offset : Nat} {cs : List Tree} {p : Text × Span} (h : p ∈ parametersOf offset cs) :
    p.2.start ≤ offset + Tree.bytesOf cs := by
  induction cs generalizing offset with
  | nil => cases h
  | cons c cs ih =>
    have hrest (hp : p ∈ parametersOf (offset + c.bytes) cs) : p.2.start ≤ offset + Tree.bytesOf (c :: cs) := by
      have := ih hp
      rw [Tree.bytesOf]
      omega
    cases c with
    | leaf k t =>
      simp only [parametersOf] at h
      split at h
      · rcases List.mem_cons.mp h with rfl | h
        · exact Nat.le_add_right _ _
        · exact hrest h
      · exact hrest h
    | node k ds => exact hrest h

theorem mem_of_mem_repeatedParameters {seen ps : List (Text × Span)} {name : Text} {span first : Span}
    (h : (name, span, first) ∈ repeatedParameters seen ps) : (name, span) ∈ ps := by
  induction ps generalizing seen with
  | nil => cases h
  | cons p ps ih =>
    simp only [repeatedParameters] at h
    split at h
    · rcases List.mem_cons.mp h with h | h
      · cases h
        exact List.mem_cons_self
      · exact List.mem_cons_of_mem _ (ih h)
    · exact List.mem_cons_of_mem _ (ih h)

/-- Repeated parameters were read before, so they are reported behind the front. -/
theorem pointsBack_parameterProblems {s : State} (h : s.Sized) :
    ∀ d ∈ s.parameterProblems, d.PointsBack ∧ d.span.start ≤ s.front := by
  intro d hd
  unfold State.parameterProblems at hd
  split at hd
  · rename_i cs rest hbuilt
    obtain ⟨⟨name, span, first⟩, hp, rfl⟩ := List.mem_map.mp hd
    have hstart := start_le_of_mem_parametersOf (mem_of_mem_repeatedParameters hp)
    have hfits : Tree.bytesOf cs ≤ s.placed := by
      rw [h, State.forest, treesOfFrames, hbuilt, List.reverse_cons, Tree.bytesOf_append, Tree.bytesOf_append]
      simp only [Tree.bytesOf, Tree.bytes]
      omega
    refine ⟨.inr rfl, Nat.le_trans hstart ?_⟩
    rw [Nat.sub_add_cancel hfits]
    exact Nat.le_add_right _ _
  · cases hd

/-! ## Every run keeps reports spaced -/

/-- A state that reads tokens of known places, with its frames anchored and its reports spaced. -/
structure State.Orderly (ps : List (Kind × Text)) (s : State) : Prop where
  reading : s.Reading (Token.place 0 none ps)
  anchored : s.Anchored
  spaced : s.Spaced

theorem spaced_perform {ps : List (Kind × Text)} {action : Action α} {s t : State} {a : α} (h : action.perform s = .ok (a, t))
    (hs : s.Orderly ps) : t.Spaced := by
  have hhere : s.skip.here.start = s.skip.front := State.start_here hs.reading.skip
  cases action with
  | report p d =>
    cases h
    exact hs.spaced.skip.report (.inl hhere)
  | reportUnclosed closer =>
    simp only [Action.perform] at h
    split at h <;> cases h
    · exact hs.spaced.skip
    · exact hs.spaced.skip.report (.inl hhere)
  | reportTarget flaw =>
    cases h
    exact hs.spaced.report (.inr ⟨.inl rfl, hs.anchored.start_le_front hs.reading.sized⟩)
  | checkParameters =>
    cases h
    rw [State.reportParameters_eq]
    exact hs.spaced.foldl_report (pointsBack_parameterProblems hs.reading.sized)
  | enter =>
    rw [State.perform_enter] at h
    split at h
    · cases h
      exact hs.spaced
    · split at h <;> cases h
      · exact hs.spaced.of_said rfl (Nat.le_refl _)
      · exact hs.spaced.overrun hhere
  | _ =>
    exact hs.spaced.of_said (said_perform rfl h)
      (State.front_le_of_suffix hs.reading ((respected_reading _).perform h hs.reading) (suffix_perform h))

/-- Every run keeps reports spaced. -/
theorem respected_orderly (ps : List (Kind × Text)) : Respected fun s t => s.Orderly ps → t.Orderly ps where
  refl _ := id
  trans h h' := h' ∘ h
  perform h hs := ⟨(respected_reading _).perform h hs.reading, anchored_perform h hs.reading.sized hs.anchored, spaced_perform h hs⟩

theorem orderly_start (ps : List (Kind × Text)) (limit : Nat) (fuel : Option Nat) :
    (State.start (Token.place 0 none ps) limit fuel).Orderly ps :=
  ⟨State.reading_start _ _ _, ⟨rfl, trivial⟩,
    ⟨.nil, fun _ hd => absurd hd List.not_mem_nil, fun _ => rfl⟩⟩

/-- What a parse of scanned tokens reports is spaced. -/
theorem spaced_parseTokens {ps : List (Kind × Text)} {limit : Nat} {fuel : Option Nat} {r : Result}
    (h : parseTokens (Token.place 0 none ps) limit fuel = .ok r) : Spaced r.diagnostics.reverse := by
  obtain ⟨s, hrun, hfinish⟩ := parseTokens_eq_ok.mp h
  rw [(State.holds_of_finish hfinish).reports, List.reverse_reverse]
  exact ((respected_orderly ps).run hrun (orderly_start ps limit fuel)).spaced.reports

end Parser

end Remap
