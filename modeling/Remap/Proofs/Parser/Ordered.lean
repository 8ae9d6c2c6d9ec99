import Remap.Proofs.Parser.Effects
import Remap.Proofs.Parser.Run
import Remap.Token.Scan

/-!
# Spans run forward

Every span that scanning or parsing makes begins no later than it ends: in diagnostics, in the remarks they make about other
places, and for the delimiters that wait for their mate.
-/

namespace Remap

/-- A span begins no later than it ends. -/
def Span.Ordered (s : Span) : Prop := s.start ≤ s.stop

/-- All spans of a diagnostic run forward. -/
def Diagnostic.Ordered (d : Diagnostic) : Prop := d.span.Ordered ∧ ∀ r ∈ d.related, r.span.Ordered

theorem Span.ordered_ofSize (start size : Nat) : (Span.ofSize start size).Ordered := Nat.le_add_right start size

theorem Span.ordered_empty (offset : Nat) : (Span.empty offset).Ordered := Nat.le_refl offset

theorem Diagnostic.ordered_plain {p : Problem} {s : Span} {d : Option Detail} (h : s.Ordered) :
    ({ problem := p, span := s, detail := d } : Diagnostic).Ordered :=
  ⟨h, fun _ hr => absurd hr List.not_mem_nil⟩

theorem Token.ordered_span (t : Token) : t.span.Ordered := Nat.le_add_right t.start _

/-- The kind of which a detail says that it was found. -/
def Detail.found? : Detail → Option Kind
  | .found k | .expectedFound _ k => some k
  | _ => none

/-- What the scanner reports: a lexical problem at a stretch of the source, without remarks about other places or about what was found
instead of something. -/
structure Diagnostic.Lexical (d : Diagnostic) : Prop where
  problem : d.problem.isLexical = true
  span : ∃ offset size, d.span = .ofSize offset size
  related : d.related = []
  found : d.detail.bind Detail.found? = none

theorem Diagnostic.lexical_ofSize {p : Problem} {offset size : Nat} {d : Option Detail} (h : p.isLexical = true)
    (hd : d.bind Detail.found? = none) : ({ problem := p, span := .ofSize offset size, detail := d } : Diagnostic).Lexical :=
  ⟨h, ⟨offset, size, rfl⟩, rfl, hd⟩

theorem Diagnostic.Lexical.ordered {d : Diagnostic} (h : d.Lexical) : d.Ordered := by
  obtain ⟨offset, size, hspan⟩ := h.span
  refine ⟨hspan ▸ Span.ordered_ofSize offset size, fun r hr => ?_⟩
  rw [h.related] at hr
  cases hr

namespace Lexeme

theorem lexical_fragmentProblems (offset : Nat) (fs : List Fragment) : ∀ d ∈ fragmentProblems offset fs, d.Lexical := by
  induction fs generalizing offset with
  | nil => exact fun d hd => absurd hd List.not_mem_nil
  | cons f fs ih =>
    intro d hd
    cases f with
    | plain c => exact ih _ d hd
    | template lead name trail => exact ih _ d hd
    | openBraces =>
      rcases List.mem_cons.mp hd with rfl | hd
      · exact Diagnostic.lexical_ofSize rfl rfl
      · exact ih _ d hd
    | escape c =>
      cases c with
      | none => exact ih _ d hd
      | some c =>
        rcases List.mem_append.mp hd with hd | hd
        · cases hc : Literal.isEscape c with
          | true =>
            simp only [hc, if_true] at hd
            cases hd
          | false =>
            simp only [hc, Bool.false_eq_true, if_false] at hd
            rw [List.mem_singleton.mp hd]
            exact Diagnostic.lexical_ofSize rfl rfl
        · exact ih _ d hd

theorem lexical_timestampProblems (offset : Nat) (t : Text) : ∀ d ∈ timestampProblems offset t, d.Lexical := by
  fun_induction timestampProblems offset t with
  | case1 => simp
  | case2 offset c rest size here ih =>
    intro d hd
    rcases List.mem_append.mp hd with hd | hd
    · simp only [here] at hd
      split at hd
      · cases hd
      · rw [List.mem_singleton.mp hd]
        exact Diagnostic.lexical_ofSize rfl rfl
    · exact ih d hd
  | case3 offset c rest h ih => exact ih

theorem lexical_problems (checkPatterns : Bool) (offset : Nat) (previous : Option Kind) (l : Lexeme) :
    ∀ d ∈ l.problems checkPatterns offset previous, d.Lexical := by
  have hone {x : Problem} {y : Option Detail} (hx : x.isLexical = true) (hy : y.bind Detail.found? = none) :
      ∀ d ∈ [({ problem := x, span := .ofSize offset l.text.bytes, detail := y } : Diagnostic)], d.Lexical := by
    intro d hd
    rw [List.mem_singleton.mp hd]
    exact Diagnostic.lexical_ofSize hx hy
  unfold problems
  split
  · exact hone rfl rfl
  · exact lexical_fragmentProblems _ _
  · intro d hd
    rcases List.mem_cons.mp hd with rfl | hd
    · exact Diagnostic.lexical_ofSize rfl rfl
    · exact lexical_fragmentProblems _ _ d hd
  · exact hone rfl rfl
  · exact hone rfl rfl
  · exact hone rfl rfl
  · exact lexical_timestampProblems _ _
  · exact hone rfl rfl
  · split
    · simp
    · exact hone rfl rfl
  · split
    · split
      · simp
      · exact hone rfl rfl
    · simp
  · simp

/-- Everything that scanning reports is lexical. -/
theorem lexical_problemsOf (checkPatterns : Bool) (offset : Nat) (previous : Option Kind) (ls : List Lexeme) :
    ∀ d ∈ problemsOf checkPatterns offset previous ls, d.Lexical := by
  induction ls generalizing offset previous with
  | nil => simp [problemsOf]
  | cons l ls ih =>
    intro d hd
    rcases List.mem_append.mp hd with hd | hd
    · exact lexical_problems _ _ _ l d hd
    · exact ih _ _ d hd

end Lexeme

namespace Parser

/-- The spans that a state holds run forward. -/
structure State.Ordered (s : State) : Prop where
  reports : ∀ d ∈ s.reports, d.Ordered
  delimiters : ∀ d ∈ s.delimiters, d.span.Ordered

namespace State

theorem ordered_here (s : State) : s.here.Ordered := by
  unfold here
  split
  · exact Span.ordered_empty _
  · exact Token.ordered_span _

theorem Ordered.skip {s : State} (h : s.Ordered) : s.skip.Ordered := by
  rw [skip_eq]
  exact ⟨h.reports, h.delimiters⟩

theorem Ordered.drain {s : State} (h : s.Ordered) : s.drain.Ordered := by
  rw [drain_eq]
  exact ⟨h.reports, h.delimiters⟩

theorem Ordered.report {s : State} {d : Diagnostic} (h : s.Ordered) (hd : d.Ordered) : (s.report d).Ordered := by
  rw [report_eq]
  refine ⟨fun x hx => ?_, h.delimiters⟩
  simp only at hx
  split at hx
  · exact h.reports x hx
  · rcases List.mem_cons.mp hx with rfl | hx
    · exact hd
    · exact h.reports x hx

theorem Ordered.foldl_report {s : State} {ds : List Diagnostic} (h : s.Ordered) (hds : ∀ d ∈ ds, d.Ordered) :
    (ds.foldl State.report s).Ordered := by
  induction ds generalizing s with
  | nil => exact h
  | cons d ds ih =>
    exact ih (h.report (hds d (List.mem_cons_self ..))) fun x hx => hds x (List.mem_cons_of_mem _ hx)

end State

theorem ordered_parametersOf (offset : Nat) (ts : List Tree) : ∀ x ∈ parametersOf offset ts, x.2.Ordered := by
  fun_induction parametersOf offset ts with
  | case1 => simp
  | case2 offset t rest ih =>
    intro x hx
    rcases List.mem_cons.mp hx with rfl | hx
    · exact Span.ordered_ofSize _ _
    · exact ih x hx
  | case3 offset k t rest hk ih => exact ih
  | case4 offset t rest h ih => exact ih

/-- The spans of a repeated parameter and of the first one of its name are spans of parameters. -/
theorem mem_repeatedParameters {seen ps : List (Text × Span)} {x : Text × Span × Span} (hx : x ∈ repeatedParameters seen ps) :
    (x.1, x.2.1) ∈ ps ∧ (x.1, x.2.2) ∈ seen ++ ps := by
  induction ps generalizing seen with
  | nil => cases hx
  | cons p ps ih =>
    obtain ⟨name, span⟩ := p
    simp only [repeatedParameters] at hx
    split at hx
    · rename_i first hfirst
      rcases List.mem_cons.mp hx with rfl | hx
      · refine ⟨List.mem_cons_self .., List.mem_append_left _ ?_⟩
        obtain ⟨before, after, hseen, _⟩ := List.lookup_eq_some_iff.mp hfirst
        rw [hseen]
        exact List.mem_append_right _ (List.mem_cons_self ..)
      · obtain ⟨h, h'⟩ := ih hx
        refine ⟨List.mem_cons_of_mem _ h, ?_⟩
        rcases List.mem_append.mp h' with h' | h'
        · exact List.mem_append_left _ h'
        · exact List.mem_append_right _ (List.mem_cons_of_mem _ h')
    · obtain ⟨h, h'⟩ := ih hx
      refine ⟨List.mem_cons_of_mem _ h, ?_⟩
      simpa using h'

theorem State.ordered_parameterProblems (s : State) : ∀ d ∈ s.parameterProblems, d.Ordered := by
  intro d hd
  unfold parameterProblems at hd
  split at hd
  · obtain ⟨x, hx, rfl⟩ := List.mem_map.mp hd
    obtain ⟨hspan, hfirst⟩ := mem_repeatedParameters hx
    refine ⟨ordered_parametersOf _ _ _ hspan, fun r hr => ?_⟩
    rw [List.mem_singleton.mp hr]
    exact ordered_parametersOf _ _ _ (by simpa using hfirst)
  · cases hd

/-- Every action makes spans that run forward. -/
theorem ordered_perform {α : Type} {action : Action α} {s t : State} {a : α} (hs : s.Ordered)
    (h : action.perform s = .ok (a, t)) : t.Ordered := by
  cases action with
  | peek =>
    simp only [Action.perform, look] at h
    split at h <;> cases h
    exact ⟨hs.skip.reports, hs.skip.delimiters⟩
  | peekRaw =>
    simp only [Action.perform, look] at h
    split at h <;> cases h
    exact ⟨hs.reports, hs.delimiters⟩
  | advance =>
    obtain ⟨token, rest, hu, rfl⟩ := State.of_perform_advance h
    exact ⟨hs.reports, hs.delimiters⟩
  | settle =>
    cases h
    exact hs.skip.drain
  | openNode k | mark =>
    cases h
    exact ⟨hs.drain.reports, hs.drain.delimiters⟩
  | closeNode =>
    simp only [Action.perform] at h
    split at h <;> cases h
    exact ⟨hs.reports, hs.delimiters⟩
  | wrap k =>
    simp only [Action.perform] at h
    split at h <;> cases h
    exact ⟨hs.reports, hs.delimiters⟩
  | unmark =>
    simp only [Action.perform] at h
    split at h <;> cases h
    exact ⟨hs.reports, hs.delimiters⟩
  | report p d =>
    cases h
    exact hs.skip.report (Diagnostic.ordered_plain (State.ordered_here _))
  | reportUnclosed closer =>
    simp only [Action.perform] at h
    split at h
    · cases h
      exact hs.skip
    · rename_i d ds hd
      cases h
      refine hs.skip.report ⟨State.ordered_here _, fun r hr => ?_⟩
      rw [List.mem_singleton.mp hr]
      exact hs.skip.delimiters d (hd ▸ List.mem_cons_self ..)
  | reportTarget flaw =>
    cases h
    exact hs.report (Diagnostic.ordered_plain (Nat.le_max_right _ _))
  | checkParameters =>
    cases h
    rw [State.reportParameters_eq]
    exact hs.foldl_report s.ordered_parameterProblems
  | enter =>
    simp only [Action.perform] at h
    split at h
    · cases h
      exact hs
    · split at h <;> cases h
      · exact ⟨hs.reports, hs.delimiters⟩
      · refine ⟨fun d hd => ?_, hs.skip.delimiters⟩
        rcases List.mem_cons.mp hd with rfl | hd
        · exact Diagnostic.ordered_plain (State.ordered_here _)
        · exact hs.skip.reports d hd
  | pushDelimiter k =>
    cases h
    refine ⟨hs.skip.reports, fun d hd => ?_⟩
    rcases List.mem_cons.mp hd with rfl | hd
    · exact State.ordered_here _
    · exact hs.skip.delimiters d hd
  | popDelimiter =>
    cases h
    exact ⟨hs.reports, fun d hd => hs.delimiters d (List.mem_of_mem_drop hd)⟩
  | touches =>
    cases h
    exact hs.skip
  | ahead q | atEnd | stopped =>
    cases h
    exact hs
  | leave | setSeparating b =>
    cases h
    exact ⟨hs.reports, hs.delimiters⟩

/-- Every run makes spans that run forward. -/
theorem respected_ordered : Respected fun s t => s.Ordered → t.Ordered where
  refl _ := id
  trans h h' := h' ∘ h
  perform h hs := ordered_perform hs h

end Parser

end Remap
