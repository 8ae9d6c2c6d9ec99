import Remap.Proofs.Parser.Logic

/-!
# Silent runs

A run is silent if it ends without any report and with the fuel it was given. Reports are never taken back, so nothing was
reported on the way either; and as long as nothing was reported no report is left out, so a silent run never comes to a
report at all.

`Accepts n x s Q` is partial correctness for silent runs: if the routine `x` returns silently from the steady state `s`,
what it returns satisfies `Q`. Whatever comes after a report satisfies every `Q`.
-/

namespace Remap.Parser

variable {α β : Type}

namespace State

/-- Nothing was reported, and no token was consumed without fuel. -/
structure Silent (s : State) : Prop where
  reports : s.reports = []
  fuelled : s.exhausted = false

/-- What holds in every state of a parse: as long as nothing was reported, no report would be left out, and only blanks
are held back. -/
structure Steady (s : State) : Prop where
  calm : s.reports = [] → s.overflowed = false ∧ s.lastReport = none
  held : ∀ t ∈ s.held, t.kind.isTrivia = true ∨ t.kind = .newline

/-- No report was taken back and no fuel was found between the earlier state and the later one, which is steady if the
earlier one is. -/
structure Hushes (s t : State) : Prop where
  reports : t.reports = [] → s.reports = []
  fuelled : t.exhausted = false → s.exhausted = false
  steady : s.Steady → t.Steady

namespace Hushes

theorem refl (s : State) : Hushes s s := ⟨id, id, id⟩

theorem trans {s t u : State} (h : Hushes s t) (h' : Hushes t u) : Hushes s u :=
  ⟨fun hu => h.reports (h'.reports hu), fun hu => h.fuelled (h'.fuelled hu), fun hs => h'.steady (h.steady hs)⟩

/-- The later state is silent only if the earlier one is. -/
theorem silent {s t : State} (h : Hushes s t) (ht : t.Silent) : s.Silent := ⟨h.reports ht.reports, h.fuelled ht.fuelled⟩

/-- Nothing is hushed up by a change to none of the reports, the limit, what is held back and the want of fuel. -/
theorem of_eq {s t : State} (hreports : t.reports = s.reports) (hover : t.overflowed = s.overflowed)
    (hlast : t.lastReport = s.lastReport) (hheld : t.held = s.held ∨ t.held = [])
    (hfuelled : t.exhausted = false → s.exhausted = false) : Hushes s t := by
  refine ⟨fun h => hreports ▸ h, hfuelled, fun hs => ⟨?_, ?_⟩⟩
  · rw [hreports, hover, hlast]
    exact hs.calm
  · rcases hheld with hheld | hheld
    · rw [hheld]
      exact hs.held
    · rw [hheld]
      exact fun t ht => absurd ht List.not_mem_nil

end Hushes

theorem hushes_skip (s : State) : Hushes s s.skip := by
  rw [skip_eq]
  refine ⟨id, id, fun hs => ⟨hs.calm, fun t ht => ?_⟩⟩
  rcases List.mem_append.mp ht with ht | ht
  · exact hs.held t ht
  · have hskips : s.skips t = true := List.all_eq_true.mp List.all_takeWhile t ht
    simp only [skips, Bool.or_eq_true, Bool.and_eq_true, decide_eq_true_eq] at hskips
    exact hskips.imp id And.right

theorem hushes_drain (s : State) : Hushes s s.drain := by
  rw [drain_eq]
  exact .of_eq rfl rfl rfl (.inr rfl) id

theorem hushes_report (s : State) (d : Diagnostic) : Hushes s (s.report d) := by
  unfold report
  split
  · exact .refl s
  · exact ⟨fun h => absurd h (List.cons_ne_nil _ _), id, fun hs => ⟨fun h => absurd h (List.cons_ne_nil _ _), hs.held⟩⟩

theorem hushes_foldl_report (ds : List Diagnostic) (s : State) : Hushes s (ds.foldl report s) := by
  induction ds generalizing s with
  | nil => exact .refl s
  | cons d ds ih => exact (hushes_report s d).trans (ih _)

/-- Where nothing was reported, a report is made. -/
theorem Steady.reports_report {s : State} (hs : s.Steady) (d : Diagnostic) : (s.report d).reports ≠ [] := by
  unfold report
  split
  · rename_i hmuted
    intro hnil
    obtain ⟨hover, hlast⟩ := hs.calm hnil
    simp [hover, hlast] at hmuted
  · exact List.cons_ne_nil _ _

end State

open State (Hushes)

theorem hushes_perform {action : Action α} {s t : State} {a : α} (h : action.perform s = .ok (a, t)) : Hushes s t := by
  cases action with
  | peek =>
    simp only [Action.perform, look] at h
    split at h <;> cases h
    exact s.hushes_skip.trans (.of_eq rfl rfl rfl (.inl rfl) id)
  | peekRaw =>
    simp only [Action.perform, look] at h
    split at h <;> cases h
    exact .of_eq rfl rfl rfl (.inl rfl) id
  | touches =>
    cases h
    exact s.hushes_skip
  | advance =>
    obtain ⟨token, rest, hu, rfl⟩ := State.of_perform_advance h
    exact .of_eq rfl rfl rfl (.inr rfl) fun h => (Bool.or_eq_false_iff.mp h).1
  | settle =>
    cases h
    exact s.hushes_skip.trans s.skip.hushes_drain
  | openNode k | mark =>
    cases h
    exact s.hushes_drain.trans (.of_eq rfl rfl rfl (.inl rfl) id)
  | closeNode =>
    simp only [Action.perform] at h
    split at h <;> cases h
    exact .of_eq rfl rfl rfl (.inl rfl) id
  | wrap k =>
    simp only [Action.perform] at h
    split at h <;> cases h
    exact .of_eq rfl rfl rfl (.inl rfl) id
  | unmark =>
    simp only [Action.perform] at h
    split at h <;> cases h
    exact .of_eq rfl rfl rfl (.inl rfl) id
  | report p d =>
    cases h
    exact s.hushes_skip.trans (s.skip.hushes_report _)
  | reportUnclosed closer =>
    simp only [Action.perform] at h
    split at h <;> cases h
    · exact s.hushes_skip
    · exact s.hushes_skip.trans (s.skip.hushes_report _)
  | reportTarget flaw =>
    cases h
    exact s.hushes_report _
  | checkParameters =>
    cases h
    rw [State.reportParameters_eq]
    exact State.hushes_foldl_report _ s
  | enter =>
    simp only [Action.perform] at h
    split at h
    · cases h
      exact .refl s
    · split at h <;> cases h
      · exact .of_eq rfl rfl rfl (.inl rfl) id
      · exact ⟨fun h => absurd h (List.cons_ne_nil _ _), s.hushes_skip.fuelled,
          fun hs => ⟨fun h => absurd h (List.cons_ne_nil _ _), (s.hushes_skip.steady hs).held⟩⟩
  | pushDelimiter k =>
    cases h
    exact s.hushes_skip.trans (.of_eq rfl rfl rfl (.inl rfl) id)
  | ahead q | atEnd | stopped | leave | popDelimiter | setSeparating b =>
    cases h
    exact .of_eq rfl rfl rfl (.inl rfl) id

/-- No run takes a report back, or finds new fuel. -/
theorem respected_hushes : Respected Hushes where
  refl := .refl
  trans := .trans
  perform := hushes_perform

/-! ## Partial correctness -/

/-- What a routine returns silently from a steady state satisfies `Q`. -/
def Accepts (n : Nat) (x : Routine α) (s : State) (Q : α → State → Prop) : Prop :=
  s.Steady → ∀ a t, x.run (runRule n) s = .ok (a, t) → t.Silent → Q a t

namespace Accepts

variable {n : Nat} {s : State} {Q Q' : α → State → Prop}

theorem imp {x : Routine α} (h : Accepts n x s Q) (hQ : ∀ a t, Q a t → Q' a t) : Accepts n x s Q' :=
  fun hs a t hrun hsilent => hQ a t (h hs a t hrun hsilent)

/-- What is known of a run in two ways is known. -/
theorem and {x : Routine α} (h : Accepts n x s Q) (h' : Accepts n x s Q') : Accepts n x s fun a t => Q a t ∧ Q' a t :=
  fun hs a t hrun hsilent => ⟨h hs a t hrun hsilent, h' hs a t hrun hsilent⟩

theorem done {a : α} (h : Q a s) : Accepts n (pure a) s Q := by
  intro _ b t hrun _
  cases hrun
  exact h

/-- A routine that breaks down returns nothing. -/
theorem fail (f : Fault) : Accepts n (.fail f) s Q := by
  intro _ a t hrun _
  cases hrun

/-- One routine after another. -/
theorem bind {x : Routine β} {f : β → Routine α} (h : Accepts n x s fun b t => Accepts n (f b) t Q) :
    Accepts n (x >>= f) s Q := by
  intro hs a u hrun hsilent
  obtain ⟨b, t, hx, hf⟩ := Routine.run_bind_eq_ok.mp hrun
  have ht := respected_hushes.run hx
  have hu := respected_hushes.run hf
  exact h hs b t hx (hu.silent hsilent) (ht.steady hs) a u hf hsilent

/-- An action, and what comes after it. -/
theorem act {action : Action β} {f : β → Routine α}
    (h : s.Steady → ∀ b t, action.perform s = .ok (b, t) → t.Silent → Accepts n (f b) t Q) :
    Accepts n (.act action f) s Q := by
  intro hs a u hrun hsilent
  obtain ⟨b, t, hperform, hf⟩ := Routine.run_act_eq_ok.mp hrun
  have hu := respected_hushes.run hf
  exact h hs b t hperform (hu.silent hsilent) ((hushes_perform hperform).steady hs) a u hf hsilent

/-- A single action. -/
theorem single {action : Action α} (h : s.Steady → ∀ b t, action.perform s = .ok (b, t) → t.Silent → Q b t) :
    Accepts n (Parser.act action) s Q := by
  intro hs a t hrun hsilent
  rw [Routine.run_single] at hrun
  exact h hs a t hrun hsilent

/-- No silent run comes to a report. -/
theorem report (p : Problem) (d : Option Detail) (f : Unit → Routine α) : Accepts n (.act (.report p d) f) s Q := by
  refine act fun hs b t hperform hsilent => ?_
  cases hperform
  exact absurd hsilent.reports ((s.hushes_skip.steady hs).reports_report _)

/-- No silent run comes to a report about a target. -/
theorem reportTarget (flaw : TargetFlaw) (f : Unit → Routine α) : Accepts n (.act (.reportTarget flaw) f) s Q := by
  refine act fun hs b t hperform hsilent => ?_
  cases hperform
  exact absurd hsilent.reports (hs.reports_report _)

/-- No silent run comes to a report about an open delimiter. -/
theorem reportUnclosed (closer : Kind) (f : Unit → Routine α) (hopen : s.delimiters ≠ []) :
    Accepts n (.act (.reportUnclosed closer) f) s Q := by
  refine act fun hs b t hperform hsilent => ?_
  have hskip : s.skip.delimiters = s.delimiters := by rw [State.skip_eq]
  simp only [Action.perform] at hperform
  split at hperform
  · rename_i hnil
    exact absurd (hskip.symm.trans hnil) hopen
  · cases hperform
    exact absurd hsilent.reports ((s.hushes_skip.steady hs).reports_report _)

/-- Nothing comes after what never returns silently. -/
theorem never {x : Routine β} {f : β → Routine α} (h : Accepts n x s fun _ _ => False) : Accepts n (x >>= f) s Q :=
  .bind (h.imp fun _ _ hfalse => hfalse.elim)

/-- An action whose reply makes no difference. -/
theorem any (action : Action β) {f : β → Routine α} (h : ∀ b t, Accepts n (f b) t Q) :
    Accepts n (Parser.act action >>= f) s Q :=
  .act fun _ b t _ _ => h b t

/-- No silent run comes to a report about what was found. -/
theorem reportFound {Q : Unit → State → Prop} (p : Problem) (e : Option Expectation) :
    Accepts n (Parser.reportFound p e) s Q := by
  refine .any .peek fun k t => .any .atEnd fun b t => ?_
  split
  · exact .report _ _ _
  · cases e with
    | none => exact .report _ _ _
    | some e => exact .report _ _ _

theorem reportAndAdvance {Q : Unit → State → Prop} (p : Problem) (d : Detail) : Accepts n (Parser.reportAndAdvance p d) s Q :=
  .report _ _ _

/-- No silent run lacks an operand. -/
theorem missingOperand {Q : Unit → State → Prop} : Accepts n Parser.missingOperand s Q := by
  have hother (d : Detail) (t : State) : Accepts n (do
      if ← atEnd then Parser.report .expectedExpression none else Parser.reportAndAdvance .expectedExpression d) t Q := by
    refine .any .atEnd fun b t => ?_
    split
    · exact .report _ _ _
    · exact .reportAndAdvance _ _
  refine .any .peek fun k t => ?_
  split
  · exact hother _ _
  · exact hother _ _
  · split
    case h_8 => exact hother _ _
    all_goals exact .report _ _ _

end Accepts

end Remap.Parser
