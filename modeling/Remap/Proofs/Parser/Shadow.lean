import Remap.Proofs.Parser.Visit

/-!
# Two runs side by side

Two runs of one routine may start from states that differ in a setting: the fuel, or the greatest depth. As long as the
setting makes no difference they take the same steps, and the second run is a shadow of the first. Once it does make one
they part, and what the two states have in common then has to outlast whatever each of them does on its own.

`Shadowed R Cut` says this of single actions: from states related by `R` they end in states related by `R`, with the same
reply, or else in states related by `Cut`. The results here carry it to whole runs and to the rules that a run comes by.
-/

namespace Remap.Parser

variable {α β : Type}

/-! ## Settings -/

namespace State

/-- The state under another greatest depth and with other fuel. -/
def under (s : State) (limit : Nat) (fuel : Option Nat) : State := { s with limit := limit, fuel := fuel }

variable (s : State) (l : Nat) (f : Option Nat)

@[simp] theorem unread_under : (s.under l f).unread = s.unread := rfl

@[simp] theorem here_under : (s.under l f).here = s.here := rfl

@[simp] theorem delimiters_under : (s.under l f).delimiters = s.delimiters := rfl

@[simp] theorem overflowed_under : (s.under l f).overflowed = s.overflowed := rfl

@[simp] theorem depth_under : (s.under l f).depth = s.depth := rfl

@[simp] theorem limit_under : (s.under l f).limit = l := rfl

@[simp] theorem deeper_under : (s.under l f).deeper = s.deeper.under l f := rfl

@[simp] theorem targetSpan_under : (s.under l f).targetSpan = s.targetSpan := rfl

@[simp] theorem targetText_under : (s.under l f).targetText = s.targetText := rfl

@[simp] theorem skip_under : (s.under l f).skip = s.skip.under l f := by
  rw [skip_eq, skip_eq]
  rfl

@[simp] theorem drain_under : (s.under l f).drain = s.drain.under l f := by
  rw [drain_eq, drain_eq]
  rfl

@[simp] theorem report_under (d : Diagnostic) : (s.under l f).report d = (s.report d).under l f := by
  rw [report_eq, report_eq]
  rfl

theorem foldl_report_under (ds : List Diagnostic) : ds.foldl report (s.under l f) = (ds.foldl report s).under l f := by
  induction ds generalizing s with
  | nil => rfl
  | cons d ds ih => rw [List.foldl_cons, List.foldl_cons, report_under, ih]

@[simp] theorem reportParameters_under : (s.under l f).reportParameters = s.reportParameters.under l f := by
  rw [reportParameters_eq, reportParameters_eq]
  exact foldl_report_under s l f _

end State

/-- Whether what an action does depends on the settings: it consumes a token, or it nests one level deeper. -/
def Action.isSet : {α : Type} → Action α → Bool
  | _, .advance | _, .enter => true
  | _, _ => false

/-- Any other action does the same under all settings, and leaves them alone. -/
theorem perform_under {action : Action α} (h : action.isSet = false) (s : State) (l : Nat) (f : Option Nat) :
    action.perform (s.under l f) = (action.perform s).map fun r => (r.1, r.2.under l f) := by
  cases action with
  | advance | enter => cases h
  | peek | peekRaw =>
    simp only [Action.perform, State.skip_under]
    unfold look
    split <;> simp_all [State.under, Except.map, State.nextKind]
  | closeNode | wrap k | unmark =>
    simp only [Action.perform, State.under]
    split <;> simp_all [Except.map]
  | touches | ahead q | atEnd | stopped | leave | popDelimiter | setSeparating b =>
    simp only [Action.perform, State.skip_under, Except.map]
    rfl
  | settle =>
    simp only [Action.perform, State.skip_under, State.drain_under]
    rfl
  | openNode k | mark =>
    simp only [Action.perform, State.drain_under]
    rfl
  | report p d => simp [Action.perform, Except.map]
  | reportUnclosed closer =>
    simp only [Action.perform, State.skip_under, State.delimiters_under]
    split <;> simp [Except.map]
  | reportTarget flaw => simp [Action.perform, Except.map]
  | checkParameters => simp [Action.perform, Except.map]
  | pushDelimiter k =>
    simp only [Action.perform, State.skip_under]
    rfl

/-- Nesting one level deeper does the same with any fuel. -/
theorem perform_enter_under (s : State) (f : Option Nat) :
    Action.enter.perform (s.under s.limit f) = (Action.enter.perform s).map fun r => (r.1, r.2.under s.limit f) := by
  have hoverrun : (s.under s.limit f).overrun = s.overrun.under s.limit f := by
    simp only [State.overrun, State.skip_under]
    rw [State.skip_eq]
    rfl
  simp only [State.perform_enter, State.overflowed_under, State.depth_under, State.limit_under, State.deeper_under, hoverrun]
  split
  · rfl
  · split <;> rfl

/-- An action that does the same under the settings as they are leaves them alone. -/
theorem settings_of_under {action : Action α} {s t : State} {a : α}
    (hunder : action.perform (s.under s.limit s.fuel) = (action.perform s).map fun r => (r.1, r.2.under s.limit s.fuel))
    (h : action.perform s = .ok (a, t)) : t.limit = s.limit ∧ t.fuel = s.fuel := by
  rw [show s.under s.limit s.fuel = s from rfl, h] at hunder
  simp only [Except.map, Except.ok.injEq, Prod.mk.injEq, true_and] at hunder
  rw [hunder]
  exact ⟨rfl, rfl⟩

/-! ## Shadows -/

/-- Two states that an action leaves related by `R` or else by `Cut`, which no later action of either run can undo. -/
structure Shadowed (R Cut : State → State → Prop) : Prop where
  perform {α : Type} {action : Action α} {s s' t : State} {a : α} : R s s' → action.perform s = .ok (a, t) →
    ∃ a' t', action.perform s' = .ok (a', t') ∧ (a' = a ∧ R t t' ∨ Cut t t')
  left : Respected fun t u => ∀ t', Cut t t' → Cut u t'
  right : Respected fun t' u' => ∀ t, Cut t t' → Cut t u'

/-- The second of two runs returned the same as the first, or the two parted before the first returned in the state `t`. -/
def Shadows (R Cut : State → State → Prop) (a : α) (t : State) (other : Except Fault (α × State)) : Prop :=
  (∃ t', other = .ok (a, t') ∧ R t t') ∨ (∃ t', Cut t t') ∧ ∀ a' t', other = .ok (a', t') → Cut t t'

namespace Shadowed

variable {R Cut : State → State → Prop}

/-- A run is shadowed if the rules it enters are. -/
theorem run_of_runRule (h : Shadowed R Cut) {n : Nat}
    (hrule : ∀ {γ : Type} (r : Rule γ) {s s' t : State} {c : γ}, R s s' → runRule n r s = .ok (c, t) →
      Shadows R Cut c t (runRule n r s'))
    (x : Routine α) {s s' t : State} {a : α} (hR : R s s') (hx : x.run (runRule n) s = .ok (a, t)) :
    Shadows R Cut a t (x.run (runRule n) s') := by
  induction x generalizing s s' with
  | done b =>
    cases hx
    exact .inl ⟨s', rfl, hR⟩
  | fail f => cases hx
  | act action next ih =>
    obtain ⟨b, u, hp, hn⟩ := Routine.run_act_eq_ok.mp hx
    obtain ⟨b', u', hp', hu⟩ := h.perform hR hp
    rcases hu with ⟨rfl, hu⟩ | hcut
    · simp only [Routine.run, hp']
      exact ih _ hu hn
    · refine .inr ⟨⟨u', h.left.run hn u' hcut⟩, fun a' t' hx' => ?_⟩
      simp only [Routine.run, hp'] at hx'
      exact h.right.run hx' t (h.left.run hn u' hcut)
  | call r next ih =>
    obtain ⟨b, u, hr, hn⟩ := Routine.run_call_eq_ok.mp hx
    rcases hrule r hR hr with ⟨u', hr', hu⟩ | ⟨⟨v, hv⟩, hcut⟩
    · simp only [Routine.run, hr']
      exact ih _ hu hn
    · refine .inr ⟨⟨v, h.left.run hn v hv⟩, fun a' t' hx' => ?_⟩
      obtain ⟨b', u', hr', hn'⟩ := Routine.run_call_eq_ok.mp hx'
      exact h.right.run hn' t (h.left.run hn u' (hcut b' u' hr'))
  | jump r => exact hrule r hR hx

/-- Every rule is shadowed, by induction on the bound on nested rules. -/
theorem runRule (h : Shadowed R Cut) {n : Nat} (r : Rule α) {s s' t : State} {a : α} (hR : R s s')
    (hr : runRule n r s = .ok (a, t)) : Shadows R Cut a t (runRule n r s') := by
  induction n generalizing α s s' t with
  | zero => simp [Parser.runRule] at hr
  | succ n ih => exact h.run_of_runRule (fun r _ _ _ _ hR hr => ih r hR hr) (grammar r) hR hr

/-- Every run is shadowed. -/
theorem run (h : Shadowed R Cut) {n : Nat} (x : Routine α) {s s' t : State} {a : α} (hR : R s s')
    (hx : x.run (Parser.runRule n) s = .ok (a, t)) : Shadows R Cut a t (x.run (Parser.runRule n) s') :=
  h.run_of_runRule (fun r _ _ _ _ hR hr => h.runRule r hR hr) x hR hx

/-- A rule that a run comes by is visited by the other run as well, unless the two parted before. -/
theorem visits (h : Shadowed R Cut) {r : Rule β} {t : State} {x : Routine α} {s s' : State} (hv : Visits r t x s)
    (hR : R s s') : (∃ t', Visits r t' x s' ∧ R t t') ∨ ∃ t', Cut t t' := by
  induction hv generalizing s' with
  | act hp hv ih =>
    obtain ⟨_, u', hp', ⟨rfl, hu⟩ | hcut⟩ := h.perform hR hp
    · exact (ih hu).imp_left fun ⟨t', ht', hR'⟩ => ⟨t', .act hp' ht', hR'⟩
    · exact .inr ⟨u', h.left.visits hv u' hcut⟩
  | callHere => exact .inl ⟨s', .callHere, hR⟩
  | jumpHere => exact .inl ⟨s', .jumpHere, hR⟩
  | callInside _ ih => exact (ih hR).imp_left fun ⟨t', ht', hR'⟩ => ⟨t', .callInside ht', hR'⟩
  | jumpInside _ ih => exact (ih hR).imp_left fun ⟨t', ht', hR'⟩ => ⟨t', .jumpInside ht', hR'⟩
  | callAfter hr hv ih =>
    rcases h.runRule _ hR hr with ⟨u', hr', hu⟩ | ⟨⟨u', hcut⟩, _⟩
    · exact (ih hu).imp_left fun ⟨t', ht', hR'⟩ => ⟨t', .callAfter hr' ht', hR'⟩
    · exact .inr ⟨u', h.left.visits hv u' hcut⟩

end Shadowed

end Remap.Parser
