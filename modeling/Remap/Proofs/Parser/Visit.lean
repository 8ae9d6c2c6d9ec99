import Remap.Proofs.Parser.Logic

/-!
# Where a run comes by

`Visits r t x s` says that a run of the routine `x` from the state `s` enters the rule `r` in the state `t`: in `x` itself,
in a rule that it enters, or after one that returned. Tokens are only ever taken off the front of the unread ones, so what
is unread at a visit is a tail of what was unread before.
-/

namespace Remap.Parser

variable {α β γ : Type}

/-- A run of a routine from a state enters the rule `r` in the state `t`. -/
inductive Visits (r : Rule β) (t : State) : {α : Type} → Routine α → State → Prop where
  | act {α γ : Type} {action : Action γ} {next : γ → Routine α} {s s' : State} {c : γ} :
      action.perform s = .ok (c, s') → Visits r t (next c) s' → Visits r t (.act action next) s
  | callHere {α : Type} {next : β → Routine α} : Visits r t (.call r next) t
  | callInside {α γ : Type} {rule : Rule γ} {next : γ → Routine α} {s : State} :
      Visits r t (grammar rule) s → Visits r t (.call rule next) s
  | callAfter {α γ : Type} {rule : Rule γ} {next : γ → Routine α} {s s' : State} {c : γ} {n : Nat} :
      runRule n rule s = .ok (c, s') → Visits r t (next c) s' → Visits r t (.call rule next) s
  | jumpHere : Visits r t (.jump r) t
  | jumpInside {α : Type} {rule : Rule α} {s : State} : Visits r t (grammar rule) s → Visits r t (.jump rule) s

namespace Visits

variable {r : Rule β} {t : State}

/-- What a routine visits is visited when another one follows it. -/
theorem bind_left {x : Routine α} {f : α → Routine γ} {s : State} (h : Visits r t x s) : Visits r t (x.bind f) s := by
  induction h with
  | act hp _ ih => exact .act hp ih
  | callHere => exact .callHere
  | callInside h _ => exact .callInside h
  | callAfter hr _ ih => exact .callAfter hr ih
  | jumpHere => exact .callHere
  | jumpInside h _ => exact .callInside h

/-- What a routine visits is visited when it follows one that returned. -/
theorem bind_right {x : Routine α} {f : α → Routine γ} {s s' : State} {a : α} {n : Nat}
    (hx : x.run (runRule n) s = .ok (a, s')) (h : Visits r t (f a) s') : Visits r t (x.bind f) s := by
  induction x generalizing s with
  | done b =>
    cases hx
    exact h
  | fail f => cases hx
  | act action next ih =>
    obtain ⟨b, u, hp, hn⟩ := Routine.run_act_eq_ok.mp hx
    exact .act hp (ih b hn)
  | call rule next ih =>
    obtain ⟨b, u, hr, hn⟩ := Routine.run_call_eq_ok.mp hx
    exact .callAfter hr (ih b hn)
  | jump rule => exact .callAfter hx h

end Visits

/-- What every action keeps is kept up to any rule that a run comes by. -/
theorem Respected.visits {R : State → State → Prop} (h : Respected R) {r : Rule β} {t : State} {x : Routine α} {s : State}
    (hv : Visits r t x s) : R s t := by
  induction hv with
  | act hp _ ih => exact h.trans (h.perform hp) ih
  | callHere | jumpHere => exact h.refl _
  | callInside _ ih | jumpInside _ ih => exact ih
  | callAfter hr _ ih => exact h.trans (h.runRule hr) ih

/-! ## A visit that fails -/

/-- A routine that breaks down before it enters any rule breaks down however rules are run. -/
theorem Routine.run_eq_error {enter : {γ : Type} → Rule γ → Step γ} {x : Routine α} {s : State} {f : Fault}
    (hf : f ≠ .outOfSteps) (h : x.run (runRule 0) s = .error f) : x.run enter s = .error f := by
  induction x generalizing s with
  | done a => cases h
  | fail g => exact h
  | act action next ih =>
    simp only [run] at h ⊢
    split at h
    · rename_i b t hp
      exact ih b h
    · exact h
  | call rule next ih | jump rule => exact absurd (Except.error.inj h).symm hf

/-- A run that comes by a rule whose body breaks down at once does not return. -/
theorem Visits.run_ne_ok {r : Rule β} {t : State} {x : Routine α} {s : State} {f : Fault} (hv : Visits r t x s)
    (hf : f ≠ .outOfSteps) (hfail : runRule 1 r t = .error f) {n : Nat} {a : α} {u : State} :
    x.run (runRule n) s ≠ .ok (a, u) := by
  have hrule {n : Nat} {b : β} {v : State} : runRule n r t ≠ .ok (b, v) := by
    intro h
    cases n with
    | zero => cases h
    | succ n => exact absurd ((Routine.run_eq_error hf hfail).symm.trans h) nofun
  intro hx
  induction hv generalizing n u with
  | act hp _ ih =>
    obtain ⟨b, v, hp', hn⟩ := Routine.run_act_eq_ok.mp hx
    cases hp.symm.trans hp'
    exact ih hn
  | callHere =>
    obtain ⟨b, v, hr, _⟩ := Routine.run_call_eq_ok.mp hx
    exact hrule hr
  | jumpHere => exact hrule hx
  | callInside _ ih =>
    obtain ⟨b, v, hr, _⟩ := Routine.run_call_eq_ok.mp hx
    cases n with
    | zero => cases hr
    | succ n => exact ih hr
  | jumpInside _ ih =>
    cases n with
    | zero => cases hx
    | succ n => exact ih hx
  | callAfter hr _ ih =>
    obtain ⟨b, v, hr', hn⟩ := Routine.run_call_eq_ok.mp hx
    cases (runRule_mono (Nat.le_max_left _ _) hr).symm.trans (runRule_mono (Nat.le_max_right _ _) hr')
    exact ih hn

/-! ## Tokens are taken off the front -/

namespace State

theorem suffix_skip (s : State) : s.skip.unread <:+ s.unread := by
  rw [unread_skip]
  exact List.dropWhile_suffix _

end State

/-- An action takes tokens off the front of the unread ones, or leaves them alone. -/
theorem suffix_perform {action : Action α} {s t : State} {a : α} (h : action.perform s = .ok (a, t)) :
    t.unread <:+ s.unread := by
  cases action with
  | peek =>
    simp only [Action.perform, look] at h
    split at h
    · cases h
    · cases h
      exact s.suffix_skip
  | peekRaw =>
    simp only [Action.perform, look] at h
    split at h <;> cases h
    exact List.suffix_refl _
  | advance =>
    obtain ⟨token, rest, hs, rfl⟩ := State.of_perform_advance h
    exact hs ▸ List.suffix_cons token rest
  | closeNode =>
    simp only [Action.perform] at h
    split at h <;> cases h
    exact List.suffix_refl _
  | wrap k =>
    simp only [Action.perform] at h
    split at h <;> cases h
    exact List.suffix_refl _
  | unmark =>
    simp only [Action.perform] at h
    split at h <;> cases h
    exact List.suffix_refl _
  | reportUnclosed closer =>
    simp only [Action.perform] at h
    split at h <;> cases h
    · exact s.suffix_skip
    · rw [State.unread_report]
      exact s.suffix_skip
  | enter =>
    simp only [Action.perform] at h
    split at h
    · cases h
      exact List.suffix_refl _
    · split at h <;> cases h
      · exact List.suffix_refl _
      · exact s.suffix_skip
  | touches | pushDelimiter k =>
    cases h
    exact s.suffix_skip
  | report p d =>
    cases h
    rw [State.unread_report]
    exact s.suffix_skip
  | settle =>
    cases h
    rw [State.unread_drain]
    exact s.suffix_skip
  | openNode k | mark =>
    cases h
    rewrite [State.unread_drain]
    exact List.suffix_refl _
  | reportTarget flaw =>
    cases h
    rewrite [State.unread_report]
    exact List.suffix_refl _
  | checkParameters =>
    cases h
    rewrite [State.unread_reportParameters]
    exact List.suffix_refl _
  | ahead q | atEnd | stopped | leave | popDelimiter | setSeparating b =>
    cases h
    exact List.suffix_refl _

/-- Every run takes tokens off the front of the unread ones. -/
theorem respected_suffix : Respected fun s t => t.unread <:+ s.unread where
  refl s := List.suffix_refl s.unread
  trans h h' := h'.trans h
  perform h := suffix_perform h

/-- What is unread at a visit is a tail of what was unread at the start. -/
theorem Visits.suffix {r : Rule β} {t : State} {x : Routine α} {s : State} (h : Visits r t x s) : t.unread <:+ s.unread :=
  respected_suffix.visits h

end Remap.Parser
