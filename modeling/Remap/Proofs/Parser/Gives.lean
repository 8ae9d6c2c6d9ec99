import Remap.Proofs.Breakdown

/-!
# Outcomes

How a run ends does not depend on the bound on nested rules, once the bound is high enough. `Gives x s r` says that a run of
the routine `x` from the state `s` ends with the outcome `r` within some bound: it returns, or it breaks down for another
reason than the bound. There is at most one such outcome, and those of a routine follow from those of its parts.
-/

namespace Remap.Parser

variable {α β : Type}

/-- A run that does not fail for want of steps ends the same way when the rules it enters do. -/
theorem Routine.run_congr {e₁ e₂ : {γ : Type} → Rule γ → Step γ}
    (henter : ∀ {γ : Type} (rule : Rule γ) (s : State), e₁ rule s ≠ .error .outOfSteps → e₂ rule s = e₁ rule s)
    {x : Routine α} {s : State} (h : x.run e₁ s ≠ .error .outOfSteps) : x.run e₂ s = x.run e₁ s := by
  induction x generalizing s with
  | done a => rfl
  | fail f => rfl
  | act action next ih =>
    simp only [run] at h ⊢
    cases hp : action.perform s with
    | error f => rfl
    | ok r =>
      rw [hp] at h
      exact ih r.1 h
  | call rule next ih =>
    have hrule : e₁ rule s ≠ .error .outOfSteps := by
      intro hr
      simp only [run, hr] at h
      exact h rfl
    simp only [run, henter rule s hrule] at h ⊢
    cases hr : e₁ rule s with
    | error f => rfl
    | ok r =>
      rw [hr] at h
      exact ih r.1 h
  | jump rule => exact henter rule s h

/-- A rule that does not fail for want of steps ends the same way within a higher bound. -/
theorem runRule_congr {m n : Nat} (hmn : m ≤ n) (r : Rule α) (s : State) (h : runRule m r s ≠ .error .outOfSteps) :
    runRule n r s = runRule m r s := by
  induction m generalizing n α s with
  | zero => exact absurd rfl h
  | succ m ih =>
    obtain ⟨n, rfl⟩ : ∃ k, n = k + 1 := ⟨n - 1, by omega⟩
    exact Routine.run_congr (fun rule s => ih (by omega) rule s) h

/-- Within some bound on nested rules, a run of a routine from a state ends with an outcome. -/
def Gives (x : Routine α) (s : State) (r : Except Fault (α × State)) : Prop :=
  r ≠ .error .outOfSteps ∧ ∃ n, x.run (runRule n) s = r

namespace Gives

variable {x : Routine α} {f : α → Routine β} {s t : State} {a : α}

theorem of_run {n : Nat} (h : x.run (runRule n) s = .ok (a, t)) : Gives x s (.ok (a, t)) := ⟨nofun, n, h⟩

theorem of_stuck {n : Nat} (h : x.run (runRule n) s = .error .stuck) : Gives x s (.error .stuck) :=
  ⟨fun hsteps => absurd (Except.error.inj hsteps) (by decide), n, h⟩

/-- The outcome within a higher bound is the same. -/
theorem exists_bound {r : Except Fault (α × State)} (h : Gives x s r) : ∃ m, ∀ n, m ≤ n → x.run (runRule n) s = r := by
  obtain ⟨hr, m, hrun⟩ := h
  refine ⟨m, fun n hmn => ?_⟩
  subst hrun
  exact Routine.run_congr (fun rule s => runRule_congr hmn rule s) hr

/-- A run has no two outcomes. -/
theorem eq {r r' : Except Fault (α × State)} (h : Gives x s r) (h' : Gives x s r') : r = r' := by
  obtain ⟨m, hm⟩ := h.exists_bound
  obtain ⟨m', hm'⟩ := h'.exists_bound
  exact (hm (max m m') (Nat.le_max_left _ _)).symm.trans (hm' _ (Nat.le_max_right _ _))

/-- After a routine that returns comes the next one. -/
theorem bind {r : Except Fault (β × State)} (hx : Gives x s (.ok (a, t))) (hf : Gives (f a) t r) : Gives (x >>= f) s r := by
  obtain ⟨m, hm⟩ := hx.exists_bound
  obtain ⟨m', hm'⟩ := hf.exists_bound
  refine ⟨hf.1, max m m', ?_⟩
  rw [Routine.bind_eq, Routine.run_bind, hm _ (Nat.le_max_left _ _)]
  exact hm' _ (Nat.le_max_right _ _)

/-- After a routine that breaks down nothing comes. -/
theorem bind_error {e : Fault} (hx : Gives x s (.error e)) : Gives (x >>= f) s (.error e) := by
  obtain ⟨hne, n, hn⟩ := hx
  refine ⟨fun h => hne (congrArg Except.error (Except.error.inj h)), n, ?_⟩
  rw [Routine.bind_eq, Routine.run_bind, hn]

/-- The outcome of a routine after another comes from one of the two. -/
theorem of_bind {r : Except Fault (β × State)} (h : Gives (x >>= f) s r) :
    (∃ a t, Gives x s (.ok (a, t)) ∧ Gives (f a) t r) ∨ ∃ e, Gives x s (.error e) ∧ r = .error e := by
  obtain ⟨hr, n, hn⟩ := h
  rw [Routine.bind_eq, Routine.run_bind] at hn
  cases hx : x.run (runRule n) s with
  | ok y =>
    rw [hx] at hn
    exact .inl ⟨y.1, y.2, of_run hx, hr, n, hn⟩
  | error e =>
    rw [hx] at hn
    refine .inr ⟨e, ⟨fun he => hr (hn.symm.trans (congrArg Except.error (Except.error.inj he))), n, hx⟩, hn.symm⟩

theorem single {action : Action α} (h : action.perform s = .ok (a, t)) : Gives (act action) s (.ok (a, t)) :=
  of_run (n := 0) ((Routine.run_single _ _).trans h)

/-- An action, and what comes after it. -/
theorem act {action : Action α} {r : Except Fault (β × State)} (h : action.perform s = .ok (a, t)) (hf : Gives (f a) t r) :
    Gives (Parser.act action >>= f) s r :=
  (single h).bind hf

/-- An action that breaks down. -/
theorem act_error {action : Action α} {e : Fault} (he : e ≠ .outOfSteps) (h : action.perform s = .error e) :
    Gives (Parser.act action >>= f) s (.error e) := by
  refine ⟨fun hsteps => he (Except.error.inj hsteps), 0, ?_⟩
  rw [Routine.bind_eq, Routine.run_bind, Routine.run_single, h]

/-- A rule does what its body does. -/
theorem rule_iff {r : Rule α} {o : Except Fault (α × State)} : Gives (Parser.rule r) s o ↔ Gives (grammar r) s o := by
  constructor
  · rintro ⟨ho, n, hn⟩
    cases n with
    | zero => exact absurd hn.symm ho
    | succ n => exact ⟨ho, n, hn⟩
  · rintro ⟨ho, n, hn⟩
    exact ⟨ho, n + 1, hn⟩

end Gives

/-- The bound that tokens are parsed within is high enough: whatever outcome a program has, it is found within it. -/
theorem run_of_gives {tokens : List Token} {limit : Nat} {fuel : Option Nat} {r : Except Fault (Unit × State)}
    (h : Gives program (.start tokens limit fuel) r) :
    program.run (runRule (stepsFor tokens.length)) (.start tokens limit fuel) = r := by
  refine Gives.eq ⟨fun hrun => ?_, _, rfl⟩ h
  have hparse : parseTokens tokens limit fuel = .error .outOfSteps := by simp only [parseTokens, hrun]
  rcases parseTokens_cases tokens limit fuel with ⟨_, hok, -⟩ | ⟨herror, -⟩
  · cases hparse.symm.trans hok
  · cases hparse.symm.trans herror

/-- No program is found to be stuck. -/
theorem not_gives_stuck (tokens : List Token) (limit : Nat) (fuel : Option Nat) :
    ¬ Gives program (.start tokens limit fuel) (.error .stuck) := by
  intro h
  have hparse : parseTokens tokens limit fuel = .error .stuck := by simp only [parseTokens, run_of_gives h]
  rcases parseTokens_cases tokens limit fuel with ⟨_, hok, -⟩ | ⟨herror, -⟩
  · cases hparse.symm.trans hok
  · cases hparse.symm.trans herror

end Remap.Parser
