import Remap.Parser

/-!
# Runs

How a run of a routine is put together from the runs of its parts, and the one induction behind every invariant: a
relation between states that is reflexive and transitive, and that every action respects, holds between the first and
the last state of every run that returns.

The bound on nested rules plays no part in what a run returns: a higher bound gives the same result.
-/

namespace Remap.Parser

namespace Routine

variable {α β : Type} {enter : {γ : Type} → Rule γ → Step γ}

@[simp] theorem pure_eq (a : α) : (pure a : Routine α) = .done a := rfl

@[simp] theorem bind_eq (x : Routine α) (f : α → Routine β) : x >>= f = x.bind f := rfl

theorem bind_assoc {γ : Type} (x : Routine α) (f : α → Routine β) (g : β → Routine γ) :
    (x.bind f).bind g = x.bind fun a => (f a).bind g := by
  induction x with
  | done a => rfl
  | fail e => rfl
  | act action next ih => simp only [bind, ih]
  | call rule next ih => simp only [bind, ih]
  | jump rule => rfl

/-- One routine after another runs the first and then the second from where the first ended. -/
theorem run_bind (x : Routine α) (f : α → Routine β) (s : State) :
    (x.bind f).run enter s =
      match x.run enter s with
      | .ok (a, t) => (f a).run enter t
      | .error e => .error e := by
  induction x generalizing s with
  | done a => rfl
  | fail e => rfl
  | act action next ih =>
    simp only [bind, run]
    cases action.perform s with
    | error e => rfl
    | ok r => exact ih r.1 r.2
  | call rule next ih =>
    simp only [bind, run]
    cases enter rule s with
    | error e => rfl
    | ok r => exact ih r.1 r.2
  | jump rule => cases h : enter rule s <;> simp [bind, run, h]

/-- A run of one routine after another returns if both do. -/
theorem run_bind_eq_ok {x : Routine α} {f : α → Routine β} {s u : State} {b : β} :
    (x.bind f).run enter s = .ok (b, u) ↔ ∃ a t, x.run enter s = .ok (a, t) ∧ (f a).run enter t = .ok (b, u) := by
  rw [run_bind]
  constructor
  · intro h
    split at h
    · rename_i a t hx
      exact ⟨a, t, hx, h⟩
    · cases h
  · rintro ⟨a, t, hx, hf⟩
    rw [hx]
    exact hf

theorem run_act_eq_ok {action : Action β} {next : β → Routine α} {s u : State} {a : α} :
    (act action next).run enter s = .ok (a, u) ↔
      ∃ b t, action.perform s = .ok (b, t) ∧ (next b).run enter t = .ok (a, u) := by
  simp only [run]
  constructor
  · intro h
    split at h
    · rename_i b t hp
      exact ⟨b, t, hp, h⟩
    · cases h
  · rintro ⟨b, t, hp, hn⟩
    rw [hp]
    exact hn

theorem run_call_eq_ok {rule : Rule β} {next : β → Routine α} {s u : State} {a : α} :
    (call rule next).run enter s = .ok (a, u) ↔
      ∃ b t, enter rule s = .ok (b, t) ∧ (next b).run enter t = .ok (a, u) := by
  simp only [run]
  constructor
  · intro h
    split at h
    · rename_i b t hr
      exact ⟨b, t, hr, h⟩
    · cases h
  · rintro ⟨b, t, hr, hn⟩
    rw [hr]
    exact hn

/-- The routine of a single action runs that action. -/
@[simp] theorem run_single (action : Action α) (s : State) : (Parser.act action).run enter s = action.perform s := by
  simp only [Parser.act, run]
  cases action.perform s <;> rfl

/-- The routine that is a rule runs that rule. -/
@[simp] theorem run_rule (r : Rule α) (s : State) : (Parser.rule r).run enter s = enter r s := rfl

end Routine

/-- Consuming a token if it is there is a look at it, and then two ways to go on. -/
theorem eat_bind {β : Type} (k : Kind) (f : Bool → Routine β) :
    eat k >>= f = (peek >>= fun k' => if k' == k then advance >>= fun _ => f true else f false) := by
  simp only [eat, peekIs, Routine.bind_eq, Routine.pure_eq, Routine.bind_assoc]
  congr 1
  funext k'
  generalize (k' == k) = b
  cases b <;> rfl

/-- Requiring a token is a look at it, and then going on or breaking down. -/
theorem require_bind {β : Type} (k : Kind) (f : Unit → Routine β) :
    require k >>= f = (peek >>= fun k' => if k' = k then f () else .fail (.misplaced k k')) := by
  simp only [require, Routine.bind_eq, Routine.pure_eq, Routine.bind_assoc]
  congr 1
  funext k'
  split <;> rfl

/-- Asking for a path segment is a look at the next token, and then at whether it touches. -/
theorem atSegment_bind {β : Type} (f : Bool → Routine β) :
    atSegment >>= f = (peek >>= fun k => if k = .dot || k = .bracketOpen then touches >>= f else f false) := by
  simp only [atSegment, Routine.bind_eq, Routine.pure_eq, Routine.bind_assoc]
  congr 1
  funext k
  split <;> rfl

/-- Asking for a first segment is a look at the next token, and then at whether it touches. -/
theorem atFirstSegment_bind {β : Type} (f : Bool → Routine β) :
    atFirstSegment >>= f =
      (peek >>= fun k => if k.isFieldName || k = .doubleQuote || k = .bracketOpen then touches >>= f else f false) := by
  simp only [atFirstSegment, Routine.bind_eq, Routine.pure_eq, Routine.bind_assoc]
  congr 1
  funext k
  split <;> rfl

/-! ## What every action keeps, every run keeps -/

/-- A relation between an earlier and a later state that no action can break. -/
structure Respected (R : State → State → Prop) : Prop where
  refl (s : State) : R s s
  trans {s t u : State} : R s t → R t u → R s u
  perform {α : Type} {action : Action α} {s t : State} {a : α} : action.perform s = .ok (a, t) → R s t

namespace Respected

variable {R : State → State → Prop}

/-- A run keeps what actions and the rules it enters keep. -/
theorem run_of_enter (h : Respected R) {enter : {γ : Type} → Rule γ → Step γ}
    (henter : ∀ {γ : Type} (rule : Rule γ) {s t : State} {c : γ}, enter rule s = .ok (c, t) → R s t) {α : Type}
    (x : Routine α) {s t : State} {a : α} (hx : x.run enter s = .ok (a, t)) : R s t := by
  induction x generalizing s with
  | done b =>
    simp only [Routine.run, Except.ok.injEq, Prod.mk.injEq] at hx
    rw [hx.2]
    exact h.refl t
  | fail e => simp [Routine.run] at hx
  | act action next ih =>
    obtain ⟨b, u, hp, hn⟩ := Routine.run_act_eq_ok.mp hx
    exact h.trans (h.perform hp) (ih b hn)
  | call rule next ih =>
    obtain ⟨b, u, hr, hn⟩ := Routine.run_call_eq_ok.mp hx
    exact h.trans (henter rule hr) (ih b hn)
  | jump rule => exact henter rule hx

/-- Every rule keeps what actions keep, by induction on the bound on nested rules. -/
theorem runRule (h : Respected R) {n : Nat} {α : Type} {rule : Rule α} {s t : State} {a : α}
    (hr : runRule n rule s = .ok (a, t)) : R s t := by
  induction n generalizing α s t with
  | zero => simp [Parser.runRule] at hr
  | succ n ih => exact h.run_of_enter (fun _ _ _ _ hg => ih hg) (grammar rule) hr

/-- Every run keeps what actions keep. -/
theorem run (h : Respected R) {n : Nat} {α : Type} {x : Routine α} {s t : State} {a : α}
    (hx : x.run (Parser.runRule n) s = .ok (a, t)) : R s t :=
  h.run_of_enter (fun _ _ _ _ hg => h.runRule hg) x hx

end Respected

/-! ## The bound on nested rules -/

/-- A run returns the same when the rules it enters do. -/
theorem Routine.run_mono {e₁ e₂ : {γ : Type} → Rule γ → Step γ}
    (henter : ∀ {γ : Type} (rule : Rule γ) {s t : State} {c : γ}, e₁ rule s = .ok (c, t) → e₂ rule s = .ok (c, t))
    {α : Type} (x : Routine α) {s t : State} {a : α} (hx : x.run e₁ s = .ok (a, t)) : x.run e₂ s = .ok (a, t) := by
  induction x generalizing s with
  | done b => exact hx
  | fail e => exact hx
  | act action next ih =>
    obtain ⟨b, u, hp, hn⟩ := run_act_eq_ok.mp hx
    exact run_act_eq_ok.mpr ⟨b, u, hp, ih b hn⟩
  | call rule next ih =>
    obtain ⟨b, u, hr, hn⟩ := run_call_eq_ok.mp hx
    exact run_call_eq_ok.mpr ⟨b, u, henter rule hr, ih b hn⟩
  | jump rule => exact henter rule hx

/-- A rule that returns within a bound returns the same within a higher one. -/
theorem runRule_mono {m n : Nat} (hmn : m ≤ n) {α : Type} {rule : Rule α} {s t : State} {a : α}
    (h : runRule m rule s = .ok (a, t)) : runRule n rule s = .ok (a, t) := by
  induction m generalizing n α s t with
  | zero => simp [runRule] at h
  | succ m ih =>
    obtain ⟨n, rfl⟩ : ∃ k, n = k + 1 := ⟨n - 1, by omega⟩
    exact (grammar rule).run_mono (fun _ _ _ _ hg => ih (by omega) hg) h

/-! ## The end of a parse -/

/-- What a final state has to look like to hold a result. -/
structure State.Holds (s : State) (r : Result) : Prop where
  built : s.top.built = [r.tree]
  below : s.below = []
  reports : r.diagnostics = s.reports.reverse
  exhausted : r.exhausted = s.exhausted

theorem State.holds_of_finish {s : State} {r : Result} (h : s.finish = .ok r) : s.Holds r := by
  unfold finish at h
  split at h
  · cases h
  · split at h
    · rename_i hbuilt hbelow
      cases h
      exact ⟨hbuilt, hbelow, rfl, rfl⟩
    · cases h

/-- Parsing tokens is a run of the program and a look at the state it ends in. -/
theorem parseTokens_eq_ok {tokens : List Token} {limit : Nat} {fuel : Option Nat} {r : Result} :
    parseTokens tokens limit fuel = .ok r ↔
      ∃ s, program.run (runRule (stepsFor tokens.length)) (.start tokens limit fuel) = .ok ((), s) ∧ s.finish = .ok r := by
  unfold parseTokens
  constructor
  · intro h
    split at h
    · rename_i s hrun
      exact ⟨s, hrun, h⟩
    · cases h
  · rintro ⟨s, hrun, hfinish⟩
    rw [hrun]
    exact hfinish

end Remap.Parser
