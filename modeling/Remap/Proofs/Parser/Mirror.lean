import Remap.Proofs.Parser.Silent
import Remap.Proofs.Tree.Bare

/-!
# Two runs side by side

`Mirrors n x s s' Q` follows two runs of one routine from two states: if the run from `s` returns and nothing was reported,
the run from `s'` returns the same, and `Q` holds of the two states they end in.
-/

namespace Remap.Parser

variable {α β : Type}

/-- If a routine returns from the first state without any report, it returns the same from the second. -/
def Mirrors (n : Nat) (x : Routine α) (s s' : State) (Q : α → State → State → Prop) : Prop :=
  s.Steady → ∀ a t, x.run (runRule n) s = .ok (a, t) → t.Silent → ∃ t', x.run (runRule n) s' = .ok (a, t') ∧ Q a t t'

namespace Mirrors

variable {n : Nat} {s s' : State} {Q Q' : α → State → State → Prop}

theorem imp {x : Routine α} (h : Mirrors n x s s' Q) (hQ : ∀ a t t', Q a t t' → Q' a t t') : Mirrors n x s s' Q' := by
  intro hs a t hrun hsilent
  obtain ⟨t', hrun', ht⟩ := h hs a t hrun hsilent
  exact ⟨t', hrun', hQ a t t' ht⟩

/-- What is known of the first run alone is known. -/
theorem and {x : Routine α} {P : α → State → Prop} (h : Mirrors n x s s' Q) (hP : Accepts n x s P) :
    Mirrors n x s s' fun a t t' => Q a t t' ∧ P a t := by
  intro hs a t hrun hsilent
  obtain ⟨t', hrun', ht⟩ := h hs a t hrun hsilent
  exact ⟨t', hrun', ht, hP hs a t hrun hsilent⟩

/-- Where the first run does not return silently there is nothing to mirror. -/
theorem never {x : Routine α} (h : Accepts n x s fun _ _ => False) : Mirrors n x s s' Q :=
  fun hs a t hrun hsilent => (h hs a t hrun hsilent).elim

theorem done {a : α} (h : Q a s s') : Mirrors n (pure a) s s' Q := by
  intro _ b t hrun _
  cases hrun
  exact ⟨s', rfl, h⟩

theorem fail (f : Fault) : Mirrors n (.fail f) s s' Q := .never (.fail f)

/-- One routine after another. -/
theorem bind {x : Routine β} {f : β → Routine α} (h : Mirrors n x s s' fun b t t' => Mirrors n (f b) t t' Q) :
    Mirrors n (x >>= f) s s' Q := by
  intro hs a u hrun hsilent
  obtain ⟨b, t, hx, hf⟩ := Routine.run_bind_eq_ok.mp hrun
  have ht := respected_hushes.run hx
  have hu := respected_hushes.run hf
  obtain ⟨t', hx', hnext⟩ := h hs b t hx (hu.silent hsilent)
  obtain ⟨u', hf', hQ⟩ := hnext (ht.steady hs) a u hf hsilent
  exact ⟨u', Routine.run_bind_eq_ok.mpr ⟨b, t', hx', hf'⟩, hQ⟩

/-- A single action. -/
theorem single {action : Action α}
    (h : s.Steady → ∀ b t, action.perform s = .ok (b, t) → t.Silent → ∃ t', action.perform s' = .ok (b, t') ∧ Q b t t') :
    Mirrors n (Parser.act action) s s' Q := by
  intro hs a t hrun hsilent
  rw [Routine.run_single] at hrun
  obtain ⟨t', hperform, hQ⟩ := h hs a t hrun hsilent
  exact ⟨t', by rw [Routine.run_single, hperform], hQ⟩

/-- A rule does what its body does. -/
theorem rule {r : Rule α} (h : ∀ m, n = m + 1 → Mirrors m (grammar r) s s' Q) : Mirrors n (Parser.rule r) s s' Q := by
  cases n with
  | zero =>
    intro _ a t hrun _
    cases hrun
  | succ m => exact h m rfl

end Mirrors

end Remap.Parser
