import Remap.Proofs.Parser.Effects
import Remap.Proofs.Parser.Run

/-!
# How a run may end

`Ends E Q r` says of the outcome `r` of a run that a reply and state it returns satisfy `Q`, and that a fault it breaks down
with satisfies `E`. The rules here follow the syntax of routines, so a statement about a routine of the grammar is proved by
going through its text.
-/

namespace Remap.Parser

variable {α β : Type}

/-- An outcome is a reply and a state that satisfy `Q`, or a fault that satisfies `E`. -/
def Ends (E : Fault → Prop) (Q : α → State → Prop) : Except Fault (α × State) → Prop
  | .ok (a, t) => Q a t
  | .error f => E f

namespace Ends

variable {E E' : Fault → Prop} {Q Q' : α → State → Prop} {enter : {γ : Type} → Rule γ → Step γ}

theorem mono {r : Except Fault (α × State)} (h : Ends E Q r) (hE : ∀ f, E f → E' f) (hQ : ∀ a t, Q a t → Q' a t) :
    Ends E' Q' r := by
  rcases r with f | ⟨a, t⟩
  · exact hE f h
  · exact hQ a t h

/-- A statement about what is returned may be weakened. -/
theorem imp {r : Except Fault (α × State)} (h : Ends E Q r) (hQ : ∀ a t, Q a t → Q' a t) : Ends E Q' r :=
  h.mono (fun _ hf => hf) hQ

/-- What holds of every outcome holds of one that is returned. -/
theorem of_ok {r : Except Fault (α × State)} (h : Ends E Q r) {a : α} {t : State} (hr : r = .ok (a, t)) : Q a t := by
  subst hr
  exact h

/-- A routine after another ends as the second does from wherever the first ends. -/
theorem bind {x : Routine α} {f : α → Routine β} {s : State} {Q : β → State → Prop}
    (h : Ends E (fun a t => Ends E Q ((f a).run enter t)) (x.run enter s)) : Ends E Q ((x >>= f).run enter s) := by
  rw [Routine.bind_eq, Routine.run_bind]
  cases hx : x.run enter s with
  | error f => rw [hx] at h; exact h
  | ok r => rw [hx] at h; exact h

end Ends

end Remap.Parser
