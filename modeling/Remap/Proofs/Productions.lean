import Remap.Proofs.Parser.Production
import Remap.Proofs.Parser.Visit
import Remap.Program

/-!
# Productions restore the context

Wherever a parse stands, a production run from there gives back the context that it began in when it returns: the nesting depth,
the open delimiters, how newlines are read and how many nodes are being built. It goes back over no token. Meanwhile the depth
stays within the limit, and no level is left that was not entered. It makes no difference to this whether the input ends, the fuel
runs out or the limit is hit on the way.
-/

namespace Remap.Parser

variable {α β : Type}

/-- The number of nodes being built. A mark is no node yet. -/
def State.openNodes (s : State) : Nat := (s.top :: s.below).countP (·.label.isSome)

/-- The later state has the context of the earlier one, and is not before it. -/
structure Restored (s t : State) : Prop where
  depth : t.depth = s.depth
  delimiters : t.delimiters = s.delimiters
  separating : t.separating = s.separating
  openNodes : t.openNodes = s.openNodes
  unread : t.unread <:+ s.unread

/-- Surroundings that were kept have as many open nodes as before. -/
theorem Kept.openNodes {s t : State} (h : Kept s t) : t.openNodes = s.openNodes := by
  rw [State.openNodes, State.openNodes, List.countP_cons, List.countP_cons, h.below, h.label]

/-- Every production that is run from a state in the course of a parse restores the context of that state if it returns. Up to
then, or up to where it breaks down, the depth is never greater than the limit, and it is not zero where a level is left. -/
theorem restored_of_production (o : Options) (source : Text) {y : Routine β} {s : State}
    (hs : Reaches y s program (.start (scan source o.checkPatterns).tokens o.limit o.fuel)) (P : Production α) :
    (∀ n a t, P.routine.run (runRule n) s = .ok (a, t) → Restored s t) ∧
    (∀ (γ : Type) (z : Routine γ) (v : State), Reaches z v P.routine s → v.depth ≤ o.limit) ∧
    ∀ (γ : Type) (next : Unit → Routine γ) (v : State), Reaches (.act .leave next) v P.routine s → 0 < v.depth := by
  obtain ⟨hwithin, hlimit⟩ := hs.depth_le (levels_production .program) (Nat.zero_le _)
  refine ⟨fun n a t hrun => ?_, fun γ z v hv => ?_, fun γ next v hv => hv.depth_pos (levels_production P) hwithin⟩
  · have hkept : Kept s t := restores_production n P s t a hrun
    exact ⟨hkept.depth, hkept.delimiters, hkept.separating, hkept.openNodes, respected_suffix.run hrun⟩
  · obtain ⟨hle, hsame⟩ := hv.depth_le (levels_production P) hwithin
    exact Nat.le_trans hle (Nat.le_of_eq (hsame.trans hlimit))

/-- The limit is hit in a condition in parentheses that are never closed, with three operators still to be folded. -/
theorem restored_of_production_overflow :
    ∃ (y : Routine Unit) (s t : State), Reaches y s program (.start (scan "if (a +b -c *d".toList false).tokens 4 none) ∧
      Production.statement.routine.run (runRule 60) s = .ok (.ifStatement, t) ∧ t.overflowed = true ∧ s.openNodes = 1 ∧
      Restored s t ∧ ∀ (γ : Type) (z : Routine γ) (v : State), Reaches z v (Production.routine .statement) s → v.depth ≤ 4 := by
  let s := (State.start (scan "if (a +b -c *d".toList false).tokens 4 none).pushed (some .program)
  have hreach : Reaches _ s program (.start (scan "if (a +b -c *d".toList false).tokens 4 none) :=
    .act (State.perform_openNode _ .program) .here
  have hrun : (Production.statement.routine.run (runRule 60) s).toOption.any
      (fun r => r.1 = .ifStatement && r.2.overflowed) = true := by decide +kernel
  obtain ⟨hrestored, hdepth, -⟩ := restored_of_production { limit := 4 } "if (a +b -c *d".toList hreach .statement
  cases h : Production.statement.routine.run (runRule 60) s with
  | error f =>
    rw [h] at hrun
    cases hrun
  | ok r =>
    obtain ⟨k, t⟩ := r
    rw [h] at hrun
    obtain ⟨hk, hover⟩ : k = .ifStatement ∧ t.overflowed = true := by simpa [Except.toOption] using hrun
    exact ⟨_, s, t, hreach, by rw [h, hk], hover, rfl, hrestored 60 k t h, hdepth⟩

end Remap.Parser
