/-!
# Classes of characters as ranges

A class of characters is given by the ranges of its code points. The ranges stand in ascending order and do not touch, so
the first range that does not end before a code point decides about it.
-/

namespace Remap

/-- Ranges of code points, both ends included, in ascending order. -/
abbrev Ranges := List (Nat × Nat)

namespace Ranges

/-- Whether a code point lies in one of the ranges. -/
def hold : Ranges → Nat → Bool
  | [], _ => false
  | (a, b) :: rest, n => if n ≤ b then a ≤ n else hold rest n

@[simp] theorem hold_nil (n : Nat) : hold [] n = false := rfl

theorem hold_cons (a b n : Nat) (rest : Ranges) :
    hold ((a, b) :: rest) n = if n ≤ b then decide (a ≤ n) else hold rest n := rfl

/-- What lies in the ranges lies in one of them. -/
theorem exists_mem_of_hold {rs : Ranges} {n : Nat} (h : rs.hold n = true) : ∃ r ∈ rs, r.1 ≤ n ∧ n ≤ r.2 := by
  induction rs with
  | nil => simp at h
  | cons r rest ih =>
    obtain ⟨a, b⟩ := r
    rw [hold_cons] at h
    split at h
    · exact ⟨(a, b), by simp, by simpa using h, by assumption⟩
    · obtain ⟨r, hr, hn⟩ := ih h
      exact ⟨r, by simp [hr], hn⟩

end Ranges

end Remap
