import Mathlib.Data.Nat.Digits.Defs
import Remap.Proofs.Token.Origins

/-!
# Integers and their digits

An integer token is a digit and then digits and separators, however malformed the number is: a number with leading zeros becomes an
integer as well. Its digits write a number of any size; it is read as that number exactly where the number has 64 bits, and as
nothing else.
-/

namespace Remap

namespace Literal

/-- The number that the digits of a text write, the last one for the ones. Separators between digits do not count. -/
def number (t : Text) : Nat := Nat.ofDigits 10 ((digits t).reverse.map fun c => c.toNat - '0'.toNat)

/-- An integer, if it is a signed one of 64 bits. -/
def inRange? (z : Int) : Option Int := if -2 ^ 63 ≤ z ∧ z ≤ 2 ^ 63 - 1 then some z else none

theorem isSome_inRange? {z : Int} : (inRange? z).isSome = true ↔ -2 ^ 63 ≤ z ∧ z ≤ 2 ^ 63 - 1 := by
  unfold inRange?
  split
  · exact ⟨fun _ => ‹_›, fun _ => rfl⟩
  · exact ⟨nofun, fun h => absurd h ‹_›⟩

theorem inRange?_eq_some {z : Int} (h : (inRange? z).isSome = true) : inRange? z = some z := if_pos (isSome_inRange?.mp h)

/-- A digit, and then digits and separators. -/
def IsNumeral (t : Text) : Prop := ∃ c rest, t = c :: rest ∧ c.isDigit = true ∧ rest.all Lexeme.isNumberPart = true

/-- Reading digits from the left adds up what each stands for. -/
theorem ofDigits_digits (t : Text) : ofDigits (digits t) = number t := by
  rw [number, Nat.ofDigits_eq_foldr, List.foldr_map, List.foldr_reverse, ofDigits]
  congr 1
  funext n c
  exact Nat.add_comm _ _

theorem digits_of_isNumeral {t : Text} (h : IsNumeral t) : digits t ≠ [] ∧ (digits t).all Char.isDigit = true := by
  obtain ⟨c, rest, rfl, hc, hrest⟩ := h
  have hne : c ≠ '_' := by
    rintro rfl
    cases hc
  refine ⟨?_, ?_⟩
  · rw [digits, List.filter_cons_of_pos (by simpa using hne)]
    exact List.cons_ne_nil _ _
  · refine List.all_eq_true.mpr fun d hd => ?_
    obtain ⟨hd, hne⟩ := List.mem_filter.mp hd
    rcases List.mem_cons.mp hd with rfl | hd
    · exact hc
    · have hpart := List.all_eq_true.mp hrest d hd
      rw [Lexeme.isNumberPart, Bool.or_eq_true] at hpart
      exact hpart.resolve_right fun h => by simp [of_decide_eq_true h] at hne

/-- An integer is read exactly, or not at all where it does not have 64 bits. -/
theorem integer?_eq {t : Text} (h : IsNumeral t) (negative : Bool) :
    integer? negative t = inRange? (if negative then -(number t : Int) else number t) := by
  obtain ⟨hne, hall⟩ := digits_of_isNumeral h
  have hmagnitude : magnitude? t = if number t ≤ maxMagnitude then some (number t) else none := by
    simp only [magnitude?, hall, List.isEmpty_eq_false_iff.mpr hne, ofDigits_digits]
    rfl
  have hmax : maxMagnitude = 2 ^ 63 := rfl
  rw [integer?, hmagnitude, inRange?]
  by_cases hfits : number t ≤ maxMagnitude
  · cases negative with
    | true =>
      simp only [if_pos hfits, if_true]
      rw [if_pos (by omega)]
    | false =>
      simp only [if_pos hfits, Bool.false_eq_true, if_false]
      by_cases hleast : number t = maxMagnitude
      · rw [if_neg (by omega), if_neg (by omega)]
      · rw [if_pos (by omega), if_pos (by omega)]
  · simp only [if_neg hfits]
    rw [if_neg]
    split <;> omega

end Literal

namespace Lexeme

/-- What becomes an integer: an integer, or a malformed number without a point. -/
theorem kind_of_regular {l : Lexeme} (h : l.regular = .integer) :
    l.kind = .integer ∨ l.kind = .malformedNumber ∧ '.' ∉ l.text := by
  unfold regular at h
  split at h
  case h_4 hk =>
    refine .inr ⟨hk, fun hmem => ?_⟩
    rw [if_pos (List.contains_iff_mem.mpr hmem)] at h
    cases h
  case h_5 => exact .inl h
  all_goals cases h

/-- A number that becomes an integer goes on as far as digits and separators do. -/
theorem isNumeral_number {c : Char} {rest : Text} (hc : c.isDigit = true)
    (h : (number c rest).1 = .integer ∨ '.' ∉ c :: rest.take (number c rest).2) :
    Literal.IsNumeral (c :: rest.take (number c rest).2) := by
  have hpoint : (rest.drop (run isNumberPart rest)).head? ≠ some '.' := by
    intro hpoint
    rcases h with h | h
    · simp only [number, hpoint] at h
      split at h <;> cases h
    · obtain ⟨more, hmore⟩ := List.head?_eq_some_iff.mp hpoint
      refine h (List.mem_cons_of_mem _ ?_)
      have hlength : (number c rest).2 = run isNumberPart rest + 1 + run isNumberPart (rest.drop (run isNumberPart rest + 1)) := by
        simp only [number, hpoint]
        split <;> rfl
      rw [hlength, Nat.add_assoc, List.take_add, hmore, Nat.add_comm 1, List.take_succ_cons]
      exact List.mem_append_right _ List.mem_cons_self
  have hlength : (number c rest).2 = run isNumberPart rest := by
    simp only [number, hpoint]
    split <;> rfl
  refine ⟨c, _, rfl, hc, ?_⟩
  rw [hlength, run, ← List.prefix_iff_eq_take.mp (List.takeWhile_prefix _)]
  exact List.all_takeWhile

end Lexeme

/-- An integer token is a digit, and then digits and separators. -/
theorem isNumeral_of_mem_scan {source : Text} {checkPatterns : Bool} {t : Token} (ht : t ∈ (scan source checkPatterns).tokens)
    (hk : t.kind = .integer) : Literal.IsNumeral t.text := by
  obtain ⟨c, rest, htext, hkind⟩ := Lexeme.exists_classify ht (by rw [hk]; decide) (by rw [hk]; decide)
  have hnumber := Lexeme.kind_of_regular (hkind.symm.trans hk)
  have hvalue : Lexeme.isValue (Lexeme.classify c rest).1 = true := by
    rcases hnumber with hinteger | ⟨hmalformed, -⟩
    · exact congrArg Lexeme.isValue hinteger
    · exact congrArg Lexeme.isValue hmalformed
  rcases Lexeme.classify_of_isValue hvalue with ⟨hdigit, hclassify⟩ | ⟨q, a, b, body, hintroduces, rfl⟩
  · rw [hclassify] at htext hnumber
    rw [htext]
    exact Lexeme.isNumeral_number hdigit (hnumber.imp id fun h => htext ▸ h.2)
  · have hfst := Lexeme.literal_fst q a b body
    rw [hintroduces.classify] at hnumber
    have hmismatch : (Lexeme.literal q a b body).1 = .integer ∨ (Lexeme.literal q a b body).1 = .malformedNumber :=
      hnumber.imp id And.left
    cases hintroduces <;> rcases hfst with hfst | hfst <;> rw [hfst] at hmismatch <;> rcases hmismatch with h | h <;> cases h

end Remap
