import Remap.Text.Quoted
import Mathlib.Data.List.Basic

/-!
# Quoted text can be read back

Between the quotes every character is written in a way of its own: as itself, as a backslash and a letter, or as a backslash and
its code point in braces. No way of writing one character begins the way of writing another, and none begins with a quote. So a
quoted text ends where it is closed, and says which text it is. It stands on one line.
-/

namespace Remap.Text

/-- Two texts up to the first place of a mark agree if the whole texts do. -/
theorem append_mark_inj {mark : Char} {s t x y : Text} (hs : mark ∉ s) (ht : mark ∉ t) (h : s ++ mark :: x = t ++ mark :: y) :
    s = t ∧ x = y := by
  induction s generalizing t with
  | nil =>
    cases t with
    | nil => exact ⟨rfl, (List.cons.inj h).2⟩
    | cons d t => exact absurd (List.cons.inj h).1 (List.ne_of_not_mem_cons ht)
  | cons c s ih =>
    cases t with
    | nil => exact absurd (List.cons.inj h).1.symm (List.ne_of_not_mem_cons hs)
    | cons d t =>
      obtain ⟨rfl, hrest⟩ := List.cons.inj h
      obtain ⟨rfl, hxy⟩ := ih (List.not_mem_of_not_mem_cons hs) (List.not_mem_of_not_mem_cons ht) hrest
      exact ⟨rfl, hxy⟩

/-! ## Digits -/

/-- The digits of the base sixteen differ. -/
theorem digitChar_injective : ∀ m < 16, ∀ n < 16, Nat.digitChar m = Nat.digitChar n → m = n := by decide

theorem mod_lt_sixteen (n : Nat) : n % 16 < 16 := Nat.mod_lt n (by decide)

/-- The digits of a number say which number it is. -/
theorem toDigits_injective (m n : Nat) (h : Nat.toDigits 16 m = Nat.toDigits 16 n) : m = n := by
  induction m using Nat.strongRecOn generalizing n with
  | ind m ih =>
    rw [Nat.toDigits_eq_if (by decide), Nat.toDigits_eq_if (n := n) (by decide)] at h
    split at h <;> split at h
    · rename_i hm hn
      exact digitChar_injective m hm n hn (List.singleton_inj.mp h)
    · have hone : [] ++ [Nat.digitChar m] = Nat.toDigits 16 (n / 16) ++ [(n % 16).digitChar] := h
      exact absurd (List.append_inj' hone rfl).1.symm Nat.toDigits_ne_nil
    · have hone : Nat.toDigits 16 (m / 16) ++ [(m % 16).digitChar] = [] ++ [Nat.digitChar n] := h
      exact absurd (List.append_inj' hone rfl).1 Nat.toDigits_ne_nil
    · rename_i hm hn
      obtain ⟨hfront, hlast⟩ := List.append_inj' h rfl
      have hquotient : m / 16 = n / 16 := ih (m / 16) (by omega) (n / 16) hfront
      have hremainder : m % 16 = n % 16 :=
        digitChar_injective _ (mod_lt_sixteen m) _ (mod_lt_sixteen n) (List.singleton_inj.mp hlast)
      omega

/-- A character that is no digit is not in the digits of a number. -/
theorem notMem_toDigits {c : Char} (hc : ∀ d < 16, Nat.digitChar d ≠ c) (n : Nat) : c ∉ Nat.toDigits 16 n := by
  induction n using Nat.strongRecOn with
  | ind n ih =>
    rw [Nat.toDigits_eq_if (by decide)]
    split
    · rename_i hn
      simpa using (hc n hn).symm
    · have hlast : c ≠ Nat.digitChar (n % 16) := (hc _ (mod_lt_sixteen n)).symm
      simpa [hlast] using ih (n / 16) (by omega)

/-! ## Characters -/

/-- The characters that get a letter of their own, each with its letter. -/
def escapes : List (Char × Char) := [('"', '"'), ('\\', '\\'), ('\n', 'n'), ('\r', 'r'), ('\t', 't'), ('\x00', '0')]

/-- A character by its code point. -/
def codePoint (c : Char) : Text := ['\\', 'u', '\x7b'] ++ Nat.toDigits 16 c.toNat ++ ['\x7d']

/-- The ways a character is written: as itself, with its letter, or by its code point. -/
theorem quoteChar_cases (c : Char) :
    c ≠ '\\' ∧ c ≠ '"' ∧ c ≠ '\n' ∧ quoteChar c = [c] ∨ (∃ e, (c, e) ∈ escapes ∧ quoteChar c = ['\\', e]) ∨
      quoteChar c = codePoint c := by
  unfold quoteChar
  split
  · rename_i hc
    exact .inr (.inl ⟨'"', by simp [escapes, hc], rfl⟩)
  split
  · rename_i hc
    exact .inr (.inl ⟨'\\', by simp [escapes, hc], rfl⟩)
  split
  · rename_i hc
    exact .inr (.inl ⟨'n', by simp [escapes, hc], rfl⟩)
  split
  · rename_i hc
    exact .inr (.inl ⟨'r', by simp [escapes, hc], rfl⟩)
  split
  · rename_i hc
    exact .inr (.inl ⟨'t', by simp [escapes, hc], rfl⟩)
  split
  · rename_i hc
    exact .inr (.inl ⟨'0', by simp [escapes, hc], rfl⟩)
  split
  · exact .inl ⟨by assumption, by assumption, by assumption, rfl⟩
  · exact .inr (.inr rfl)

/-- A letter belongs to one character. -/
theorem escapes_injective : ∀ p ∈ escapes, ∀ q ∈ escapes, p.2 = q.2 → p.1 = q.1 := by decide

/-- No letter is the one that begins a code point, and none is a newline. -/
theorem letter_of_mem_escapes : ∀ p ∈ escapes, p.2 ≠ 'u' ∧ p.2 ≠ '\n' := by decide

/-- Code points end at their brace. -/
theorem codePoint_append_inj {c d : Char} {s t : Text} (h : codePoint c ++ s = codePoint d ++ t) : c = d ∧ s = t := by
  have hbrace : ∀ n, '\x7d' ∉ Nat.toDigits 16 n := notMem_toDigits (by decide)
  simp only [codePoint, List.append_assoc, List.cons_append, List.nil_append, List.cons.injEq, true_and] at h
  obtain ⟨hdigits, hrest⟩ := append_mark_inj (hbrace _) (hbrace _) h
  exact ⟨Char.toNat_inj.mp (toDigits_injective _ _ hdigits), hrest⟩

/-- A quote as such is not the beginning of a character. -/
theorem quoteChar_append_ne {c : Char} {s t : Text} : quoteChar c ++ s ≠ '"' :: t := by
  intro h
  obtain ⟨-, hquote, -, hc⟩ | ⟨e, -, hc⟩ | hc := quoteChar_cases c
  · rw [hc] at h
    exact hquote (List.cons.inj h).1
  · rw [hc] at h
    cases h
  · rw [hc] at h
    cases h

/-- How a character is written says which character it is, whatever comes behind it. -/
theorem quoteChar_append_inj {c d : Char} {s t : Text} (h : quoteChar c ++ s = quoteChar d ++ t) : c = d ∧ s = t := by
  obtain ⟨hbackc, -, -, hc⟩ | ⟨e, he, hc⟩ | hc := quoteChar_cases c <;>
    obtain ⟨hbackd, -, -, hd⟩ | ⟨f, hf, hd⟩ | hd := quoteChar_cases d <;> rw [hc, hd] at h
  · exact List.cons.inj h
  · exact absurd (List.cons.inj h).1 hbackc
  · exact absurd (List.cons.inj h).1 hbackc
  · exact absurd (List.cons.inj h).1.symm hbackd
  · simp only [List.cons_append, List.nil_append, List.cons.injEq, true_and] at h
    exact ⟨escapes_injective _ he _ hf h.1, h.2⟩
  · exact absurd (List.cons.inj (List.cons.inj h).2).1 (letter_of_mem_escapes _ he).1
  · exact absurd (List.cons.inj h).1.symm hbackd
  · exact absurd (List.cons.inj (List.cons.inj h).2).1.symm (letter_of_mem_escapes _ hf).1
  · exact codePoint_append_inj h

/-- No character is written with a newline. -/
theorem newline_notMem_quoteChar (c : Char) : '\n' ∉ quoteChar c := by
  obtain ⟨-, -, hnewline, hc⟩ | ⟨e, he, hc⟩ | hc := quoteChar_cases c
  · simpa [hc] using hnewline.symm
  · simpa [hc] using (letter_of_mem_escapes _ he).2.symm
  · have hdigits := notMem_toDigits (c := '\n') (by decide) c.toNat
    simpa [hc, codePoint] using hdigits

/-! ## Texts -/

/-- Up to its closing quote a quoted text says which text it is. -/
theorem flatMap_quoteChar_inj {s t x y : Text} (h : s.flatMap quoteChar ++ '"' :: x = t.flatMap quoteChar ++ '"' :: y) : s = t := by
  induction s generalizing t with
  | nil =>
    cases t with
    | nil => rfl
    | cons d t =>
      rw [List.flatMap_cons, List.append_assoc] at h
      exact absurd h.symm quoteChar_append_ne
  | cons c s ih =>
    cases t with
    | nil =>
      rw [List.flatMap_cons, List.append_assoc] at h
      exact absurd h quoteChar_append_ne
    | cons d t =>
      rw [List.flatMap_cons, List.flatMap_cons, List.append_assoc, List.append_assoc] at h
      obtain ⟨rfl, hrest⟩ := quoteChar_append_inj h
      rw [ih hrest]

/-- Texts that are quoted alike are one text. -/
theorem quoted_injective {s t : Text} (h : s.quoted = t.quoted) : s = t := by
  simp only [quoted, List.cons_append, List.nil_append, List.cons.injEq, true_and] at h
  exact flatMap_quoteChar_inj h

/-- A quoted text stands on one line. -/
theorem newline_notMem_quoted (t : Text) : '\n' ∉ t.quoted := by
  have hchars : '\n' ∉ t.flatMap quoteChar := by
    rw [List.mem_flatMap]
    rintro ⟨c, -, hc⟩
    exact newline_notMem_quoteChar c hc
  simpa [quoted] using hchars

end Remap.Text
