import Mathlib.Data.List.Chain
import Remap.Proofs.Token.Places
import Remap.Proofs.Token.Tidy

/-!
# Tokens and their source

The tokens of a source lie side by side and cover it. Each knows whether the token before it keeps it apart, none has a kind that is
not for tokens, and stray characters are reported where, and only where, there is a token of them.
-/

namespace Remap

/-- The kinds of lexemes that become tokens of another kind. -/
def Kind.isProvisional : Kind → Bool
  | .malformedNumber | .stringLiteral | .unterminatedString | .unterminatedRawString | .unterminatedRegex | .unterminatedTimestamp => true
  | _ => false

/-- The kinds that tokens have: neither provisional, nor that of an error or of a node. -/
def Kind.isForTokens (k : Kind) : Bool := !k.isProvisional && k.toNat < Kind.error.toNat

/-! ## Placed pieces -/

namespace Token

theorem stop_of_last_place {offset : Nat} {previous : Option Kind} {ps : List (Kind × Text)} {t : Token}
    (h : t ∈ (place offset previous ps).getLast?) : t.stop = offset + (spelled ps).bytes := by
  induction ps generalizing offset previous with
  | nil => cases h
  | cons p ps ih =>
    rw [spelled_cons, Text.bytes_append, ← Nat.add_assoc]
    cases ps with
    | nil =>
      cases h
      rfl
    | cons q ps => exact ih h

/-- What comes after placed pieces is placed where they end. -/
theorem place_append_spelled (xs ys : List (Kind × Text)) (offset : Nat) (previous : Option Kind) :
    ∃ previous', place offset previous (xs ++ ys) = place offset previous xs ++ place (offset + (spelled xs).bytes) previous' ys := by
  induction xs generalizing offset previous with
  | nil => exact ⟨previous, rfl⟩
  | cons x xs ih =>
    obtain ⟨kind, text⟩ := x
    obtain ⟨previous', h⟩ := ih (offset + text.bytes) (some kind)
    refine ⟨previous', ?_⟩
    rw [List.cons_append, place, h, place, List.cons_append, spelled_cons, Text.bytes_append, Nat.add_assoc]

end Token

/-! ## Kinds -/

theorem Kind.isForTokens_of_isPlain {k : Kind} (h : Lexeme.isPlain k = true) (hk : k.isProvisional = false) : k.isForTokens = true := by
  revert h hk
  cases k <;> decide

namespace Lexeme

/-- No piece of a string is stray, and each has a kind for tokens. -/
theorem kind_of_mem_piecesOf {fs : List Fragment} {p : Kind × Text} (h : p ∈ Fragment.piecesOf fs) :
    p.1.isForTokens = true ∧ p.1 ≠ .garbage := by
  rw [← Token.map_piece_place 0 none (Fragment.piecesOf fs)] at h
  obtain ⟨t, ht, rfl⟩ := List.mem_map.mp h
  have hkind := (Fragment.stringBody_place fs 0 none).kind ht
  have hall : ∀ k ∈ [Kind.strText, .escape, .templateOpen, .whitespace, .id, .templateClose], k.isForTokens = true ∧ k ≠ .garbage := by
    decide
  exact hall _ hkind

/-- A piece of a lexeme has a kind for tokens, and is stray only if the lexeme is. -/
theorem Genuine.kind_of_mem_pieces {l : Lexeme} (h : l.Genuine) {p : Kind × Text} (hp : p ∈ l.pieces) :
    p.1.isForTokens = true ∧ (p.1 = .garbage → l.kind = .garbage) := by
  have hquote : Kind.isForTokens .doubleQuote = true ∧ Kind.doubleQuote ≠ .garbage := by decide
  have hproper {k : Kind} (h : k.isForTokens = true ∧ k ≠ .garbage) : k.isForTokens = true ∧ (k = .garbage → l.kind = .garbage) :=
    ⟨h.1, fun hk => absurd hk h.2⟩
  rcases h with hplain | ⟨hk, -⟩ | ⟨hk, -⟩
  · unfold pieces at hp
    split at hp
    case h_1 hk | h_2 hk =>
      rw [hk] at hplain
      cases hplain
    case h_6 =>
      rw [List.mem_singleton.mp hp]
      refine hproper ?_
      dsimp only
      split <;> decide
    case h_7 h₁ h₂ h₃ h₄ h₅ h₆ =>
      rw [List.mem_singleton.mp hp]
      refine ⟨Kind.isForTokens_of_isPlain hplain ?_, id⟩
      unfold Kind.isProvisional
      split <;> first | rfl | contradiction
    all_goals
      rw [List.mem_singleton.mp hp]
      exact hproper ⟨rfl, Kind.noConfusion⟩
  · simp only [pieces, hk, List.mem_append, List.mem_singleton] at hp
    rcases hp with (rfl | hp) | rfl
    · exact hproper hquote
    · exact hproper (kind_of_mem_piecesOf hp)
    · exact hproper hquote
  · simp only [pieces, hk, List.mem_append, List.mem_singleton] at hp
    rcases hp with rfl | hp
    · exact hproper hquote
    · exact hproper (kind_of_mem_piecesOf hp)

/-! ## Stray characters -/

/-- Two neighbours are not both stray. -/
def Apart (k l : Kind) : Prop := ¬ (k = .garbage ∧ l = .garbage)

theorem pieces_ne_nil (l : Lexeme) : l.pieces ≠ [] := by
  unfold pieces
  split <;> simp

/-- Within a string only escapes and templates are reported. -/
theorem problem_of_mem_fragmentProblems {fs : List Fragment} {offset : Nat} {d : Diagnostic} (h : d ∈ fragmentProblems offset fs) :
    d.problem = .invalidEscape ∨ d.problem = .invalidTemplate := by
  induction fs generalizing offset with
  | nil => cases h
  | cons f fs ih =>
    rcases List.mem_append.mp h with h | h
    · cases f with
      | plain _ | template _ _ _ => cases h
      | openBraces =>
        rw [List.mem_singleton.mp h]
        exact .inr rfl
      | escape c =>
        cases c with
        | none => cases h
        | some c =>
          cases hc : Literal.isEscape c with
          | true =>
            simp only [hc, if_true] at h
            cases h
          | false =>
            simp only [hc, Bool.false_eq_true, if_false] at h
            rw [List.mem_singleton.mp h]
            exact .inl rfl
    · exact ih h

/-- Within a timestamp only escapes are reported. -/
theorem problem_of_mem_timestampProblems {t : Text} {offset : Nat} {d : Diagnostic} (h : d ∈ timestampProblems offset t) :
    d.problem = .invalidEscape := by
  fun_induction timestampProblems offset t with
  | case1 => cases h
  | case2 offset c rest size here ih =>
    rcases List.mem_append.mp h with h | h
    · simp only [here] at h
      split at h
      · cases h
      · rw [List.mem_singleton.mp h]
    · exact ih h
  | case3 offset c rest _ ih => exact ih h

end Lexeme

/-- The spans of the stray characters among tokens. -/
def Token.strays (ts : List Token) : List Span := (ts.filter (·.kind = .garbage)).map Token.span

/-- The spans of the stray characters that are reported. -/
def Diagnostics.strays (ds : Diagnostics) : List Span := (ds.filter (·.problem = .unexpectedCharacter)).map (·.span)

/-- What tokens and reports of the scanner are to a source. -/
structure Scanned.Covers (s : Scanned) (source : Text) : Prop where
  /-- No token is empty. -/
  nonempty : ∀ t ∈ s.tokens, t.start < t.stop
  /-- The first token starts where the source does, and touches nothing. -/
  first : ∀ t ∈ s.tokens.head?, t.start = 0 ∧ t.immediate = false
  /-- Every other token starts where the one before it stops, and touches it unless that is whitespace, a newline or a comment. -/
  next : s.tokens.IsChain fun t u => t.stop = u.start ∧
    (u.immediate = true ↔ t.kind ≠ .whitespace ∧ t.kind ≠ .newline ∧ t.kind ≠ .comment)
  /-- The last token stops where the source does. -/
  last : ∀ t ∈ s.tokens.getLast?, t.stop = source.bytes
  /-- Each token has the text that stands at its span, between two characters of the source. -/
  placed : ∀ t ∈ s.tokens, t.span.Holds source t.text
  /-- The texts of the tokens are the source. -/
  text : s.tokens.flatMap Token.text = source
  /-- Each token has a kind for tokens. -/
  kind : ∀ t ∈ s.tokens, t.kind.isForTokens = true
  /-- Of two neighbours at most one is stray. -/
  apart : s.tokens.IsChain fun t u => ¬ (t.kind = .garbage ∧ u.kind = .garbage)
  /-- The stray tokens are reported one by one. -/
  strays : (s.tokens.filter (·.kind = .garbage)).map Token.span = (s.diagnostics.filter (·.problem = .unexpectedCharacter)).map (·.span)

end Remap
