import Remap.Program
import Remap.Proofs.Parser.Limit
import Remap.Proofs.Parser.Ordered

/-!
# Raising the limit

A higher limit on the nesting depth changes only what lies past the place where the lower one is hit. If it is not hit, nothing
changes at all. If it is hit, all diagnostics made before are made under the higher limit as well, the last one says that the
limit was hit, and everything from there to the end of the source is one error.
-/

namespace Remap

namespace Parser

variable {tokens : List Token} {l l' : Nat} {r r' : Result}

/-- Two parses of the same tokens under a limit and a higher one end alike, or the first hits its limit, and what it reported
before that the second one reports, too. -/
theorem parseTokens_relaxed {t : State} (hl : l ≤ l')
    (hrun : program.run (runRule (stepsFor tokens.length)) (.start tokens l none) = .ok ((), t)) (hfinish : t.finish = .ok r)
    (h' : parseTokens tokens l' none = .ok r') :
    r' = r ∨ t.overflowed = true ∧ ∃ d ds, r.diagnostics = ds ++ [d] ∧ ds <+: r'.diagnostics := by
  obtain ⟨t', hrun', hfinish'⟩ := parseTokens_eq_ok.mp h'
  have hrelaxed : Relaxed (.start tokens l none) (.start tokens l' none) := ⟨l', hl, rfl⟩
  rcases shadowed_relaxed.run program hrelaxed hrun with ⟨_, hsame, m, _, rfl⟩ | ⟨_, hparted⟩
  · cases hsame.symm.trans hrun'
    have hsame : t.finish = .ok r' := hfinish'
    cases hsame.symm.trans hfinish
    exact .inl rfl
  · obtain ⟨hover, d, ds, hreports, hsuffix⟩ := hparted () t' hrun'
    refine .inr ⟨hover, d, ds.reverse, ?_, ?_⟩
    · rw [(State.holds_of_finish hfinish).reports, hreports, List.reverse_cons]
    · rw [(State.holds_of_finish hfinish').reports]
      exact List.reverse_prefix.mpr hsuffix

end Parser

/-- Tokens that were placed before others end before them. -/
theorem Token.stop_le_of_append {offset : Nat} {previous : Option Kind} {ps : List (Kind × Text)} {before after : List Token}
    (h : Token.place offset previous ps = before ++ after) :
    ∀ t ∈ before, t.stop ≤ offset + Text.bytes (spelled (before.map Token.piece)) := by
  intro t ht
  obtain ⟨xs, ys, rfl⟩ := List.append_of_mem ht
  rw [List.append_assoc, List.cons_append] at h
  have hplace := Token.eq_place_of_append h
  simp only [List.map_cons, Token.place, List.cons.injEq] at hplace
  have hstart : t.start = offset + Text.bytes (spelled (xs.map Token.piece)) := by rw [hplace.1]
  simp only [Token.stop, hstart, List.map_append, List.map_cons, spelled_append, spelled_cons, Text.bytes_append, Token.piece]
  omega

/-- A source is parsed by parsing its tokens. -/
theorem parse_eq_ok {o : Options} {source : Text} {p : Parsed} (h : parse o source = .ok p) :
    ∃ r, Parser.parseTokens (scan source o.checkPatterns).tokens o.limit o.fuel = .ok r ∧ r.exhausted = false ∧
      p = ⟨r.tree, ((scan source o.checkPatterns).diagnostics ++ r.diagnostics).sortByPosition.locate source⟩ := by
  simp only [parse] at h
  split at h
  · cases h
  · rename_i r hr
    split at h
    · cases h
    · rename_i hfuel
      cases h
      exact ⟨r, hr, by simpa using hfuel, rfl⟩

/-- Ordering and locating diagnostics changes neither whether the limit was hit, nor does scanning say so. -/
theorem exists_atLimit_iff {source : Text} {checkPatterns : Bool} {ds : Diagnostics} :
    (∃ d ∈ ((scan source checkPatterns).diagnostics ++ ds).sortByPosition.locate source, d.AtLimit) ↔ ∃ d ∈ ds, d.AtLimit := by
  constructor
  · rintro ⟨d, hd, hlimit⟩
    obtain ⟨e, he, rfl⟩ := List.mem_map.mp hd
    rcases List.mem_append.mp (List.mem_mergeSort.mp he) with he | he
    · have hlexical := (Lexeme.lexical_problemsOf _ _ _ _ e he).problem
      rw [show e.problem = .recursionLimitExceeded from hlimit] at hlexical
      cases hlexical
    · exact ⟨e, he, hlimit⟩
  · rintro ⟨d, hd, hlimit⟩
    exact ⟨d.locate source, List.mem_map_of_mem (List.mem_mergeSort.mpr (List.mem_append_right _ hd)), hlimit⟩

/-- Two parses of a source under a limit and a higher one, both without bound on the fuel. If the first does not report that
the limit was hit, both give the same. If it does, what the parser reports under the lower limit is a list that it also begins
with under the higher limit, followed by the one diagnostic about the limit; and all tokens from the place of that diagnostic
to the end of the source are the leaves of one error in the tree. -/
theorem parse_raised_limit {source : Text} {checkPatterns : Bool} {l l' : Nat} {p p' : Parsed} (hl : l ≤ l')
    (hp : parse { limit := l, checkPatterns } source = .ok p) (hp' : parse { limit := l', checkPatterns } source = .ok p') :
    ((¬ ∃ d ∈ p.diagnostics, d.AtLimit) → p' = p) ∧
    ((∃ d ∈ p.diagnostics, d.AtLimit) →
      ∃ r r' ds d, Parser.parseTokens (scan source checkPatterns).tokens l none = .ok r ∧
        Parser.parseTokens (scan source checkPatterns).tokens l' none = .ok r' ∧
        r.diagnostics = ds ++ [d] ∧ d.AtLimit ∧ (∀ e ∈ ds, ¬ e.AtLimit) ∧ ds <+: r'.diagnostics ∧
        ∃ n before after, p.root.Within n ∧ n.kind = .error ∧ n.start = d.span.start ∧
          (scan source checkPatterns).tokens = before ++ after ∧ (∀ t ∈ before, t.stop ≤ d.span.start) ∧
          n.tree.leaves = after.map Token.piece) := by
  obtain ⟨r, hr, -, rfl⟩ := parse_eq_ok hp
  obtain ⟨r', hr', -, rfl⟩ := parse_eq_ok hp'
  obtain ⟨t, hrun, hfinish⟩ := Parser.parseTokens_eq_ok.mp hr
  have hholds := Parser.State.holds_of_finish hfinish
  have hbounded := Parser.bounded_program hrun
  have hrelaxed := Parser.parseTokens_relaxed hl hrun hfinish hr'
  simp only [exists_atLimit_iff]
  cases hover : t.overflowed with
  | false =>
    have hnone : ¬ ∃ d ∈ r.diagnostics, d.AtLimit := by
      rintro ⟨d, hd, hlimit⟩
      rw [hholds.reports, List.mem_reverse] at hd
      exact hbounded.within hover d hd hlimit
    refine ⟨fun _ => ?_, fun hlimit => absurd hlimit hnone⟩
    rcases hrelaxed with rfl | ⟨hover', _⟩
    · rfl
    · exact absurd (hover.symm.trans hover') nofun
  | true =>
    obtain ⟨d, ds, hreports, hlimit, hothers, before, after, hsplit, hstart, hnode⟩ := hbounded.beyond hover
    have hdiagnostics : r.diagnostics = ds.reverse ++ [d] := by rw [hholds.reports, hreports, List.reverse_cons]
    have hmem : d ∈ r.diagnostics := by rw [hdiagnostics]; exact List.mem_append_right _ List.mem_cons_self
    refine ⟨fun hnone => absurd ⟨d, hmem, hlimit⟩ hnone, fun _ => ?_⟩
    refine ⟨r, r', ds.reverse, d, hr, hr', hdiagnostics, hlimit, fun e he => hothers e (List.mem_reverse.mp he), ?_, ?_⟩
    · rcases hrelaxed with rfl | ⟨_, d', ds', hds', hprefix⟩
      · rw [hdiagnostics]
        exact List.prefix_append _ _
      · obtain ⟨rfl, _⟩ := List.append_inj' (hdiagnostics.symm.trans hds') rfl
        exact hprefix
    · refine ⟨_, before, after, hnode.within hholds.built hholds.below, rfl, rfl, hsplit, fun x hx => ?_, ?_⟩
      · have hstop := Token.stop_le_of_append hsplit x hx
        rwa [Nat.zero_add, ← hstart] at hstop
      · exact Tree.leavesOf_map_leaf after

/-- A stray parenthesis, and an array in an array: two levels of nesting are not enough for it, nine are. -/
theorem parse_raised_limit_brackets :
    ∃ p p' r r' ds d, parse { limit := 2 } ")\n[[1]]".toList = .ok p ∧ parse { limit := 9 } ")\n[[1]]".toList = .ok p' ∧
      Parser.parseTokens (scan ")\n[[1]]".toList false).tokens 2 none = .ok r ∧
      Parser.parseTokens (scan ")\n[[1]]".toList false).tokens 9 none = .ok r' ∧
      r.diagnostics = ds ++ [d] ∧ d.AtLimit ∧ ds <+: r'.diagnostics ∧
      ∃ n, p.root.Within n ∧ n.kind = .error ∧ n.start = d.span.start := by
  have hlow : (parse { limit := 2 } ")\n[[1]]".toList).toOption.isSome = true := by decide +kernel
  have hhit : (Parser.parseTokens (scan ")\n[[1]]".toList false).tokens 2 none).toOption.any
      (·.diagnostics.any (·.problem == .recursionLimitExceeded)) = true := by decide +kernel
  have hhigh : (parse { limit := 9 } ")\n[[1]]".toList).toOption.isSome = true := by decide +kernel
  cases hp : parse { limit := 2 } ")\n[[1]]".toList with
  | error f => rw [hp] at hlow; cases hlow
  | ok p =>
    cases hp' : parse { limit := 9 } ")\n[[1]]".toList with
    | error f => rw [hp'] at hhigh; cases hhigh
    | ok p' =>
      have hlimit : ∃ d ∈ p.diagnostics, d.AtLimit := by
        obtain ⟨r, hr, -, rfl⟩ := parse_eq_ok hp
        rw [show Parser.parseTokens (scan ")\n[[1]]".toList false).tokens 2 none = .ok r from hr] at hhit
        obtain ⟨d, hd, hproblem⟩ := List.any_eq_true.mp hhit
        exact exists_atLimit_iff.mpr ⟨d, hd, beq_iff_eq.mp hproblem⟩
      obtain ⟨r, r', ds, d, hr, hr', hds, hd, -, hprefix, n, _, _, hn, hkind, hstart, -⟩ :=
        (parse_raised_limit (by decide) hp hp').2 hlimit
      exact ⟨p, p', r, r', ds, d, rfl, rfl, hr, hr', hds, hd, hprefix, n, hn, hkind, hstart⟩

end Remap
