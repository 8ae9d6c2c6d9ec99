import Remap.Proofs.Parser.Spaced
import Remap.Proofs.RaisedLimit

/-!
# Offsets that are reported twice

No offset is reported twice in a parse, as long as no diagnostic points back.
-/

namespace Remap

/-- What the parser reports about a source, in the order in which it does: if two diagnostics start at the same offset, the
later of which is not about the limit, then a diagnostic that points back was made after the first and no later than the
second. In particular, where no diagnostic points back, no two start at the same offset. -/
theorem parse_repeated_start {o : Options} {source : Text} {p : Parsed} (hp : parse o source = .ok p) :
    ∃ r, Parser.parseTokens (scan source o.checkPatterns).tokens o.limit o.fuel = .ok r ∧
      p.diagnostics = ((scan source o.checkPatterns).diagnostics ++ r.diagnostics).sortByPosition.locate source ∧
      ∀ before d between e after, r.diagnostics = before ++ d :: (between ++ e :: after) → ¬ e.AtLimit →
        d.span.start = e.span.start → ∃ f ∈ between ++ [e], f.PointsBack := by
  obtain ⟨r, hr, -, rfl⟩ := parse_eq_ok hp
  refine ⟨r, hr, rfl, fun before d between e after hsplit hlimit hstart => ?_⟩
  have hspaced := Parser.spaced_parseTokens hr
  rw [hsplit] at hspaced
  simp only [List.reverse_append, List.reverse_cons, List.append_assoc, List.singleton_append] at hspaced
  obtain ⟨f, hf, hback⟩ := hspaced.of_append.exists_pointsBack hlimit hstart
  refine ⟨f, ?_, hback⟩
  simpa [or_comm] using hf

/-- A closure whose parameters are not closed and repeat a name: the end of the source is reported, then the parameter, and then
the end of the source again. -/
theorem parse_repeated_start_closure :
    ∃ p r d g e, parse {} "f() -> |x, x".toList = .ok p ∧
      Parser.parseTokens (scan "f() -> |x, x".toList false).tokens 256 none = .ok r ∧ r.diagnostics = [d, g, e] ∧
      ¬ e.AtLimit ∧ d.span.start = e.span.start ∧ ∃ f ∈ [g, e], f.PointsBack := by
  have hparse : (parse {} "f() -> |x, x".toList).toOption.isSome = true := by decide +kernel
  have hthree : (Parser.parseTokens (scan "f() -> |x, x".toList false).tokens 256 none).toOption.map
      (·.diagnostics.map fun d => (d.problem, d.span.start)) =
      some [(.unexpectedEndOfInput, 12), (.duplicateClosureParam, 11), (.unexpectedEndOfInput, 12)] := by decide +kernel
  cases hp : parse {} "f() -> |x, x".toList with
  | error f => rw [hp] at hparse; cases hparse
  | ok p =>
    obtain ⟨r, hr, -, hback⟩ := parse_repeated_start hp
    replace hr : Parser.parseTokens (scan "f() -> |x, x".toList false).tokens 256 none = .ok r := hr
    rw [hr] at hthree
    obtain ⟨d, ds, hds, hd, hrest⟩ := List.map_eq_cons_iff.mp (Option.some.inj hthree)
    obtain ⟨g, es, rfl, -, hrest⟩ := List.map_eq_cons_iff.mp hrest
    obtain ⟨e, fs, rfl, he, hrest⟩ := List.map_eq_cons_iff.mp hrest
    obtain rfl := List.map_eq_nil_iff.mp hrest
    simp only [Prod.mk.injEq] at hd he
    have hlimit : ¬ e.AtLimit := by simp [Diagnostic.AtLimit, he.1]
    have hstart : d.span.start = e.span.start := hd.2.trans he.2.symm
    exact ⟨p, r, d, g, e, rfl, hr, hds, hlimit, hstart, hback [] d [g] e [] hds hlimit hstart⟩

/-- There the end of the source is reported twice. -/
theorem parse_unclosed_parameters :
    (parse {} "f() -> |x, x".toList).toOption.isSome = true ∧
      (Parser.parseTokens (scan "f() -> |x, x".toList false).tokens 256 none).toOption.map
        (·.diagnostics.map fun d => (d.problem, d.span.start)) =
      some [(.unexpectedEndOfInput, 12), (.duplicateClosureParam, 11), (.unexpectedEndOfInput, 12)] := by
  decide +kernel

end Remap
