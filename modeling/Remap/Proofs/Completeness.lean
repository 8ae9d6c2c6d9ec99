import Remap.Program
import Remap.Proofs.Parser.Builds.Grammar

/-!
# Accepted programs are complete

A source that parses without diagnostics has a tree in which nothing is missing: there is no error, and every part that the
typed view leaves open is there.
-/

namespace Remap

/-- Ordering and locating diagnostics adds none and loses none. -/
theorem eq_nil_of_located {source : Text} {ds : Diagnostics} (h : ds.sortByPosition.locate source = []) : ds = [] := by
  rw [Diagnostics.locate, List.map_eq_nil_iff, Diagnostics.sortByPosition] at h
  have hlength := congrArg List.length h
  rw [List.length_mergeSort] at hlength
  exact List.length_eq_zero_iff.mp hlength

/-- A source parses without diagnostics if scanning and parsing both report nothing. -/
theorem silent_of_parse {o : Options} {source : Text} {p : Parsed} (h : parse o source = .ok p) (hclean : p.diagnostics = []) :
    (scan source o.checkPatterns).diagnostics = [] ∧
      ∃ t, Parser.program.run (Parser.runRule (Parser.stepsFor (scan source o.checkPatterns).tokens.length))
          (.start (scan source o.checkPatterns).tokens o.limit o.fuel) = .ok ((), t) ∧
        t.Silent ∧ t.Holds ⟨p.tree, [], false⟩ := by
  simp only [parse] at h
  split at h
  · cases h
  · rename_i r hr
    split at h
    · cases h
    · rename_i hfuel
      cases h
      obtain ⟨hscan, hdiagnostics⟩ := List.append_eq_nil_iff.mp (eq_nil_of_located hclean)
      obtain ⟨t, hrun, hfinish⟩ := Parser.parseTokens_eq_ok.mp hr
      have hholds := Parser.State.holds_of_finish hfinish
      have hreports : t.reports = [] := List.reverse_eq_nil_iff.mp (hholds.reports ▸ hdiagnostics)
      have hexhausted : r.exhausted = false := by simpa using hfuel
      exact ⟨hscan, t, hrun, ⟨hreports, hholds.exhausted ▸ hexhausted⟩, hholds.built, hholds.below, by rw [hreports]; rfl,
        hexhausted ▸ hholds.exhausted⟩

/-- The tree of a source that parses without diagnostics is sound. -/
theorem sound_of_parse {o : Options} {source : Text} {p : Parsed} (h : parse o source = .ok p) (hclean : p.diagnostics = []) :
    p.tree.Sound := by
  obtain ⟨hscan, t, hrun, hsilent, hholds⟩ := silent_of_parse h hclean
  have hsteady : (Parser.State.start (scan source o.checkPatterns).tokens o.limit o.fuel).Steady :=
    ⟨fun _ => ⟨rfl, rfl⟩, fun _ ht => absurd ht List.not_mem_nil⟩
  have hfit : (Parser.State.start (scan source o.checkPatterns).tokens o.limit o.fuel).Fit :=
    ⟨⟨false, tidy_scan hscan⟩, fun _ hx => absurd hx List.not_mem_nil⟩
  obtain ⟨hfit', -, cs, hrow⟩ := Parser.builds_program _ (κ := Parser.Anything) _ hfit trivial rfl hsteady () t hrun hsilent
  have hmem : .node .program cs ∈ [p.tree] := by
    have hrow : .node .program cs ∈ t.row := hrow ▸ List.mem_append_right _ List.mem_cons_self
    have hmem := (List.mem_filter.mp hrow).1
    rwa [hholds.built] at hmem
  rw [← List.mem_singleton.mp hmem]
  exact hfit'.sound _ (hrow ▸ List.mem_append_right _ List.mem_cons_self)

/-- In the tree of a source that parses without diagnostics every node is complete, whatever the options: none is an error,
every operator has its operands, every assignment its target and its value, every string its two quotes, and so on for every
part that the typed view may find missing in a recovered tree. -/
theorem parse_isComplete (o : Options) (source : Text) (p : Parsed) (h : parse o source = .ok p) (hclean : p.diagnostics = [])
    (n : Node) (hn : p.root.Within n) : n.isComplete = true :=
  Tree.Sound.isComplete (sound_of_parse h hclean) hn

/-- Assigning the sum of a field and an index to a name, with a negative index and a string in the path. -/
theorem parse_isComplete_assignment :
    ∃ p, parse {} ['a', '=', '.', '"', 'b', '"', '+', 'c', '[', '-', '1', ']'] = .ok p ∧ p.diagnostics = [] ∧
      p.root.tree.children ≠ [] ∧ ∀ n, p.root.Within n → n.isComplete = true := by
  have hok : (parse {} ['a', '=', '.', '"', 'b', '"', '+', 'c', '[', '-', '1', ']']).toOption.any
      (fun p => p.diagnostics.isEmpty && !p.root.tree.children.isEmpty) = true := by decide +kernel
  cases hp : parse {} ['a', '=', '.', '"', 'b', '"', '+', 'c', '[', '-', '1', ']'] with
  | error f =>
    rw [hp] at hok
    cases hok
  | ok p =>
    rw [hp] at hok
    simp only [Except.toOption, Option.any_some, Bool.and_eq_true, List.isEmpty_iff, Bool.not_eq_true',
      List.isEmpty_eq_false_iff] at hok
    exact ⟨p, rfl, hok.1, hok.2, fun n hn => parse_isComplete {} _ p hp hok.1 n hn⟩

end Remap
