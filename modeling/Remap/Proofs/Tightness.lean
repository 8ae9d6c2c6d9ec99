import Remap.Proofs.Completeness
import Remap.Proofs.Parser.Trims.Grammar

/-!
# Nodes begin and end tightly

In the tree of a source that parses without diagnostics, no node below the root ends with a blank, a comment or a line end, and
but for two kinds of nodes none begins with one: the parameters of a closure, and the arguments of a call with a `!`, are opened
right after the token before them and take in what comes between.
-/

namespace Remap

namespace Parser

/-- A program that is parsed silently leaves neat children. -/
theorem accepts_program (n : Nat) {s : State} (hs : s.Stands true { begun := true }) :
    Accepts n program s fun _ t => ∃ cs, t.row = s.row ++ [.node .program cs] ∧ Tree.Neat cs := by
  have hbody : Accepts n (do rule (.statements none); act .settle) (s.pushed (some .program)) fun _ t =>
      State.SameFrame (s.pushed (some .program)) t ∧ Tree.Neat t.top.built := by
    have hpushed : (s.pushed (some .program)).Stands true (Stance.inside { begun := true } true) := Trims.pushed hs (.inl rfl) _
    have henters : (Rule.statements none).Enters true (Stance.inside { begun := true } true) := rfl
    refine .bind ((trims_runRule n _ true _ henters _ hpushed).imp fun _ t ht => .single fun hsteady _ u hsettle _ => ?_)
    obtain ⟨hframe, τ, -, hstands⟩ := ht
    cases hsettle
    have hskip := t.still_skip.frame
    have hdrain := (t.hushes_skip.steady hsteady).still_drain.frame
    exact ⟨(hframe.trans hskip).trans hdrain, hstands.skip.drain.neat⟩
  exact .node (hbody.imp fun _ t ht => ⟨ht.1, fun u _ _ hrow => ⟨_, hrow, ht.2.reverse⟩⟩)

end Parser

/-- The tree of a source that parses without diagnostics is tight. -/
theorem tight_of_parse {o : Options} {source : Text} {p : Parsed} (h : parse o source = .ok p) (hclean : p.diagnostics = []) :
    p.tree.Tight := by
  obtain ⟨hscan, t, hrun, hsilent, hholds⟩ := silent_of_parse h hclean
  have hsteady : (Parser.State.start (scan source o.checkPatterns).tokens o.limit o.fuel).Steady :=
    ⟨fun _ => ⟨rfl, rfl⟩, fun _ ht => absurd ht List.not_mem_nil⟩
  have hstands : (Parser.State.start (scan source o.checkPatterns).tokens o.limit o.fuel).Stands true { begun := true } :=
    ⟨(tidy_scan hscan).whole, .nil, .inl rfl, nofun, fun _ => .inl rfl, nofun, nofun, nofun⟩
  obtain ⟨cs, hrow, hneat⟩ := Parser.accepts_program _ hstands hsteady () t hrun hsilent
  have hmem : .node .program cs ∈ [p.tree] := by
    have hrow : .node .program cs ∈ t.row := hrow ▸ List.mem_append_right _ List.mem_cons_self
    have hmem := (List.mem_filter.mp hrow).1
    rwa [hholds.built] at hmem
  rw [← List.mem_singleton.mp hmem]
  exact hneat.node _

/-- A leaf among the children is found. -/
theorem Node.isSome_leaf?_of_mem {n : Node} {k : Kind} {x : Text} (h : .leaf k x ∈ n.tree.children) : (n.leaf? (· = k)).isSome = true := by
  rw [← Node.map_tree_placeAll n.start n.tree.children] at h
  obtain ⟨m, hm, htree⟩ := List.mem_map.mp h
  refine List.find?_isSome.mpr ⟨m, List.mem_filter.mpr ⟨hm, ?_⟩, ?_⟩
  · simp only [isLeaf, htree]
  · simp only [kind, htree, Tree.kind, decide_true]

/-- In the tree of a source that parses without diagnostics, whatever the options, every node below the root ends with a token that
is neither trivia nor a newline; and it begins with one too, unless it is the parameters of a closure, or the arguments of a call
that has a `!`. -/
theorem parse_tight (o : Options) (source : Text) (p : Parsed) (h : parse o source = .ok p) (hclean : p.diagnostics = [])
    (parent n : Node) (hparent : p.root.Within parent) (hn : n ∈ parent.nodes) :
    n.tree.Closes ∧
      (n.kind ≠ .closureParams → (n.kind = .argumentList → (parent.leaf? (· = .bang)).isSome = false) → n.tree.Opens) := by
  obtain ⟨hmem, hleaf⟩ := List.mem_filter.mp hn
  have htight : p.root.tree.Tight := tight_of_parse h hclean
  have htrim := htight.trim_within hparent hmem (by simpa using hleaf)
  refine ⟨htrim.closes, fun hparams harguments => htrim.opens.resolve_left ?_⟩
  rintro (hk | ⟨hk, x, hx⟩)
  · exact hparams hk
  · have hnone := harguments hk
    rw [Node.isSome_leaf?_of_mem hx] at hnone
    cases hnone

/-- The blanks inside the parentheses of a call are inside its arguments, those around them are not. -/
theorem parse_tight_arguments : ∃ p parent n, parse {} ['f', ' ', '(', ' ', '1', ' ', ')', ' '] = .ok p ∧ p.diagnostics = [] ∧
    p.root.Within parent ∧ n ∈ parent.nodes ∧ n.text = ['(', ' ', '1', ' ', ')'] ∧ n.tree.Closes ∧ n.tree.Opens := by
  have hok : (parse {} ['f', ' ', '(', ' ', '1', ' ', ')', ' ']).toOption.any (fun p => p.diagnostics.isEmpty &&
      p.root.nodes.any fun call => (call.leaf? (· = .bang)).isSome = false &&
        call.nodes.any fun n => n.kind = .argumentList && n.text = ['(', ' ', '1', ' ', ')']) = true := by decide +kernel
  cases hp : parse {} ['f', ' ', '(', ' ', '1', ' ', ')', ' '] with
  | error f =>
    rw [hp] at hok
    cases hok
  | ok p =>
    rw [hp] at hok
    simp only [Except.toOption, Option.any_some, Bool.and_eq_true, List.isEmpty_iff, List.any_eq_true, decide_eq_true_eq] at hok
    obtain ⟨hclean, call, hcall, hbang, n, hn, hkind, htext⟩ := hok
    have hwithin : p.root.Within call := .child .root (List.mem_filter.mp hcall).1
    obtain ⟨hcloses, hopens⟩ := parse_tight {} _ p hp hclean call n hwithin hn
    exact ⟨p, call, n, rfl, hclean, hwithin, hn, htext, hcloses, hopens (by rw [hkind]; decide) fun _ => hbang⟩

/-- After a `!` the blank before the parentheses is taken into the arguments. -/
theorem parse_loose_arguments :
    ¬ ∀ (source : Text) (p : Parsed), parse {} source = .ok p → p.diagnostics = [] → ∀ parent n, p.root.Within parent →
      n ∈ parent.nodes → n.kind ≠ .program → n.kind ≠ .closureParams → n.tree.Opens ∧ n.tree.Closes := by
  intro hall
  have hok : (parse {} ['f', '!', ' ', '(', '1', ')']).toOption.any (fun p => p.diagnostics.isEmpty &&
      p.root.nodes.any fun call => call.nodes.any fun n =>
        n.kind = .argumentList && n.tree.leaves.head?.any (·.1 = .whitespace)) = true := by decide +kernel
  cases hp : parse {} ['f', '!', ' ', '(', '1', ')'] with
  | error f =>
    rw [hp] at hok
    cases hok
  | ok p =>
    rw [hp] at hok
    simp only [Except.toOption, Option.any_some, Bool.and_eq_true, List.isEmpty_iff, List.any_eq_true, decide_eq_true_eq] at hok
    obtain ⟨hclean, call, hcall, n, hn, hkind, hblank⟩ := hok
    obtain ⟨⟨⟨k, x⟩, hx, htrivia, -⟩, -⟩ := hall _ p hp hclean call n (.child .root (List.mem_filter.mp hcall).1) hn
      (by rw [hkind]; decide) (by rw [hkind]; decide)
    rw [Option.mem_def.mp hx, Option.any_some, decide_eq_true_eq] at hblank
    rw [hblank] at htrivia
    cases htrivia

end Remap
