import Remap.Proofs.Parser.Outlook
import Remap.Proofs.RaisedLimit

/-!
# Errors in the tree are reported

Wherever the parser skips over something that it cannot understand it has reported that: every error in the tree begins at an
offset at which the parser reported a problem. A report can be left out, but only if one was made at the very same offset just
before, or if the limit was hit; and then nothing is left that could be skipped.
-/

namespace Remap

namespace Parser

variable {α : Type}

namespace State

/-- A node in a row to which leaves were added was in it before. -/
theorem Has.of_leaves {s t : State} {us : List Token} {n : Node} {k : Kind} {cs : List Tree} (h : t.Has n)
    (hforest : t.forest = s.forest ++ us.map Token.leaf) (hn : n.tree = .node k cs) : s.Has n := by
  obtain ⟨m, hm, hwithin⟩ := h
  rw [hforest, Node.placeAll_append] at hm
  rcases List.mem_append.mp hm with hm | hm
  · exact ⟨m, hm, hwithin⟩
  · -- a leaf has nothing within it
    have htree : m.tree ∈ us.map Token.leaf := by
      rw [← Node.map_tree_placeAll (0 + Tree.bytesOf s.forest) (us.map Token.leaf)]
      exact List.mem_map_of_mem hm
    obtain ⟨u, -, hu⟩ := List.mem_map.mp htree
    rcases hwithin.eq_or_child with rfl | ⟨c, hc, -⟩
    · cases hu.trans hn
    · simp [Node.elements, ← hu, Token.leaf, Tree.children, Node.placeAll] at hc

/-- A node in a row whose end was gathered into a node was in it before, or is that node. -/
theorem Has.of_gathered {s t : State} {before inside : List Tree} {n : Node} {k : Kind} (h : t.Has n)
    (hs : s.forest = before ++ inside) (ht : t.forest = before ++ [.node k inside]) :
    s.Has n ∨ n = ⟨Tree.bytesOf before, .node k inside⟩ := by
  obtain ⟨m, hm, hwithin⟩ := h
  rw [ht, Node.placeAll_append, Nat.zero_add] at hm
  unfold Has
  rw [hs, Node.placeAll_append, Nat.zero_add]
  rcases List.mem_append.mp hm with hm | hm
  · exact .inl ⟨m, List.mem_append_left _ hm, hwithin⟩
  · simp only [Node.placeAll, List.mem_singleton] at hm
    subst hm
    rcases hwithin.eq_or_child with rfl | ⟨c, hc, hn⟩
    · exact .inr rfl
    · exact .inl ⟨c, List.mem_append_right _ hc, hn⟩

/-- A problem was reported at the beginning of every error, finished or not. -/
structure Explained (s : State) : Prop where
  built : ∀ n cs, s.Has n → n.tree = .node .error cs → s.Reported n.start
  unfinished : ∀ f ∈ s.top :: s.below, f.label = some .error → s.Reported f.start

/-- The frames around a new one are those that were there, with what was held back in the innermost of them. -/
theorem exists_of_mem_pushed {s : State} {label : Option Kind} {f : Frame} {k : Kind} (hf : f ∈ (s.pushed label).below)
    (hlabel : f.label = some k) : ∃ g ∈ s.top :: s.below, g.label = some k ∧ g.start = f.start := by
  simp only [pushed, drain_eq] at hf
  rcases List.mem_cons.mp hf with rfl | hf
  · exact ⟨s.top, List.mem_cons_self, hlabel, rfl⟩
  · exact ⟨f, List.mem_cons_of_mem _ hf, hlabel, rfl⟩

/-- Adding leaves explains nothing away, if the frames begin where they did. -/
theorem Explained.of_leaves {s t : State} (h : s.Explained) (hreports : s.reports <:+ t.reports)
    (hforest : ∃ us : List Token, t.forest = s.forest ++ us.map Token.leaf)
    (hframes : ∀ f ∈ t.top :: t.below, f.label = some .error →
      t.Reported f.start ∨ ∃ g ∈ s.top :: s.below, g.label = some .error ∧ g.start = f.start) : t.Explained := by
  obtain ⟨us, hforest⟩ := hforest
  refine ⟨fun n cs hn herror => (h.built n cs (hn.of_leaves hforest herror) herror).mono hreports, fun f hf herror => ?_⟩
  rcases hframes f hf herror with hreported | ⟨g, hg, hlabel, hstart⟩
  · exact hreported
  · exact hstart ▸ (h.unfinished g hg hlabel).mono hreports

end State

/-- An action that the outlook permits leaves no error unexplained. -/
theorem explained_perform {ps : List (Kind × Text)} {action : Action α} {σ : Outlook} {s t : State} {a : α}
    (h : action.perform s = .ok (a, t)) (hpermits : action.permits σ = true) (hs : s.Orderly ps) (hσ : σ.Shows s)
    (he : s.Explained) : t.Explained := by
  have hreports := (respected_keeps.perform h).reports
  have hanchored : t.Anchored := anchored_perform h hs.reading.sized hs.anchored
  cases hgathers : action.gathers with
  | true =>
    cases action with
    | closeNode =>
      simp only [Action.perform] at h
      split at h
      · rename_i k f fs hlabel hbelow
        cases h
        have hforest : s.forest = (treesOfFrames fs ++ f.built.reverse) ++ s.top.built.reverse := by
          simp [State.forest, treesOfFrames, hbelow]
        refine ⟨fun n cs hn herror => ?_, fun g hg hgerror => ?_⟩
        · rcases hn.of_gathered (k := k) hforest (by simp [State.forest, treesOfFrames]) with hn | rfl
          · exact he.built n cs hn herror
          · cases herror
            have hstart : s.top.start = Tree.bytesOf (treesOfFrames fs ++ f.built.reverse) := by
              rw [hs.anchored.1, hbelow, treesOfFrames]
            exact hstart ▸ he.unfinished s.top List.mem_cons_self hlabel
        · rcases List.mem_cons.mp hg with rfl | hg
          · exact he.unfinished f (by simp [hbelow]) hgerror
          · exact he.unfinished g (by simp [hbelow, hg]) hgerror
      · cases h
    | _ => cases hgathers
  | false =>
    refine he.of_leaves hreports (forest_perform hgathers h) fun f hf herror => ?_
    by_cases hflat : action.isFlat = true
    · obtain ⟨hfollows, -⟩ := flat_perform hflat h
      rcases List.mem_cons.mp hf with rfl | hf
      · refine .inr ⟨s.top, List.mem_cons_self, hfollows.label ▸ herror, ?_⟩
        rw [hs.anchored.1, hanchored.1, hfollows.below]
      · exact .inr ⟨f, List.mem_cons_of_mem _ (hfollows.below ▸ hf), herror, rfl⟩
    cases action with
    | openNode k =>
      cases h
      rcases List.mem_cons.mp hf with rfl | hf
      · -- the error begins at the next token, where a problem was reported
        cases herror
        have htold : s.Reported s.front := hσ.told (by simpa [Action.permits] using hpermits)
        refine .inl ?_
        have hstart : s.drain.placed = s.front := by rw [State.drain_eq, State.front]
        exact hstart ▸ htold.mono hreports
      · exact .inr (State.exists_of_mem_pushed hf herror)
    | mark =>
      cases h
      rcases List.mem_cons.mp hf with rfl | hf
      · cases herror
      · exact .inr (State.exists_of_mem_pushed hf herror)
    | wrap k =>
      simp only [Action.perform] at h
      split at h <;> cases h
      rename_i hlabel
      rcases List.mem_cons.mp hf with rfl | hf
      · cases herror
        simp [Action.permits] at hpermits
      · rcases List.mem_cons.mp hf with rfl | hf
        · exact .inr ⟨s.top, List.mem_cons_self, herror, rfl⟩
        · exact .inr ⟨f, List.mem_cons_of_mem _ hf, herror, rfl⟩
    | unmark =>
      simp only [Action.perform] at h
      split at h
      · rename_i g gs hlabel hbelow
        cases h
        rcases List.mem_cons.mp hf with rfl | hf
        · exact .inr ⟨g, by simp [hbelow], herror, rfl⟩
        · exact .inr ⟨f, by simp [hbelow, hf], herror, rfl⟩
      · cases h
    | enter =>
      rw [State.perform_enter] at h
      split at h
      · cases h
        exact .inr ⟨f, hf, herror, rfl⟩
      · split at h <;> cases h
        · exact .inr ⟨f, hf, herror, rfl⟩
        · refine .inr ⟨f, ?_, herror, rfl⟩
          simpa only [State.overrun, State.skip_eq] using hf
    | leave =>
      cases h
      exact .inr ⟨f, hf, herror, rfl⟩
    | closeNode => cases hgathers
    | _ => exact absurd rfl hflat

/-- Where a parse ends that was given enough fuel, every error is explained. -/
theorem explained_program {ps : List (Kind × Text)} {n limit : Nat} {fuel : Option Nat} {t : State} {a : Unit}
    (hrun : program.run (runRule n) (.start (Token.place 0 none ps) limit fuel) = .ok (a, t)) (hfuel : t.exhausted = false) :
    t.Explained := by
  have hstart : (State.start (Token.place 0 none ps) limit fuel).Explained := by
    refine ⟨fun n cs hn _ => ?_, fun f hf herror => ?_⟩
    · obtain ⟨m, hm, -⟩ := hn
      cases hm
    · simp only [State.start, List.mem_singleton] at hf
      subst hf
      cases herror
  obtain ⟨-, hexplained⟩ := (Heeded.of_step explained_perform).program hrun hfuel
  exact hexplained hstart

end Parser

/-- A source that is parsed, whatever the options: every error in its tree begins at an offset at which the parser reported a
problem. So without diagnostics there is no error anywhere in the tree. -/
theorem parse_errors_reported {o : Options} {source : Text} {p : Parsed} (hp : parse o source = .ok p) :
    (∃ r, Parser.parseTokens (scan source o.checkPatterns).tokens o.limit o.fuel = .ok r ∧
      p.diagnostics = ((scan source o.checkPatterns).diagnostics ++ r.diagnostics).sortByPosition.locate source ∧
      ∀ n, p.root.Within n → n.isLeaf = false → n.kind = .error → ∃ d ∈ r.diagnostics, d.span.start = n.start) ∧
    (p.diagnostics = [] → ∀ n, p.root.Within n → n.isLeaf = false → n.kind ≠ .error) := by
  obtain ⟨r, hr, hfuel, rfl⟩ := parse_eq_ok hp
  obtain ⟨t, hrun, hfinish⟩ := Parser.parseTokens_eq_ok.mp hr
  have hholds := Parser.State.holds_of_finish hfinish
  have hexplained := Parser.explained_program hrun (hholds.exhausted ▸ hfuel)
  have herrors (n : Node) (hn : Node.Within ⟨0, r.tree⟩ n) (hleaf : n.isLeaf = false) (herror : n.kind = .error) :
      ∃ d ∈ r.diagnostics, d.span.start = n.start := by
    obtain ⟨start, tree⟩ := n
    cases tree with
    | leaf k text => cases hleaf
    | node k cs =>
      cases herror
      have hroot : (⟨0, r.tree⟩ : Node) ∈ Node.placeAll 0 t.forest := by
        simp [Parser.State.forest, Parser.treesOfFrames, hholds.built, hholds.below, Node.placeAll]
      obtain ⟨d, hd, hstart⟩ := hexplained.built _ cs ⟨_, hroot, hn⟩ rfl
      exact ⟨d, hholds.reports ▸ List.mem_reverse.mpr hd, hstart⟩
  refine ⟨⟨r, hr, rfl, herrors⟩, fun hnone n hn hleaf herror => ?_⟩
  obtain ⟨d, hd, -⟩ := herrors n hn hleaf herror
  have hmem : d.locate source ∈ ((scan source o.checkPatterns).diagnostics ++ r.diagnostics).sortByPosition.locate source :=
    List.mem_map_of_mem (List.mem_mergeSort.mpr (List.mem_append_right _ hd))
  exact List.eq_nil_iff_forall_not_mem.mp hnone _ hmem

/-- A bracket where a value is missing is skipped. The second report at its offset is left out, the first one is there. -/
theorem parse_errors_reported_bracket :
    ∃ p r n d, parse {} "x = ]\n[1".toList = .ok p ∧
      Parser.parseTokens (scan "x = ]\n[1".toList false).tokens 256 none = .ok r ∧ p.root.Within n ∧ n.isLeaf = false ∧
      n.kind = .error ∧ d ∈ r.diagnostics ∧ d.span.start = n.start := by
  have herror : (parse {} "x = ]\n[1".toList).toOption.any (fun p =>
      p.root.elements.any fun n => !n.isLeaf && n.kind == .error) = true := by decide +kernel
  cases hp : parse {} "x = ]\n[1".toList with
  | error f => rw [hp] at herror; cases herror
  | ok p =>
    rw [hp] at herror
    obtain ⟨n, hn, hkind⟩ := List.any_eq_true.mp herror
    simp only [Bool.and_eq_true, Bool.not_eq_true', beq_iff_eq] at hkind
    obtain ⟨⟨r, hr, -, hreported⟩, -⟩ := parse_errors_reported hp
    have hwithin : p.root.Within n := .child .root hn
    obtain ⟨d, hd, hstart⟩ := hreported n hwithin hkind.1 hkind.2
    exact ⟨p, r, n, d, rfl, hr, hwithin, hkind.1, hkind.2, hd, hstart⟩

end Remap
