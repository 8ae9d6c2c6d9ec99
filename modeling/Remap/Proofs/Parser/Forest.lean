import Remap.Proofs.Parser.Leaves
import Remap.Proofs.Parser.Returns
import Remap.Proofs.Parser.Visit
import Remap.Proofs.Token.Tiling
import Remap.Proofs.Tree.Complete

/-!
# The trees of a state

The unfinished nodes of a state, read from the outermost to the innermost, hold one row of trees. An action adds leaves at
its end, or gathers some trees at its end into a node; it takes nothing away. So a node that was built once is somewhere
within the row of every later state, at the same offset, and at last within the tree of the whole program.
-/

namespace Remap

namespace Node

theorem placeAll_append (offset : Nat) (ts us : List Tree) :
    placeAll offset (ts ++ us) = placeAll offset ts ++ placeAll (offset + Tree.bytesOf ts) us := by
  induction ts generalizing offset with
  | nil => rfl
  | cons t ts ih => simp only [List.cons_append, placeAll, ih, Tree.bytesOf, Nat.add_assoc]

theorem Within.trans {m n r : Node} (h : m.Within n) (h' : n.Within r) : m.Within r := by
  induction h' with
  | root => exact h
  | child _ hmem ih => exact .child ih hmem

/-- What is within a tree is that tree or within one of its children. -/
theorem Within.eq_or_child {m n : Node} (h : m.Within n) : n = m ∨ ∃ c ∈ m.elements, c.Within n := by
  induction h with
  | root => exact .inl rfl
  | @child n c _ hmem ih =>
    rcases ih with rfl | ⟨d, hd, hn⟩
    · exact .inr ⟨c, hmem, .root⟩
    · exact .inr ⟨d, hd, .child hn hmem⟩

end Node

mutual
/-- A tree is as large as what its leaves spell out. -/
theorem Tree.bytes_eq_spelled : (t : Tree) → t.bytes = Text.bytes (spelled t.leaves)
  | .leaf k t => by simp [Tree.bytes, Tree.leaves]
  | .node _ cs => by
    rw [Tree.bytes, Tree.leaves]
    exact Tree.bytesOf_eq_spelled cs
/-- A row of trees is as large as what its leaves spell out. -/
theorem Tree.bytesOf_eq_spelled : (ts : List Tree) → Tree.bytesOf ts = Text.bytes (spelled (Tree.leavesOf ts))
  | [] => rfl
  | t :: ts => by
    rw [Tree.bytesOf, Tree.leavesOf, spelled_append, Text.bytes_append, Tree.bytes_eq_spelled t, Tree.bytesOf_eq_spelled ts]
end

theorem Tree.bytesOf_append (ts us : List Tree) : bytesOf (ts ++ us) = bytesOf ts + bytesOf us := by
  induction ts with
  | nil => exact (Nat.zero_add _).symm
  | cons t ts ih => simp only [List.cons_append, bytesOf, ih, Nat.add_assoc]

namespace Node

/-- A child stands behind the children before it. -/
theorem exists_split {n c : Node} (h : c ∈ n.elements) :
    ∃ before after, n.tree.children = before ++ c.tree :: after ∧ c.start = n.start + Tree.bytesOf before := by
  unfold elements at h
  generalize n.start = offset at h ⊢
  generalize n.tree.children = cs at h ⊢
  induction cs generalizing offset with
  | nil => cases h
  | cons t cs ih =>
    rcases List.mem_cons.mp h with rfl | h
    · exact ⟨[], cs, rfl, rfl⟩
    · obtain ⟨before, after, hsplit, hstart⟩ := ih (offset + t.bytes) h
      exact ⟨t :: before, after, by rw [hsplit, List.cons_append], by rw [hstart, Tree.bytesOf, Nat.add_assoc]⟩

/-- What is within a tree covers some of its leaves in a row, and begins behind the leaves before them. -/
theorem Within.exists_leaves {root n : Node} (hn : root.Within n) :
    ∃ before after, root.tree.leaves = before ++ (n.tree.leaves ++ after) ∧ n.start = root.start + Text.bytes (spelled before) := by
  induction hn with
  | root => exact ⟨[], [], by rw [List.append_nil]; rfl, rfl⟩
  | @child n c _ hmem ih =>
    obtain ⟨before, after, hleaves, hstart⟩ := ih
    obtain ⟨left, right, hchildren, hplace⟩ := exists_split hmem
    have hrow : n.tree.leaves = Tree.leavesOf left ++ (c.tree.leaves ++ Tree.leavesOf right) := by
      obtain ⟨start, tree⟩ := n
      cases tree with
      | leaf k t => exact absurd hchildren (by simp [Tree.children])
      | node k cs =>
        rw [Tree.leaves, show cs = left ++ c.tree :: right from hchildren, Tree.leavesOf_append, Tree.leavesOf]
    refine ⟨before ++ Tree.leavesOf left, Tree.leavesOf right ++ after, ?_, ?_⟩
    · rw [hleaves, hrow]
      simp only [List.append_assoc]
    · rw [hplace, hstart, Tree.bytesOf_eq_spelled, spelled_append, Text.bytes_append, Nat.add_assoc]

end Node

namespace Parser

variable {α : Type}

/-- The trees in a stack of frames, whose innermost frame comes first and holds the last trees. -/
def treesOfFrames : List Frame → List Tree
  | [] => []
  | f :: fs => treesOfFrames fs ++ f.built.reverse

namespace State

/-- All trees that were built and not taken into another one yet, from left to right. -/
def forest (s : State) : List Tree := treesOfFrames (s.top :: s.below)

theorem forest_eq_of_follows {s t : State} (hbelow : t.below = s.below) (hbuilt : t.top.built = s.top.built) :
    t.forest = s.forest := by
  simp only [forest, treesOfFrames, hbelow, hbuilt]

theorem forest_drain (s : State) : s.drain.forest = s.forest ++ s.held.map Token.leaf := by
  rw [drain_eq]
  simp [forest, treesOfFrames]

/-- A placed tree is somewhere within the trees of a state. -/
def Has (s : State) (n : Node) : Prop := ∃ m ∈ Node.placeAll 0 s.forest, m.Within n

end State

/-- The trees of one state grew into those of another: leaves were added, or the last ones became one node. -/
inductive Grows (ts : List Tree) : List Tree → Prop where
  | leaves (us : List Token) : Grows ts (ts ++ us.map Token.leaf)
  | node {before inside : List Tree} (k : Kind) (split : ts = before ++ inside) : Grows ts (before ++ [.node k inside])

/-- Whether an action gathers trees into a node. -/
def Action.gathers : {α : Type} → Action α → Bool
  | _, .closeNode => true
  | _, _ => false

/-- An action that gathers nothing adds leaves at most. -/
theorem forest_perform {action : Action α} {s t : State} {a : α} (hgathers : action.gathers = false)
    (h : action.perform s = .ok (a, t)) : ∃ us : List Token, t.forest = s.forest ++ us.map Token.leaf := by
  have hsame (heq : t.forest = s.forest) : ∃ us : List Token, t.forest = s.forest ++ us.map Token.leaf :=
    ⟨[], by rw [heq, List.map_nil, List.append_nil]⟩
  by_cases hflat : action.isFlat = true
  · obtain ⟨hfollows, ts, hbuilt⟩ := flat_perform hflat h
    refine ⟨ts.reverse, ?_⟩
    simp only [State.forest, treesOfFrames, hfollows.below, hbuilt, List.reverse_append, List.map_reverse, List.append_assoc]
  cases action with
  | openNode k | mark =>
    cases h
    have hforest (label : Option Kind) : (s.pushed label).forest = s.drain.forest := by
      simp [State.forest, State.pushed, treesOfFrames]
    exact ⟨s.held, (hforest _).trans s.forest_drain⟩
  | wrap k =>
    simp only [Action.perform] at h
    split at h
    · cases h
      exact hsame (by simp [State.forest, treesOfFrames])
    · cases h
  | unmark =>
    simp only [Action.perform] at h
    split at h
    · rename_i f fs hlabel hbelow
      cases h
      exact hsame (by simp [State.forest, treesOfFrames, hbelow])
    · cases h
  | enter =>
    rw [State.perform_enter] at h
    split at h
    · cases h
      exact hsame rfl
    · split at h <;> cases h
      · exact hsame rfl
      · exact hsame (State.forest_eq_of_follows s.follows_skip.below s.built_skip)
  | leave =>
    cases h
    exact hsame rfl
  | closeNode => cases hgathers
  | _ => exact absurd rfl hflat

/-- Every action makes the trees grow. -/
theorem grows_perform {action : Action α} {s t : State} {a : α} (h : action.perform s = .ok (a, t)) :
    Grows s.forest t.forest := by
  cases hgathers : action.gathers with
  | false =>
    obtain ⟨us, hforest⟩ := forest_perform hgathers h
    exact hforest ▸ .leaves us
  | true =>
    cases action with
    | closeNode =>
      simp only [Action.perform] at h
      split at h
      · rename_i k f fs hlabel hbelow
        cases h
        have hforest : s.forest = (treesOfFrames fs ++ f.built.reverse) ++ s.top.built.reverse := by
          simp [State.forest, treesOfFrames, hbelow]
        have hgrows : Grows s.forest _ := .node k hforest
        simpa [State.forest, treesOfFrames] using hgrows
      · cases h
    | _ => cases hgathers

/-- What is within the trees of a state stays within them as they grow. -/
theorem Grows.has {ts us : List Tree} (h : Grows ts us) {m n : Node} (hm : m ∈ Node.placeAll 0 ts) (hn : m.Within n) :
    ∃ m' ∈ Node.placeAll 0 us, m'.Within n := by
  cases h with
  | leaves us =>
    rw [Node.placeAll_append]
    exact ⟨m, List.mem_append_left _ hm, hn⟩
  | node k split =>
    rw [split, Node.placeAll_append] at hm
    rw [Node.placeAll_append]
    rcases List.mem_append.mp hm with hm | hm
    · exact ⟨m, List.mem_append_left _ hm, hn⟩
    · exact ⟨_, List.mem_append_right _ List.mem_cons_self, Node.Within.trans (.child .root hm) hn⟩

/-- A node that was built is there in every later state. -/
theorem respected_has : Respected fun s t => ∀ n, s.Has n → t.Has n where
  refl _ _ := id
  trans h h' n := h' n ∘ h n
  perform h _ := fun ⟨_, hm, hn⟩ => (grows_perform h).has hm hn

/-- What a final state has is within its tree. -/
theorem State.Has.within {s : State} {n : Node} {tree : Tree} (h : s.Has n) (hbuilt : s.top.built = [tree])
    (hbelow : s.below = []) : Node.Within ⟨0, tree⟩ n := by
  obtain ⟨m, hm, hn⟩ := h
  simp only [State.forest, treesOfFrames, hbuilt, hbelow, List.nil_append, List.reverse_singleton, Node.placeAll,
    List.mem_singleton] at hm
  exact hm ▸ hn

/-! ## How the trees stand to the tokens -/

/-- What was placed is as large as the trees that were built. -/
def State.Sized (s : State) : Prop := s.placed = Tree.bytesOf s.forest

namespace State.Sized

variable {s : State}

theorem of_eq {t : State} (h : s.Sized) (htop : t.top.built = s.top.built) (hbelow : t.below = s.below)
    (hplaced : t.placed = s.placed) : t.Sized := by
  unfold Sized
  rw [hplaced, forest_eq_of_follows hbelow htop]
  exact h

theorem skip (h : s.Sized) : s.skip.Sized := by
  rw [skip_eq]
  exact h

theorem drain (h : s.Sized) : s.drain.Sized := by
  unfold Sized
  rw [forest_drain, Tree.bytesOf_append, ← h, drain_eq]
  rfl

theorem report (h : s.Sized) (d : Diagnostic) : (s.report d).Sized := by
  rw [report_eq]
  exact h

theorem reportParameters (h : s.Sized) : s.reportParameters.Sized := by
  rw [reportParameters_eq]
  obtain ⟨reports, lastReport, hfold⟩ := foldl_report s.parameterProblems s
  rw [hfold]
  exact h

theorem pushed (h : s.Sized) (label : Option Kind) : (s.pushed label).Sized := by
  have hforest : (s.pushed label).forest = s.drain.forest := by simp [forest, State.pushed, treesOfFrames]
  unfold Sized
  rw [hforest]
  exact h.drain

theorem consumed {t : Token} {rest : List Token} (h : s.Sized) : (s.consumed t rest).Sized := by
  have hforest : (s.consumed t rest).forest = s.drain.forest ++ [t.leaf] := by
    rw [forest_drain]
    simp [forest, State.consumed, treesOfFrames]
  have hdrain : s.drain.placed = s.placed + sizeOfTokens s.held := by rw [drain_eq]
  unfold Sized
  rw [hforest, Tree.bytesOf_append, ← h.drain, hdrain]
  rfl

end State.Sized

theorem sized_perform {action : Action α} {s t : State} {a : α} (h : action.perform s = .ok (a, t)) (hs : s.Sized) :
    t.Sized := by
  cases action with
  | peek =>
    obtain ⟨-, rfl⟩ := State.of_perform_peek h
    exact hs.skip
  | peekRaw =>
    simp only [Action.perform, look] at h
    split at h <;> cases h
    exact hs
  | advance =>
    obtain ⟨token, rest, hu, rfl⟩ := State.of_perform_advance h
    exact hs.consumed
  | touches | pushDelimiter k =>
    cases h
    exact hs.skip
  | settle =>
    cases h
    exact hs.skip.drain
  | openNode k | mark =>
    cases h
    exact hs.pushed _
  | closeNode =>
    simp only [Action.perform] at h
    split at h
    · rename_i k f fs hlabel hbelow
      cases h
      unfold State.Sized at hs ⊢
      simp [State.forest, treesOfFrames, hbelow, Tree.bytesOf_append, Tree.bytesOf, Tree.bytes] at hs ⊢
      omega
    · cases h
  | wrap k =>
    simp only [Action.perform] at h
    split at h <;> cases h
    simpa [State.Sized, State.forest, treesOfFrames] using hs
  | unmark =>
    simp only [Action.perform] at h
    split at h
    · rename_i f fs hlabel hbelow
      cases h
      simpa [State.Sized, State.forest, treesOfFrames, hbelow] using hs
    · cases h
  | report p d =>
    cases h
    exact hs.skip.report _
  | reportUnclosed closer =>
    simp only [Action.perform] at h
    split at h <;> cases h
    · exact hs.skip
    · exact hs.skip.report _
  | reportTarget flaw =>
    cases h
    exact hs.report _
  | checkParameters =>
    cases h
    exact hs.reportParameters
  | enter =>
    rw [State.perform_enter] at h
    split at h
    · cases h
      exact hs
    · split at h <;> cases h
      · exact hs
      · exact hs.skip
  | ahead q | atEnd | stopped | leave | popDelimiter | setSeparating b =>
    cases h
    exact hs

/-- A state that reads a row of tokens holds them all, the unread ones are the last of them, and it keeps count of the size
of those it placed. -/
structure State.Reading (tokens : List Token) (s : State) : Prop where
  unread : s.unread <:+ tokens
  leaves : s.leaves = tokens.map Token.piece
  sized : s.Sized

/-- Whoever reads some tokens goes on reading them. -/
theorem respected_reading (tokens : List Token) : Respected fun s t => s.Reading tokens → t.Reading tokens where
  refl _ := id
  trans h h' := h' ∘ h
  perform h hs := ⟨(suffix_perform h).trans hs.unread, (leaves_perform h).trans hs.leaves, sized_perform h hs.sized⟩

theorem State.reading_start (tokens : List Token) (limit : Nat) (fuel : Option Nat) :
    (State.start tokens limit fuel).Reading tokens :=
  ⟨List.suffix_refl _, by simp [State.leaves, State.start, leavesOfFrames, Frame.leaves, Tree.leavesOf], rfl⟩

theorem leavesOf_treesOfFrames (fs : List Frame) : Tree.leavesOf (treesOfFrames fs) = leavesOfFrames fs := by
  induction fs with
  | nil => rfl
  | cons f fs ih => rw [treesOfFrames, Tree.leavesOf_append, ih, leavesOfFrames, Frame.leaves]

namespace State.Reading

variable {tokens : List Token} {s : State}

/-- What was placed or held back is what comes before the unread tokens. -/
theorem exists_before (h : s.Reading tokens) :
    ∃ before, tokens = before ++ s.unread ∧
      Tree.leavesOf s.forest ++ s.held.map Token.piece = before.map Token.piece := by
  obtain ⟨before, hbefore⟩ := h.unread
  refine ⟨before, hbefore.symm, ?_⟩
  have hleaves := h.leaves
  rw [← hbefore, State.leaves, List.map_append, List.map_append, ← List.append_assoc, ← leavesOf_treesOfFrames] at hleaves
  exact List.append_cancel_right hleaves

end State.Reading

end Parser

end Remap
