import Remap.Proofs.Parser.Forest
import Remap.Proofs.Tree.Joined

/-!
# Paths are read from what touches

Whether a path goes on is decided in a handful of places, always from the same token flag. Here the flag is tied to the leaves
that were placed (`immediate_eq`), and the invariant that all trees of the innermost frame are sealed (`Apt`) is carried
through the grammar. Which leaves are around a tree does not change while the rest is read, since no leaf is lost or moved; so
a tree that was sealed once stays so.

A term is not sealed before it was looked into whether a path follows. Between the two it is the last tree of a frame of its
own (`Loose`).
-/

namespace Remap.Parser

open Tree (leavesOf Along Joined Sealed along_append along_singleton along_leaves sealed_leaf)

variable {α β : Type}

namespace State

/-- The leaves in the frames around the innermost one. -/
def outer (s : State) : List (Kind × Text) := leavesOfFrames s.below

/-- The trees of the innermost frame from left to right. -/
def trees (s : State) : List Tree := s.top.built.reverse

/-- The leaves placed so far. -/
def before (s : State) : List (Kind × Text) := s.outer ++ leavesOf s.trees

/-- The leaves that are still to be placed. -/
def rest (s : State) : List (Kind × Text) := (s.held ++ s.unread).map Token.piece

theorem leaves_eq (s : State) : s.leaves = s.before ++ s.rest := rfl

theorem trees_drain (s : State) : s.drain.trees = s.trees ++ s.held.map Token.leaf := by
  simp [trees, built_drain, List.map_reverse]

theorem trees_consumed (s : State) (x : Token) (rest : List Token) :
    (s.consumed x rest).trees = s.trees ++ (s.held.map Token.leaf ++ [x.leaf]) := by
  simp [consumed, trees]

theorem trees_closed (s t : State) (k : Kind) : (s.closed k t).trees = s.trees ++ (s.held.map Token.leaf ++ [.node k t.trees]) := by
  rw [← List.append_assoc, ← trees_drain]
  simp [closed, trees]

theorem trees_joined (s t : State) : (s.joined t).trees = s.trees ++ (s.held.map Token.leaf ++ t.trees) := by
  rw [← List.append_assoc, ← trees_drain]
  simp [joined, trees]

@[simp] theorem outer_drain (s : State) : s.drain.outer = s.outer := by
  rw [drain_eq]
  rfl

theorem before_drain (s : State) : s.drain.before = s.before ++ s.held.map Token.piece := by
  simp only [before, trees_drain, outer_drain, Tree.leavesOf_append, Tree.leavesOf_map_leaf, List.append_assoc]

theorem outer_of_pushed {s t : State} {label : Option Kind} (h : t.below = (s.pushed label).below) :
    t.outer = s.before ++ s.held.map Token.piece := by
  rw [← before_drain]
  simp only [outer, h, pushed, leavesOfFrames, before]
  rfl

namespace Reading

variable {tokens : List Token} {s t : State}

/-- What was to be placed is what was placed since, and what is to be placed now. -/
theorem rest_eq {us : List Tree} (hs : s.Reading tokens) (ht : t.Reading tokens) (hbelow : t.below = s.below)
    (hrow : t.trees = s.trees ++ us) : s.rest = leavesOf us ++ t.rest := by
  have hleaves : s.leaves = t.leaves := hs.leaves.trans ht.leaves.symm
  simp only [leaves_eq, before, outer, hbelow, hrow, Tree.leavesOf_append, List.append_assoc] at hleaves
  exact List.append_cancel_left (List.append_cancel_left hleaves)

/-- Where nothing was placed, the same is to be placed. -/
theorem rest_eq_of_row (hs : s.Reading tokens) (ht : t.Reading tokens) (hbelow : t.below = s.below) (hrow : t.trees = s.trees) :
    t.rest = s.rest := by
  have hrest := hs.rest_eq ht hbelow (hrow.trans (List.append_nil _).symm)
  exact hrest.symm

/-- A token is flagged as touching if the leaf before it does not keep it apart. -/
theorem immediate_eq {ps : List (Kind × Text)} {x : Token} {more : List Token} (h : s.Reading (Token.place 0 none ps))
    (hu : s.unread = x :: more) : x.immediate = touching (s.before ++ s.held.map Token.piece) := by
  obtain ⟨done, hsplit, hdone⟩ := h.exists_before
  have hbefore : s.before ++ s.held.map Token.piece = done.map Token.piece := by
    rw [← hdone, forest, leavesOf_treesOfFrames]
    rfl
  rw [hu] at hsplit
  have hplace := Token.eq_place_of_append hsplit
  simp only [List.map_cons, Token.place, List.cons.injEq] at hplace
  rw [hplace.1, hbefore, touching, List.getLast?_map, Option.any_map, Option.or_none]
  cases done.getLast? <;> rfl

end Reading

/-- No token of certain kinds comes next that would touch what was placed. -/
def Untouched (p : Kind → Bool) (s : State) : Prop := Apart p s.before s.rest

theorem Untouched.of_eq {p : Kind → Bool} {s t : State} (h : s.Untouched p) (hbefore : t.before = s.before)
    (hrest : t.rest = s.rest) : t.Untouched p := by
  unfold Untouched
  rw [hbefore, hrest]
  exact h

/-- The next token is none that is passed over, and it touches the one before it. -/
def Touched (s : State) : Prop := ∃ x more, s.unread = x :: more ∧ s.skips x = false ∧ x.immediate = true

theorem skip_of_touched {s : State} (h : s.Touched) : s.skip = s := by
  obtain ⟨x, more, hu, hskips, _⟩ := h
  simp [skip, hu, hskips]

theorem Touched.looked {s : State} (h : s.Touched) : s.looked.Touched := by
  unfold State.looked
  rw [skip_of_touched h]
  exact h

theorem Touched.pushed {s : State} (h : s.Touched) (label : Option Kind) : (s.pushed label).Touched := by
  unfold Touched State.pushed
  rw [drain_eq]
  exact h

end State

open State (Follows)

/-! ## Asking whether something touches -/

/-- Whether a token of certain kinds comes next and touches what is before it. -/
def asks (p : Kind → Bool) : Routine Bool := do
  let k ← peek
  if p k then touches else return false

theorem atSegment_eq : atSegment = asks Kind.startsSegment := rfl

theorem asks_bind (p : Kind → Bool) (f : Bool → Routine β) :
    asks p >>= f = (peek >>= fun k => if p k then touches >>= f else f false) := by
  simp only [asks, Routine.bind_eq, Routine.pure_eq, Routine.bind_assoc]
  congr 1
  funext k
  split <;> rfl

/-- What a question leaves as it is, and what its answer says. -/
structure State.Asked (tokens : List Token) (p : Kind → Bool) (s : State) (b : Bool) (t : State) : Prop where
  reading : t.Reading tokens
  row : t.trees = s.trees
  below : t.below = s.below
  yes : b = true → t.Touched
  no : b = false → t.Untouched p

section Reading

variable {ps : List (Kind × Text)} {n : Nat} {s : State} {Q : α → State → Prop}

/-- Nothing touches what was placed if the next token is not flagged, unless something is passed over before it. -/
theorem untouched_of_not_immediate {p : Kind → Bool} (hblank : ∀ k, k.isTrivia = true ∨ k = .newline → p k = false)
    (hs : s.Reading (Token.place 0 none ps)) (hsteady : s.Steady)
    (h : ∀ x more, s.unread = x :: more → p x.kind = true → x.immediate = false) : s.Untouched p := by
  intro htouching
  unfold State.rest beginsWith
  cases hheld : s.held with
  | cons b held =>
    simp only [List.cons_append, List.map_cons, List.head?_cons, Option.any_some]
    exact hblank _ (hsteady.held b (by rw [hheld]; exact List.mem_cons_self))
  | nil =>
    cases hu : s.unread with
    | nil => rfl
    | cons x more =>
      simp only [List.nil_append, List.map_cons, List.head?_cons, Option.any_some]
      rw [← Bool.not_eq_true]
      intro hp
      have himmediate := hs.immediate_eq hu
      rw [hheld, List.map_nil, List.append_nil, htouching, h x more hu hp] at himmediate
      cases himmediate

theorem Returns.asks {p : Kind → Bool} (hblank : ∀ k, k.isTrivia = true ∨ k = .newline → p k = false)
    (hs : s.Reading (Token.place 0 none ps)) :
    Returns n (Parser.asks p) s fun b t => s.Asked (Token.place 0 none ps) p b t := by
  refine .of_steady fun hsteady => .bind <| .look rfl fun k t hpeek hbuilt => ?_
  have ht := (respected_reading _).perform hpeek hs
  have hsteady' := (respected_hushes.perform hpeek).steady hsteady
  have hbelow := (look_perform rfl hpeek).1.below
  obtain ⟨rfl, rfl⟩ := State.of_perform_peek hpeek
  split
  · refine .look rfl fun b u htouches hbuilt' => ?_
    have hu := (respected_reading _).perform htouches ht
    have hsteady'' := (respected_hushes.perform htouches).steady hsteady'
    have hbelow' := (look_perform rfl htouches).1.below
    simp only [Action.perform, Except.ok.injEq, Prod.mk.injEq] at htouches
    obtain ⟨rfl, rfl⟩ := htouches
    refine ⟨hu, by rw [State.trees, State.trees, hbuilt', hbuilt], hbelow'.trans hbelow, fun hyes => ?_, fun hno => ?_⟩
    · obtain ⟨x, hx, himmediate⟩ := (Option.any_eq_true _ _).mp hyes
      obtain ⟨more, hmore⟩ := List.head?_eq_some_iff.mp hx
      refine ⟨x, more, hmore, ?_, himmediate⟩
      rw [State.unread_skip] at hmore
      have hskips := List.head?_dropWhile_not s.looked.skips s.looked.unread
      rw [hmore] at hskips
      simpa [State.skips, State.skip_eq] using hskips
    · refine untouched_of_not_immediate hblank hu hsteady'' fun x more hmore _ => ?_
      rw [hmore] at hno
      simpa using hno
  · rename_i hp
    refine .done ⟨ht, by rw [State.trees, State.trees, hbuilt], hbelow, by simp, fun _ => ?_⟩
    refine untouched_of_not_immediate hblank ht hsteady' fun x more hmore hx => ?_
    simp [State.nextKind, hmore, hx] at hp

end Reading

theorem blank_startsSegment (k : Kind) (h : k.isTrivia = true ∨ k = .newline) : k.startsSegment = false := by
  rcases Kind.blank_cases h with rfl | rfl | rfl | rfl <;> rfl

theorem blank_startsPath (k : Kind) (h : k.isTrivia = true ∨ k = .newline) : k.startsPath = false := by
  rcases Kind.blank_cases h with rfl | rfl | rfl | rfl <;> rfl

/-! ## Sealed rows -/

/-- A question does not change what would touch. -/
theorem State.Asked.keeps_untouched {tokens : List Token} {p q : Kind → Bool} {s t : State} {b : Bool} (h : s.Asked tokens p b t)
    (hs : s.Reading tokens) (hclear : s.Untouched q) : t.Untouched q := by
  refine hclear.of_eq ?_ ?_
  · simp only [State.before, State.outer, h.below, h.row]
  · exact hs.rest_eq_of_row h.reading h.below h.row

/-- All trees of the innermost frame are sealed. -/
structure State.Apt (tokens : List Token) (s : State) : Prop where
  reading : s.Reading tokens
  row : Along Sealed s.outer s.trees s.rest

/-- All trees of the innermost frame but the last are leaves, and the last is joined. -/
def State.Loose (s : State) : Prop :=
  ∃ (ts : List Token) (u : Tree), s.trees = ts.map Token.leaf ++ [u] ∧ Joined (s.outer ++ ts.map Token.piece) u s.rest

section Rows

variable {tokens : List Token} {s t : State} {P : List (Kind × Text) → Tree → List (Kind × Text) → Prop}

/-- What holds along a row holds along it when it is longer, if it holds along what was added. -/
theorem along_extend {us : List Tree} (hs : s.Reading tokens) (ht : t.Reading tokens) (hbelow : t.below = s.below)
    (hrow : t.trees = s.trees ++ us) (h : Along P s.outer s.trees s.rest) (hus : Along P s.before us t.rest) :
    Along P t.outer t.trees t.rest := by
  rw [hrow, State.outer, hbelow]
  refine along_append.mpr ⟨?_, hus⟩
  rw [← hs.rest_eq ht hbelow hrow]
  exact h

theorem along_look (hs : s.Reading tokens) (ht : t.Reading tokens) (hbelow : t.below = s.below) (hrow : t.trees = s.trees)
    (h : Along P s.outer s.trees s.rest) : Along P t.outer t.trees t.rest :=
  along_extend hs ht hbelow (hrow.trans (List.append_nil _).symm) h trivial

theorem along_closed {k : Kind} (hleaf : ∀ t ∈ s.held, ∀ xs ys, P xs t.leaf ys) (hs : s.Reading tokens)
    (hu : (s.closed k t).Reading tokens) (hbelow : t.below = (s.pushed (some k)).below)
    (h : Along P s.outer s.trees s.rest) (hnode : P t.outer (.node k t.trees) t.rest) :
    Along P (s.closed k t).outer (s.closed k t).trees (s.closed k t).rest := by
  refine along_extend hs hu (by rw [State.closed, State.drain_eq]) (s.trees_closed t k) h ?_
  refine along_append.mpr ⟨along_leaves hleaf, along_singleton.mpr ?_⟩
  rw [Tree.leavesOf_map_leaf, ← State.outer_of_pushed hbelow]
  exact hnode

theorem along_consumed {x : Token} {more : List Token} (hleaf : ∀ t ∈ s.held, ∀ xs ys, P xs t.leaf ys)
    (hs : s.Reading tokens) (ht : (s.consumed x more).Reading tokens) (h : Along P s.outer s.trees s.rest)
    (hx : P (s.before ++ s.held.map Token.piece) x.leaf (more.map Token.piece)) :
    Along P (s.consumed x more).outer (s.consumed x more).trees (s.consumed x more).rest := by
  refine along_extend hs ht rfl (s.trees_consumed x more) h ?_
  refine along_append.mpr ⟨along_leaves hleaf, along_singleton.mpr ?_⟩
  rw [Tree.leavesOf_map_leaf]
  exact hx

theorem along_flat (hleaf : ∀ (t : Token) xs ys, P xs t.leaf ys) (hs : s.Reading tokens) (ht : t.Reading tokens)
    (hbelow : t.below = s.below) (hadds : State.AddsLeaves s t) (h : Along P s.outer s.trees s.rest) :
    Along P t.outer t.trees t.rest := by
  obtain ⟨ts, hts⟩ := hadds
  have hrow : t.trees = s.trees ++ ts.reverse.map Token.leaf := by simp [State.trees, hts, List.map_reverse]
  exact along_extend hs ht hbelow hrow h (along_leaves fun t _ => hleaf t)

/-- A look leaves the row as it is. -/
theorem State.Apt.look {action : Action α} {a : α} (hs : s.Apt tokens) (hlook : action.isLook = true)
    (h : action.perform s = .ok (a, t)) : t.Apt tokens ∧ t.trees = s.trees := by
  obtain ⟨hfollows, hbuilt⟩ := look_perform hlook h
  have ht := (respected_reading tokens).perform h hs.reading
  have hrow : t.trees = s.trees := by rw [State.trees, State.trees, hbuilt]
  exact ⟨⟨ht, along_look hs.reading ht hfollows.below hrow hs.row⟩, hrow⟩

/-- A new frame has nothing in it. -/
theorem State.Reading.pushed (hs : s.Reading tokens) (label : Option Kind) : (s.pushed label).Apt tokens := by
  refine ⟨?_, trivial⟩
  cases label with
  | none => exact (respected_reading tokens).perform s.perform_mark hs
  | some k => exact (respected_reading tokens).perform (s.perform_openNode k) hs

theorem State.outer_wrapping (s : State) (k : Kind) : (s.wrapping k).outer = s.outer := by
  simp [State.outer, State.wrapping, leavesOfFrames, Frame.leaves, leavesOf]

theorem State.Reading.wrapping (hs : s.Reading tokens) (k : Kind) : (s.wrapping k).Reading tokens := by
  refine ⟨hs.unread, ?_, ?_⟩
  · rw [← hs.leaves, State.leaves_eq, State.leaves_eq, State.before, State.outer_wrapping]
    rfl
  · have hsized : s.placed = Tree.bytesOf s.forest := hs.sized
    simp only [State.Sized, State.wrapping, State.forest, treesOfFrames, List.reverse_nil, List.append_nil] at hsized ⊢
    exact hsized

theorem State.Apt.wrapping (hs : s.Apt tokens) (k : Kind) : (s.wrapping k).Apt tokens := by
  refine ⟨hs.reading.wrapping k, ?_⟩
  rw [State.outer_wrapping]
  exact hs.row

end Rows

/-- A routine leaves sealed trees behind wherever it starts with sealed trees. -/
def KeepsApt (tokens : List Token) (n : Nat) (x : Routine α) : Prop :=
  ∀ s, s.Apt tokens → Returns n x s fun _ t => t.Apt tokens

section Rules

variable {tokens : List Token} {n : Nat} {s : State} {Q : α → State → Prop}

/-- Where a run ends, the same tokens are read. -/
theorem Returns.reading {x : Routine α} (hs : s.Reading tokens)
    (h : Returns n x s fun a t => Follows s t → t.Reading tokens → Q a t) :
    Returns n x s fun a t => t.Reading tokens ∧ Q a t := by
  intro hsteady a t hrun hfuel
  obtain ⟨hfollows, hQ⟩ := h hsteady a t hrun hfuel
  have ht := (respected_reading tokens).run hrun hs
  exact ⟨hfollows, ht, hQ hfollows ht⟩

theorem Returns.answers {p : α → Bool} {x : Routine α} (hx : Answers p x) (h : Returns n x s Q) :
    Returns n x s fun a t => p a = true ∧ Q a t := by
  intro hsteady a t hrun hfuel
  obtain ⟨hfollows, hQ⟩ := h hsteady a t hrun hfuel
  exact ⟨hfollows, hx _ _ _ _ hrun, hQ⟩

/-- A node that is sealed when it is closed. -/
theorem Returns.sealed {k : Kind} {body : Routine α} (hs : s.Apt tokens)
    (h : Returns n body (s.pushed (some k)) fun _ t => Sealed t.outer (.node k t.trees) t.rest) :
    Returns n (Parser.node k body) s fun _ t => t.Apt tokens := by
  refine (Returns.reading (Q := fun _ t => Along Sealed t.outer t.trees t.rest) hs.reading ?_).imp fun _ _ ht => ⟨ht.1, ht.2⟩
  refine .node <| h.follows.imp fun _ _ ht _ hu => ?_
  exact along_closed (fun t _ => sealed_leaf t) hs.reading hu ht.1.below hs.row ht.2

theorem keepsApt_of {x : Routine α} (h : ∀ s, s.Apt tokens → Returns n x s fun _ t => Follows s t → t.Reading tokens →
    Along Sealed t.outer t.trees t.rest) : KeepsApt tokens n x :=
  fun s hs => (Returns.reading hs.reading (h s hs)).imp fun _ _ ht => ⟨ht.1, ht.2⟩

namespace KeepsApt

theorem done (a : α) : KeepsApt tokens n (pure a : Routine α) := fun _ hs => .done hs

theorem bind {x : Routine α} {f : α → Routine β} (hx : KeepsApt tokens n x) (hf : ∀ a, KeepsApt tokens n (f a)) :
    KeepsApt tokens n (x >>= f) :=
  fun s hs => .bind <| (hx s hs).imp fun a t ht => hf a t ht

theorem flat {action : Action α} (h : action.isFlat = true) : KeepsApt tokens n (act action) :=
  keepsApt_of fun _ hs => .flat h fun _ _ _ hadds hfollows ht =>
    along_flat sealed_leaf hs.reading ht hfollows.below hadds hs.row

theorem node {k : Kind} {body : Routine α} (hk : k.isPlain = true) (h : KeepsApt tokens n body) :
    KeepsApt tokens n (Parser.node k body) :=
  fun _ hs => .sealed hs <| (h _ (hs.reading.pushed _)).imp fun _ _ ht => Tree.sealed_of_isPlain hk ht.row

/-- A node that begins at a mark takes in the whole row. -/
theorem wrapped {k : Kind} {body : Routine α} (hk : k.isPlain = true) (h : KeepsApt tokens n body) :
    KeepsApt tokens n (Parser.wrapped k body) := by
  refine keepsApt_of fun s hs => .wrapped <| (h _ (hs.wrapping k)).follows.imp fun _ t ht _ _ => along_singleton.mpr ?_
  have houter : t.outer = (s.wrapped k t).outer := by
    rw [State.outer, ht.1.below]
    exact s.outer_wrapping k
  rw [← houter]
  exact Tree.sealed_of_isPlain hk ht.2.row

/-- What is built from a mark on starts with nothing. -/
theorem marked_of {body : Routine α}
    (h : ∀ s : State, s.Apt tokens → s.trees = [] → Returns n body s fun _ t => t.Apt tokens) :
    KeepsApt tokens n (Parser.marked body) := by
  refine keepsApt_of fun s hs => .marked <| (h _ (hs.reading.pushed none) rfl).follows.imp fun _ t ht _ hu => ?_
  refine along_extend hs.reading hu (by rw [State.joined, State.drain_eq]) (s.trees_joined t) hs.row ?_
  refine along_append.mpr ⟨along_leaves fun t _ => sealed_leaf t, ?_⟩
  rw [Tree.leavesOf_map_leaf, ← State.outer_of_pushed ht.1.below]
  exact ht.2.row

theorem marked {body : Routine α} (h : KeepsApt tokens n body) : KeepsApt tokens n (Parser.marked body) :=
  marked_of fun s hs _ => h s hs

/-- One level deeper the limit may be hit; the error that holds all the rest is sealed. -/
theorem nested {body : Routine Kind} (h : KeepsApt tokens n body) : KeepsApt tokens n (Parser.nested body) := by
  refine keepsApt_of fun s hs => .nested (fun _ => ?_) (fun _ _ _ => hs.row) fun _ t ts _ hbuilt hfollows ht => ?_
  · exact (h s.deeper ⟨⟨hs.reading.unread, hs.reading.leaves, hs.reading.sized⟩, hs.row⟩).imp fun _ _ ht _ _ => ht.row
  · have hrow : t.trees = s.trees ++ (s.skip.held.map Token.leaf ++ [.node .error (ts.map Token.leaf)]) := by
      have hdrain := s.skip.trees_drain
      rw [State.trees, State.trees, s.built_skip] at hdrain
      rw [State.trees, hbuilt, List.reverse_cons, hdrain, List.append_assoc]
      rfl
    refine along_extend hs.reading ht hfollows.below hrow hs.row ?_
    refine along_append.mpr ⟨along_leaves fun t _ => sealed_leaf t, along_singleton.mpr ?_⟩
    exact Tree.sealed_of_isPlain rfl (along_leaves fun t _ => sealed_leaf t)

end KeepsApt

end Rules

/-! ## Names and segments -/

/-- A tree that names a field touches what is before it. -/
def Named (xs : List (Kind × Text)) (t : Tree) (_ : List (Kind × Text)) : Prop := t.isName = true → touching xs = true

theorem named_of_blank {t : Token} (h : t.kind.isTrivia = true ∨ t.kind = .newline) (xs ys : List (Kind × Text)) :
    Named xs t.leaf ys := by
  intro hname
  have hkind : t.kind.isFieldName = true := hname
  rcases Kind.blank_cases h with hk | hk | hk | hk <;> rw [hk] at hkind <;> cases hkind

theorem Action.isFlat_of_isSimple {action : Action α} (h : action.isSimple = true) : action.isFlat = true := by
  cases action with
  | openNode | closeNode | mark | wrap | unmark | enter | leave => cases h
  | _ => rfl

section Grammar

variable {ps : List (Kind × Text)} {n : Nat} {s : State}

theorem State.Reading.touching_of_touched (hs : s.Reading (Token.place 0 none ps)) (h : s.Touched) :
    touching (s.before ++ s.held.map Token.piece) = true := by
  obtain ⟨x, more, hu, _, himmediate⟩ := h
  rw [← hs.immediate_eq hu, himmediate]

theorem State.Apt.looked {tokens : List Token} (hs : s.Apt tokens) (h : s.Touched) : s.looked.Apt tokens := by
  unfold State.looked
  rw [State.skip_of_touched h]
  exact ⟨⟨hs.reading.unread, hs.reading.leaves, hs.reading.sized⟩, hs.row⟩

theorem closed_keepsApt {tokens : List Token} (hrule : ∀ {γ : Type} (r : Rule γ), KeepsApt tokens n (rule r)) :
    GrammarClosed (fun {_} x => KeepsApt tokens n x) where
  done := .done
  fail f := fun _ _ => .fail f
  bind := .bind
  rule := hrule
  simple h := .flat (Action.isFlat_of_isSimple h)
  marked := .marked
  separating _ h := .bind (.flat rfl) fun _ => .bind h fun _ => .bind (.flat rfl) fun _ => .done _
  nested := .nested
  node hk := .node (Kind.isPlain_of_isOrdinary hk)
  wrapped hk := .wrapped (Kind.isPlain_of_isOrdinary hk)

theorem Returns.reportFound {p : Problem} {e : Option Expectation} {Q : Unit → State → Prop}
    (h : ∀ t, t.below = s.below → t.trees = s.trees → Q () t) : Returns n (Parser.reportFound p e) s Q := by
  have hreport (d : Option Detail) {t : State} (hbelow : t.below = s.below) (hbuilt : t.top.built = s.top.built) :
      Returns n (report p d) t Q := by
    refine .look rfl fun _ u hu hbuilt' => h u ?_ ?_
    · exact (look_perform rfl hu).1.below.trans hbelow
    · rw [State.trees, State.trees, hbuilt', hbuilt]
  refine .bind <| .look rfl fun k t ht hbuilt => .bind <| .look rfl fun b u hu hbuilt' => ?_
  have hbelow := (look_perform rfl hu).1.below.trans (look_perform rfl ht).1.below
  split
  · exact hreport _ hbelow (hbuilt'.trans hbuilt)
  · cases e <;> exact hreport _ hbelow (hbuilt'.trans hbuilt)

variable (h : GrammarClosed fun {_} x => KeepsApt (Token.place 0 none ps) n x)

include h

/-- A name that touches what is before it is placed right there. -/
theorem named_fieldName (hs : s.Reading (Token.place 0 none ps)) (htouched : s.Touched)
    (hrow : Along Named s.outer s.trees s.rest) :
    Returns n fieldName s fun _ t => Along Named t.outer t.trees t.rest := by
  refine (Returns.reading hs ?_).imp fun _ _ ht => ht.2
  refine .of_steady fun hsteady => .bind <| .bind <| .look rfl fun k t hpeek _ => .done ?_
  have ht := (respected_reading _).perform hpeek hs
  have hsteady' := (respected_hushes.perform hpeek).steady hsteady
  obtain ⟨-, rfl⟩ := State.of_perform_peek hpeek
  have hrow' : Along Named s.looked.outer s.looked.trees s.looked.rest := by
    rw [State.looked, State.skip_of_touched htouched]
    exact hrow
  have htouched' := htouched.looked
  generalize s.looked = t at ht hsteady' hrow' htouched'
  have htouching := ht.touching_of_touched htouched'
  have hblank : ∀ x ∈ t.held, ∀ xs ys, Named xs x.leaf ys := fun x hx => named_of_blank (hsteady'.held x hx)
  split
  · have hbody : KeepsApt (Token.place 0 none ps) n (do
        require .doubleQuote
        advance
        rule .stringParts
        return Kind.stringLit) :=
      h.bind (closed_require h.toParts _) fun _ => h.bind (h.simple rfl) fun _ => h.bind (h.rule .stringParts) fun _ => h.done _
    refine .bind <| .node <| (hbody _ (ht.pushed _)).follows.imp fun _ u hu => .done fun _ hclosed => ?_
    refine along_closed hblank ht hclosed hu.1.below hrow' fun _ => ?_
    rw [State.outer_of_pushed hu.1.below]
    exact htouching
  · refine .flat rfl fun _ u hadvance _ _ hu => ?_
    obtain ⟨x, more, hunread, _⟩ := htouched'
    rw [State.perform_advance hunread] at hadvance
    cases hadvance
    exact along_consumed hblank ht hu hrow' fun _ => htouching

/-- In a field segment the name after the dot touches it. -/
theorem named_segmentBody (hs : s.Reading (Token.place 0 none ps)) (hrow : Along Named s.outer s.trees s.rest) :
    Returns n (do
      require .dot
      advance
      let k ← peek
      let named ← if k.isFieldName || k = .doubleQuote then touches else pure false
      if named then fieldName else reportFound .invalidPathContinuation (some .fieldAfterDot))
      s fun _ t => Along Named t.outer t.trees t.rest := by
  rw [require_bind]
  refine .of_steady fun hsteady => .bind <| .look rfl fun k t hpeek hbuilt => ?_
  have ht := (respected_reading _).perform hpeek hs
  have hsteady' := (respected_hushes.perform hpeek).steady hsteady
  have hbelow := (look_perform rfl hpeek).1.below
  have hrow' : Along Named t.outer t.trees t.rest := along_look hs ht hbelow (by rw [State.trees, State.trees, hbuilt]) hrow
  obtain ⟨rfl, rfl⟩ := State.of_perform_peek hpeek
  split
  case isFalse => exact .fail _
  case isTrue hdot =>
    generalize s.looked = t at ht hsteady' hrow' hdot
    refine .bind <| .flat rfl fun _ u hadvance _ => ?_
    have hu := (respected_reading _).perform hadvance ht
    cases hunread : t.unread with
    | nil => simp [State.nextKind, hunread] at hdot
    | cons x more =>
      rw [State.perform_advance hunread] at hadvance
      cases hadvance
      have hname : Along Named (t.consumed x more).outer (t.consumed x more).trees (t.consumed x more).rest := by
        refine along_consumed (fun y hy => named_of_blank (hsteady'.held y hy)) ht hu hrow' fun hx => ?_
        have hkind : x.kind.isFieldName = true := hx
        have hx : x.kind = .dot := by simpa [State.nextKind, hunread] using hdot
        rw [hx] at hkind
        cases hkind
      have hblank (k : Kind) (hk : k.isTrivia = true ∨ k = .newline) : (k.isFieldName || k = .doubleQuote) = false := by
        rcases Kind.blank_cases hk with rfl | rfl | rfl | rfl <;> rfl
      have hasked : Returns n (do
          let named ← asks fun k => k.isFieldName || k = .doubleQuote
          if named then fieldName else reportFound .invalidPathContinuation (some .fieldAfterDot))
          (t.consumed x more) fun _ t => Along Named t.outer t.trees t.rest := by
        refine .bind <| (Returns.asks hblank hu).imp fun b v hv => ?_
        have hrowv := along_look hu hv.reading hv.below hv.row hname
        cases b with
        | true => exact named_fieldName h hv.reading (hv.yes rfl) hrowv
        | false =>
          refine (Returns.reading hv.reading ?_).imp fun _ _ hw => hw.2
          exact .reportFound fun w hbelow hrow _ hw => along_look hv.reading hw hbelow hrow hrowv
      rw [asks_bind] at hasked
      exact hasked

omit h in
/-- A field segment that touches what is before it, and whose name does. -/
theorem apt_field {body : Routine Unit} (hs : s.Apt (Token.place 0 none ps)) (htouched : s.Touched)
    (hbody : KeepsApt (Token.place 0 none ps) n body)
    (hnamed : Returns n body (s.pushed (some .fieldSegment)) fun _ t => Along Named t.outer t.trees t.rest) :
    Returns n (node .fieldSegment body) s fun _ t => t.Apt (Token.place 0 none ps) := by
  refine .sealed hs <| ((hbody _ (hs.reading.pushed _)).and hnamed).follows.imp fun _ t ht => ⟨?_, nofun⟩
  refine Tree.joined_node ht.2.1.row (fun _ => ?_) (fun _ ls c rs hrow => ?_) nofun
  · rw [State.outer_of_pushed ht.1.below]
    exact hs.reading.touching_of_touched htouched
  · have hnamed := ht.2.2
    rw [hrow] at hnamed
    exact hnamed.mem

theorem apt_fieldSegment (hs : s.Apt (Token.place 0 none ps)) (htouched : s.Touched) :
    Returns n fieldSegment s fun _ t => t.Apt (Token.place 0 none ps) :=
  apt_field hs htouched (closed_fieldSegmentBody h.toParts) (named_segmentBody h (hs.reading.pushed _).reading trivial)

/-- An index segment where a bracket touches what is before it. -/
theorem apt_indexSegment (hs : s.Apt (Token.place 0 none ps)) (htouched : s.Touched) :
    Returns n indexSegment s fun _ t => t.Apt (Token.place 0 none ps) := by
  refine .sealed hs <| (closed_indexSegmentBody h.toParts _ (hs.reading.pushed _)).follows.imp fun _ t ht => ⟨?_, nofun⟩
  refine Tree.joined_node ht.2.row (fun _ => ?_) nofun nofun
  rw [State.outer_of_pushed ht.1.below]
  exact hs.reading.touching_of_touched htouched

theorem apt_pathSegmentsBody : KeepsApt (Token.place 0 none ps) n pathSegmentsBody := by
  intro s hs
  refine .bind <| (Returns.asks blank_startsSegment hs.reading).imp fun b t ht => ?_
  have hapt : t.Apt (Token.place 0 none ps) := ⟨ht.reading, along_look hs.reading ht.reading ht.below ht.row hs.row⟩
  cases b with
  | false => exact .done hapt
  | true =>
    have htouched := ht.yes rfl
    refine .bind <| .bind <| .look rfl fun k u hpeek _ => .done ?_
    obtain ⟨-, rfl⟩ := State.of_perform_peek hpeek
    split
    · exact .bind <| (apt_fieldSegment h (hapt.looked htouched) htouched.looked).imp fun _ v hv => h.rule .pathSegments v hv
    · exact .bind <| (apt_indexSegment h (hapt.looked htouched) htouched.looked).imp fun _ v hv => h.rule .pathSegments v hv

omit h in
/-- The segments of a path are read until none touches what was read. -/
theorem untouched_of_pathSegments {t : State} {a : Unit} (hs : s.Reading (Token.place 0 none ps)) (hsteady : s.Steady)
    (hrun : runRule n .pathSegments s = .ok (a, t)) (hfuel : t.exhausted = false) : t.Untouched Kind.startsSegment := by
  induction n generalizing s with
  | zero => cases hrun
  | succ n ih =>
    obtain ⟨b, u, hask, hrest⟩ := Routine.run_bind_eq_ok.mp hrun
    have hu := (respected_reading _).run hask hs
    have hsteady' := (respected_hushes.run hask).steady hsteady
    have hfuel' := (respected_hushes.run hrest).fuelled hfuel
    have hasked := (Returns.asks blank_startsSegment hs hsteady b u hask hfuel').2
    cases b with
    | false =>
      cases hrest
      exact hasked.no rfl
    | true =>
      obtain ⟨c, v, hpeek, hrest⟩ := Routine.run_bind_eq_ok.mp hrest
      have hv := (respected_reading _).run hpeek hu
      have hsteady'' := (respected_hushes.run hpeek).steady hsteady'
      cases c with
      | true =>
        obtain ⟨_, w, hsegment, hagain⟩ := Routine.run_bind_eq_ok.mp hrest
        exact ih ((respected_reading _).run hsegment hv) ((respected_hushes.run hsegment).steady hsteady'') hagain
      | false =>
        obtain ⟨_, w, hsegment, hagain⟩ := Routine.run_bind_eq_ok.mp hrest
        exact ih ((respected_reading _).run hsegment hv) ((respected_hushes.run hsegment).steady hsteady'') hagain

/-- A path is sealed, and no segment touches it. -/
theorem sealed_pathSegments (hs : s.Apt (Token.place 0 none ps)) :
    Returns n (rule .pathSegments) s fun _ t => t.Apt (Token.place 0 none ps) ∧ t.Untouched Kind.startsSegment := by
  intro hsteady a t hrun hfuel
  obtain ⟨hfollows, ht⟩ := h.rule .pathSegments s hs hsteady a t hrun hfuel
  exact ⟨hfollows, ht, untouched_of_pathSegments hs.reading hsteady hrun hfuel⟩

/-- The innermost frame was given blanks and a path, which no segment touches. -/
structure State.AddsPath (tokens : List Token) (s t : State) : Prop where
  reading : t.Reading tokens
  below : t.below = s.below
  row : ∃ us cs, t.trees = s.trees ++ (us ++ [.node .path cs]) ∧ Along Sealed s.before (us ++ [.node .path cs]) t.rest
  clear : t.Untouched Kind.startsSegment

omit h in
theorem addsPath_node {body : Routine α} (hs : s.Reading (Token.place 0 none ps))
    (hbody : Returns n body (s.pushed (some .path)) fun _ t => t.Apt (Token.place 0 none ps) ∧ t.Untouched Kind.startsSegment) :
    Returns n (node .path body) s fun _ t => s.AddsPath (Token.place 0 none ps) t := by
  refine (Returns.reading (Q := fun _ t => s.AddsPath _ t) hs ?_).imp fun _ _ ht => ht.2
  refine .node <| hbody.follows.imp fun _ t ht hfollows hclosed => ⟨hclosed, hfollows.below, ?_, ?_⟩
  · refine ⟨s.held.map Token.leaf, t.trees, s.trees_closed t .path, ?_⟩
    refine along_append.mpr ⟨along_leaves fun t _ => sealed_leaf t, along_singleton.mpr ?_⟩
    rw [Tree.leavesOf_map_leaf, ← State.outer_of_pushed ht.1.below]
    exact Tree.sealed_of_isPlain rfl ht.2.1.row
  · refine ht.2.2.of_eq ?_ rfl
    rw [State.before, State.before, State.outer_of_pushed ht.1.below, ← State.before_drain]
    simp [State.closed, State.before, State.trees, State.outer, Tree.leavesOf_append, leavesOf, Tree.leaves]

/-- A term is sealed once it was looked into whether a path follows. -/
theorem apt_continuePath {k : Kind} (hk : canRoot k = true) (hs : s.Reading (Token.place 0 none ps)) (hloose : s.Loose) :
    Returns n (continuePath k) s fun _ t => t.Apt (Token.place 0 none ps) := by
  obtain ⟨ts, u, hrow, hu⟩ := hloose
  have hpath : continuePath k = (do
      if ← asks Kind.startsSegment then
        wrapped .query (node .path (rule .pathSegments))
        return .query
      else return k) := by
    simp [continuePath, hk, atSegment_eq]
  rw [hpath]
  refine .bind <| (Returns.asks blank_startsSegment hs).imp fun b t ht => ?_
  have hrest : t.rest = s.rest := hs.rest_eq_of_row ht.reading ht.below ht.row
  have houter : t.outer = s.outer := by rw [State.outer, State.outer, ht.below]
  cases b with
  | false =>
    refine .done ⟨ht.reading, ?_⟩
    rw [ht.row, hrow]
    refine along_append.mpr ⟨along_leaves fun t _ => sealed_leaf t, along_singleton.mpr ⟨?_, fun _ => ?_⟩⟩
    · rw [Tree.leavesOf_map_leaf, houter, hrest]
      exact hu
    · have hclear := ht.no rfl
      rw [State.Untouched, State.before, ht.row, hrow, Tree.leavesOf_append, ← List.append_assoc] at hclear
      simpa [leavesOf] using hclear
  | true =>
    have hwrapping := ht.reading.wrapping .query
    have hsegments := sealed_pathSegments h (hwrapping.pushed (some .path))
    refine (Returns.reading ht.reading ?_).imp fun _ _ hv => State.Apt.mk hv.1 hv.2
    refine .bind <| .wrapped <| (addsPath_node hwrapping hsegments).imp fun _ v hv => .done fun _ _ => ?_
    obtain ⟨us, cs, hvrow, halong⟩ := hv.row
    have hvouter : v.outer = t.outer := by
      rw [State.outer, hv.below]
      exact t.outer_wrapping .query
    have hvrest : t.rest = leavesOf (us ++ [.node .path cs]) ++ v.rest := hwrapping.rest_eq hv.reading hv.below hvrow
    have hwrow : (t.wrapping .query).trees = ts.map Token.leaf ++ [u] := ht.row.trans hrow
    have hquery : v.trees = ts.map Token.leaf ++ u :: (us ++ [.node .path cs]) := by
      rw [hvrow, hwrow, List.append_assoc, List.singleton_append]
    refine along_singleton.mpr ⟨?_, fun _ => ?_⟩
    · have hjoined : Joined t.outer (.node .query (ts.map Token.leaf ++ u :: (us ++ [.node .path cs]))) v.rest := by
        refine Tree.joined_query ?_ (along_leaves fun t _ => sealed_leaf t) ?_ ?_ (List.append_ne_nil_of_right_ne_nil _ nofun)
        · intro l hl
          obtain ⟨x, _, rfl⟩ := List.mem_map.mp hl
          rfl
        · rw [← hvrest, hrest, Tree.leavesOf_map_leaf, houter]
          exact hu
        · rwa [State.before, t.outer_wrapping, hwrow] at halong
      rw [← hquery] at hjoined
      exact hjoined
    · have hclear := hv.clear
      rw [State.Untouched, State.before, hvouter] at hclear
      exact hclear

omit h in
/-- A term of its own, in a frame that holds nothing else. -/
theorem loose_rooted {k : Kind} {x : Routine Kind} (hk : canRoot k = true)
    (hx : Rooted (fun {_} x => KeepsApt (Token.place 0 none ps) n x) k x) (hs : s.Reading (Token.place 0 none ps))
    (hrow : s.trees = []) : Returns n x s fun k' t => k' = k ∧ t.Reading (Token.place 0 none ps) ∧ t.Loose := by
  obtain ⟨body, rfl, hanswers, hbody⟩ := hx
  have hloose : Returns n (node k body) s fun _ t => t.Reading (Token.place 0 none ps) ∧ t.Loose := by
    refine .reading hs <| .node <| (hbody _ (hs.pushed _)).follows.imp fun _ t ht _ _ => ⟨s.held, .node k t.trees, ?_, ?_⟩
    · have hdrain := s.trees_drain
      rw [hrow, List.nil_append] at hdrain
      rw [← hdrain]
      simp [State.closed, State.trees]
    · have houter : t.outer = (s.closed k t).outer ++ s.held.map Token.piece := by
        rw [State.outer_of_pushed ht.1.below, State.before, hrow]
        simp [State.closed, leavesOf, State.outer, State.drain_eq]
      rw [← houter]
      refine Tree.joined_of_ne ht.2.row ?_ ?_ ?_ <;> (rintro rfl; cases hk)
  exact (Returns.answers hanswers.node hloose).imp fun _ t ht => ⟨by simpa using ht.1, ht.2⟩

/-- A parenthesised condition that turns out to be a group. -/
theorem apt_group : KeepsApt (Token.place 0 none ps) n (wrapped .group (pure ()) >>= fun _ => continuePath .group) := by
  intro s hs
  have hloose : Returns n (wrapped .group (pure ())) s fun _ t => t.Reading (Token.place 0 none ps) ∧ t.Loose := by
    refine .reading hs.reading <| .wrapped <| .done fun _ _ => ⟨[], .node .group s.trees, rfl, ?_⟩
    rw [List.map_nil, List.append_nil]
    exact Tree.joined_of_ne hs.row nofun nofun nofun
  exact .bind <| hloose.imp fun _ t ht => apt_continuePath h rfl ht.1 ht.2

/-- A routine reads a term, which is sealed once it was looked into whether a path follows. -/
def ReadsTerm (ps : List (Kind × Text)) (n : Nat) (x : Routine Kind) : Prop :=
  ∀ s : State, s.Apt (Token.place 0 none ps) → s.trees = [] →
    Returns n (x >>= continuePath) s fun _ t => t.Apt (Token.place 0 none ps)

theorem ReadsTerm.rooted {k : Kind} {x : Routine Kind} (hk : canRoot k = true)
    (hx : Rooted (fun {_} x => KeepsApt (Token.place 0 none ps) n x) k x) : ReadsTerm ps n x := by
  intro s hs hrow
  refine .bind <| (loose_rooted hk hx hs.reading hrow).imp fun k' t ht => ?_
  obtain ⟨rfl, hreading, hloose⟩ := ht
  exact apt_continuePath h hk hreading hloose

omit h in
/-- A term that no path continues. -/
theorem ReadsTerm.unrooted {x : Routine Kind} (hx : Answers (!canRoot ·) x) (hkeeps : KeepsApt (Token.place 0 none ps) n x) :
    ReadsTerm ps n x := by
  refine fun s hs _ => .bind <| (Returns.answers hx (hkeeps s hs)).imp fun k t ht => ?_
  have hk : canRoot k = false := by simpa using ht.1
  have hpath : continuePath k = pure k := by simp [continuePath, hk, Routine.bind]
  rw [hpath]
  exact .done ht.2

omit h in
/-- One of two terms, after a look at the tokens ahead. -/
theorem ReadsTerm.look {action : Action α} {f : α → Routine Kind} (hlook : action.isLook = true)
    (hf : ∀ a, ReadsTerm ps n (f a)) : ReadsTerm ps n (act action >>= f) := by
  intro s hs hrow
  rw [Routine.bind_eq, Routine.bind_eq, Routine.bind_assoc]
  refine .bind <| .look hlook fun a t ht _ => ?_
  obtain ⟨hapt, hrow'⟩ := hs.look hlook ht
  exact hf a t hapt (hrow'.trans hrow)

omit h in
theorem ReadsTerm.fail (f : Fault) : ReadsTerm ps n (.fail f) := fun _ _ _ => .fail f

omit h in
theorem ReadsTerm.ite {c : Prop} [Decidable c] {x y : Routine Kind} (hx : ReadsTerm ps n x) (hy : ReadsTerm ps n y) :
    ReadsTerm ps n (if c then x else y) := by
  split
  · exact hx
  · exact hy

omit h in
theorem answers_simpleLiteral {k : Kind} (hk : canRoot k = false) : Answers (!canRoot ·) (simpleLiteral k) := by
  have hdone : Answers (!canRoot ·) (pure k : Routine Kind) := .done (by rw [hk]; rfl)
  exact .node <| .bind fun _ => .ite (.bind fun _ => .bind fun _ => hdone) (.bind fun _ => hdone)

omit h in
theorem answers_literal : Answers (!canRoot ·) literal := by
  refine .bind fun k => ?_
  split
  case h_3 =>
    refine .bind fun _ => .ite (answers_simpleLiteral rfl) ?_
    exact .bind fun _ => .ite (answers_simpleLiteral rfl) (.bind fun _ => .done rfl)
  case h_4 => exact .node <| .bind fun _ => .bind fun _ => .bind fun _ => .done rfl
  case h_11 => exact fun _ _ _ _ hrun => by cases hrun
  all_goals exact answers_simpleLiteral rfl

/-- What a query with a bare root is closed with: no segment touches it, and if it has no path, no name touches it either. -/
structure State.Rested (ps : List (Kind × Text)) (s : State) : Prop where
  apt : s.Apt (Token.place 0 none ps)
  clear : s.Untouched Kind.startsSegment
  bare : ∀ r t, s.trees = [.leaf r t] → (r = .dot ∨ r = .percent) → beginsWith Kind.startsPath s.rest = false

omit h in
theorem State.AddsPath.rested {t : State} (h : s.AddsPath (Token.place 0 none ps) t) (hs : s.Apt (Token.place 0 none ps)) :
    t.Rested ps := by
  obtain ⟨us, cs, hrow, halong⟩ := h.row
  refine ⟨⟨h.reading, along_extend hs.reading h.reading h.below hrow hs.row halong⟩, h.clear, fun r x hleaf => ?_⟩
  have hlast : (s.trees ++ (us ++ [Tree.node .path cs])).getLast? = some (.leaf r x) := by rw [← hrow, hleaf]; rfl
  simp at hlast

omit h in
theorem State.rested_of_untouched (hs : s.Apt (Token.place 0 none ps)) (hsegment : s.Untouched Kind.startsSegment)
    (hpath : s.Untouched Kind.startsPath) : s.Rested ps := by
  refine ⟨hs, hsegment, fun r t hrow hr => hpath ?_⟩
  simp only [State.before, hrow, leavesOf, Tree.leaves, touching]
  rcases hr with rfl | rfl <;> simp [Kind.breaksAdjacency]

/-- A path after a bare root. -/
theorem rested_path (hs : s.Apt (Token.place 0 none ps)) (htouched : s.Touched) :
    Returns n (node .path do
      if ← peekIs .bracketOpen then indexSegment else node .fieldSegment fieldName
      rule .pathSegments) s fun _ t => t.Rested ps := by
  refine (addsPath_node hs.reading ?_).imp fun _ t ht => ht.rested hs
  have hpushed := hs.reading.pushed (some .path)
  have htouched' := htouched.pushed (some .path)
  refine .bind <| .bind <| .look rfl fun k u hpeek _ => .done ?_
  obtain ⟨-, rfl⟩ := State.of_perform_peek hpeek
  have hu := hpushed.looked htouched'
  split
  · exact .bind <| (apt_indexSegment h hu htouched'.looked).imp fun _ v hv => sealed_pathSegments h hv
  · refine .bind <| (apt_field hu htouched'.looked (closed_fieldName h.toParts) ?_).imp fun _ v hv => sealed_pathSegments h hv
    exact named_fieldName h (hu.reading.pushed _).reading (htouched'.looked.pushed _) trivial

/-- A query that begins with a bare root. -/
theorem apt_externalQuery : KeepsApt (Token.place 0 none ps) n externalQuery := by
  intro s hs
  refine .sealed hs <| Returns.imp (Q := fun _ t => t.Rested ps) ?_ fun _ t ht => ⟨?_, fun _ => ht.clear⟩
  case refine_2 => exact Tree.joined_node ht.apt.row nofun nofun fun r t _ hcs hr => ht.bare r t hcs hr
  have hadvance : KeepsApt (Token.place 0 none ps) n advance := h.simple rfl
  refine .bind <| (hadvance _ (hs.reading.pushed _)).imp fun _ t ht => ?_
  refine .bind <| (Returns.asks blank_startsPath ht.reading).imp fun b u hu => ?_
  have hapt : u.Apt (Token.place 0 none ps) := ⟨hu.reading, along_look ht.reading hu.reading hu.below hu.row ht.row⟩
  cases b with
  | true => exact .bind <| (rested_path h hapt (hu.yes rfl)).imp fun _ v hv => .done hv
  | false =>
    refine .bind <| (Returns.asks blank_startsSegment hu.reading).imp fun c v hv => ?_
    have hapt' : v.Apt (Token.place 0 none ps) := ⟨hv.reading, along_look hu.reading hv.reading hv.below hv.row hapt.row⟩
    cases c with
    | true =>
      refine .bind <| .look rfl fun _ w hreport _ => ?_
      obtain ⟨hw, -⟩ := hapt'.look rfl hreport
      refine .bind <| (addsPath_node hw.reading (sealed_pathSegments h (hw.reading.pushed _))).imp fun _ x hx => .done ?_
      exact hx.rested hw
    | false => exact .done (State.rested_of_untouched hapt' (hv.no rfl) (hv.keeps_untouched hu.reading (hu.no rfl)))

omit h in
theorem answers_externalQuery : Answers (!canRoot ·) externalQuery :=
  .node <| .bind fun _ => .bind fun _ => .ite (.bind fun _ => .done rfl) <| .bind fun _ =>
    .ite (.bind fun _ => .bind fun _ => .done rfl) (.done rfl)

theorem readsTerm_objectOrBlock : ReadsTerm ps n objectOrBlock := by
  obtain ⟨x, hx, hblock⟩ := rooted_block h.toParts h.separating
  have hmissing : ReadsTerm ps n (do reportFound .unexpectedToken (some .openBrace); return .error) :=
    .unrooted (.bind fun _ => .done rfl) (h.bind (closed_reportFound h.toParts rfl _) fun _ => h.done _)
  unfold objectOrBlock
  rw [require_bind, hblock]
  refine .look rfl fun k => .ite (.look rfl fun b => .ite (.rooted h rfl (rooted_object h.toParts h.separating)) ?_) (.fail _)
  exact .look rfl fun k => .ite (.rooted h rfl hx) hmissing

theorem readsTerm_identOrCall : ReadsTerm ps n identOrCall := by
  obtain ⟨call, name, hcall, hname, heq⟩ := rooted_identOrCall h.toParts (closed_argumentList h) (closed_closure h)
  rw [heq, require_bind]
  exact .look rfl fun k => .ite (.look rfl fun b => .ite (.rooted h rfl hcall) (.rooted h rfl hname)) (.fail _)

theorem apt_literal : KeepsApt (Token.place 0 none ps) n literal :=
  closed_literal h.toParts fun k hk => .node (Kind.isPlain_of_isLiteral hk) (closed_simpleLiteralBody h.toParts k)

theorem apt_term : KeepsApt (Token.place 0 none ps) n term := by
  refine .nested <| .marked_of fun s hs hrow => .bind <| .look rfl fun k t hpeek hbuilt => ?_
  obtain ⟨ht, hrow'⟩ := hs.look rfl hpeek
  rw [hrow] at hrow'
  split
  case h_1 | h_2 => exact ReadsTerm.unrooted answers_externalQuery (apt_externalQuery h) t ht hrow'
  case h_13 => exact ReadsTerm.rooted h rfl (rooted_group h.toParts h.separating) t ht hrow'
  case h_14 => exact ReadsTerm.rooted h rfl (rooted_array h.toParts h.separating) t ht hrow'
  case h_15 => exact readsTerm_objectOrBlock h t ht hrow'
  case h_16 => exact readsTerm_identOrCall h t ht hrow'
  case h_17 => exact .bind <| (closed_missingOperand h.toParts t ht).imp fun _ _ hu => .done hu
  all_goals exact ReadsTerm.unrooted answers_literal (apt_literal h) t ht hrow'

end Grammar

/-- Every rule leaves sealed trees behind, by induction on the bound on nested rules. -/
theorem apt_runRule (ps : List (Kind × Text)) (n : Nat) (r : Rule α) : KeepsApt (Token.place 0 none ps) n (rule r) := by
  induction n generalizing α with
  | zero => exact fun s _ => .zero r s
  | succ n ih =>
    have h : GrammarClosed fun {_} x => KeepsApt (Token.place 0 none ps) n x := closed_keepsApt ih
    exact fun s hs => .rule (closed_grammar h (apt_term h) (apt_group h) (apt_pathSegmentsBody h) r s hs)

/-- A program is joined. -/
theorem joined_program (ps : List (Kind × Text)) (limit : Nat) (fuel : Option Nat) (n : Nat) :
    Returns n program (.start (Token.place 0 none ps) limit fuel) fun _ t =>
      ∀ tree, t.top.built = [tree] → Joined [] tree [] := by
  intro hsteady a t hrun hfuel
  have hprogram : KeepsApt (Token.place 0 none ps) n program :=
    .node rfl <| .bind (apt_runRule ps n (.statements none)) fun _ => .flat rfl
  obtain ⟨hfollows, ht⟩ := hprogram _ ⟨State.reading_start _ _ _, trivial⟩ hsteady a t hrun hfuel
  refine ⟨hfollows, fun tree hbuilt => ?_⟩
  obtain ⟨hunread, hheld⟩ := nothing_left hrun hfuel
  have hrow := ht.row
  have hrest : t.rest = [] := by rw [State.rest, hunread, hheld]; rfl
  have houter : t.outer = [] := by rw [State.outer, hfollows.below]; rfl
  rw [State.trees, hbuilt, hrest, houter] at hrow
  exact (along_singleton.mp hrow).1

end Remap.Parser
