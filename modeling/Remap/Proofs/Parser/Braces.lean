import Remap.Proofs.Parser.Extends
import Remap.Proofs.Parser.Paths
import Remap.Proofs.Tree.Braces

/-!
# What a brace was found to open

Where a term begins with a brace the parser looks at the tokens behind it, and then builds an object or a block from the brace on. Since
no leaf is lost or moved, these tokens are at last the leaves behind the brace. So in every tree that is built the braces tell what they
open (`Told`), but for the blocks of `if` statements and closures, which are read as blocks without a look. These are never at the start
of a frame, so what is asked of a row of trees is asked of the trees behind some first ones.
-/

namespace Remap.Parser

open Tree (leavesOf Along along_append along_singleton along_leaves Fits fits_leaf fits_node)

variable {α β : Type}

/-- A property holds of the trees of the innermost frame, some first ones apart. -/
def State.Behind (P : List (Kind × Text) → Tree → List (Kind × Text) → Prop) (first : List Tree) (s : State) : Prop :=
  ∃ us, s.trees = first ++ us ∧ Along P (s.outer ++ leavesOf first) us s.rest

namespace State.Behind

variable {P Q : List (Kind × Text) → Tree → List (Kind × Text) → Prop} {first : List Tree} {tokens : List Token} {s t : State}

theorem refl (s : State) : s.Behind P s.trees := ⟨[], (List.append_nil _).symm, trivial⟩

theorem along (h : s.Behind P []) : Along P s.outer s.trees s.rest := by
  obtain ⟨us, hus, halong⟩ := h
  rw [hus]
  simpa [leavesOf] using halong

theorem of_along (h : Along P s.outer s.trees s.rest) : s.Behind P [] := ⟨s.trees, rfl, by simpa [leavesOf] using h⟩

/-- Trees with the property were added. -/
theorem add (h : s.Behind P first) (hs : s.Reading tokens) (ht : t.Reading tokens) (hbelow : t.below = s.below) {vs : List Tree}
    (hrow : t.trees = s.trees ++ vs) (hvs : Along P s.before vs t.rest) : t.Behind P first := by
  obtain ⟨us, hus, halong⟩ := h
  have houter : t.outer = s.outer := by rw [outer, outer, hbelow]
  refine ⟨us ++ vs, by rw [hrow, hus, List.append_assoc], along_append.mpr ⟨?_, ?_⟩⟩
  · rw [← hs.rest_eq ht hbelow hrow, houter]
    exact halong
  · rw [before, hus, Tree.leavesOf_append, ← List.append_assoc] at hvs
    rw [houter]
    exact hvs

theorem of_eq (h : s.Behind P first) (hs : s.Reading tokens) (ht : t.Reading tokens) (hbelow : t.below = s.below)
    (hrow : t.trees = s.trees) : t.Behind P first :=
  h.add hs ht hbelow (hrow.trans (List.append_nil _).symm) trivial

/-- Leaves were added. -/
theorem add_leaves (h : s.Behind P first) (hleaf : ∀ (t : Token) xs ys, P xs t.leaf ys) (hs : s.Reading tokens) (ht : t.Reading tokens)
    (hbelow : t.below = s.below) (hadds : AddsLeaves s t) : t.Behind P first := by
  obtain ⟨ts, hts⟩ := hadds
  have hrow : t.trees = s.trees ++ ts.reverse.map Token.leaf := by simp [trees, hts, List.map_reverse]
  exact h.add hs ht hbelow hrow (along_leaves fun t _ => hleaf t)

/-- The node that was opened in `s` was closed in `t`. -/
theorem closed {k : Kind} (h : s.Behind P first) (hleaf : ∀ (t : Token) xs ys, P xs t.leaf ys) (hs : s.Reading tokens)
    (ht : (s.closed k t).Reading tokens) (hbelow : t.below = (s.pushed (some k)).below) (hnode : P t.outer (.node k t.trees) t.rest) :
    (s.closed k t).Behind P first := by
  refine h.add hs ht (by rw [State.closed, drain_eq]) (s.trees_closed t k) ?_
  refine along_append.mpr ⟨along_leaves fun t _ => hleaf t, along_singleton.mpr ?_⟩
  rw [Tree.leavesOf_map_leaf, ← outer_of_pushed hbelow]
  exact hnode

end State.Behind

variable {P Q : List (Kind × Text) → Tree → List (Kind × Text) → Prop} {tokens : List Token} {n : Nat}

/-- A routine adds trees with a property, or takes in such trees where a mark is innermost. -/
def Supplies (P : List (Kind × Text) → Tree → List (Kind × Text) → Prop) (tokens : List Token) (n : Nat) (x : Routine α) : Prop :=
  ∀ (first : List Tree) (s : State), (s.top.label = none → first = []) → s.Reading tokens → s.Behind P first →
    Returns n x s fun _ t => t.Reading tokens ∧ t.Behind P first

/-- A routine adds trees with a property where a node is innermost. -/
def SuppliesNode (P : List (Kind × Text) → Tree → List (Kind × Text) → Prop) (tokens : List Token) (n : Nat) (x : Routine α) : Prop :=
  ∀ (first : List Tree) (s : State), s.top.label ≠ none → s.Reading tokens → s.Behind P first →
    Returns n x s fun _ t => t.Reading tokens ∧ t.Behind P first

theorem Supplies.toNode {x : Routine α} (h : Supplies P tokens n x) : SuppliesNode P tokens n x :=
  fun first s hlabel => h first s fun hnone => absurd hnone hlabel

namespace SuppliesNode

theorem done (a : α) : SuppliesNode P tokens n (pure a : Routine α) := fun _ _ _ hs hbehind => .done ⟨hs, hbehind⟩

theorem bind {x : Routine α} {f : α → Routine β} (hx : SuppliesNode P tokens n x) (hf : ∀ a, SuppliesNode P tokens n (f a)) :
    SuppliesNode P tokens n (x >>= f) :=
  fun first s hlabel hs hbehind => .bind <| (hx first s hlabel hs hbehind).follows.imp fun a t ht =>
    hf a first t (ht.1.label ▸ hlabel) ht.2.1 ht.2.2

theorem ite {c : Prop} [Decidable c] {x y : Routine α} (hx : SuppliesNode P tokens n x) (hy : SuppliesNode P tokens n y) :
    SuppliesNode P tokens n (if c then x else y) := by
  split
  · exact hx
  · exact hy

/-- What is added has a property that says less. -/
theorem imp (hPQ : ∀ xs t ys, P xs t ys → Q xs t ys) {x : Routine α} (hx : SuppliesNode P tokens n x) : SuppliesNode Q tokens n x := by
  refine fun first s hlabel hs hbehind => (hx s.trees s hlabel hs (.refl s)).follows.imp fun _ t ht => ⟨ht.2.1, ?_⟩
  obtain ⟨us, hus, halong⟩ := ht.2.2
  have houter : t.outer = s.outer := by rw [State.outer, State.outer, ht.1.below]
  rw [houter] at halong
  exact hbehind.add hs ht.2.1 ht.1.below hus (halong.imp hPQ)

end SuppliesNode

namespace Supplies

theorem done (a : α) : Supplies P tokens n (pure a : Routine α) := fun _ _ _ hs hbehind => .done ⟨hs, hbehind⟩

theorem bind {x : Routine α} {f : α → Routine β} (hx : Supplies P tokens n x) (hf : ∀ a, Supplies P tokens n (f a)) :
    Supplies P tokens n (x >>= f) :=
  fun first s hlabel hs hbehind => .bind <| (hx first s hlabel hs hbehind).follows.imp fun a t ht =>
    hf a first t (fun hnone => hlabel (ht.1.label ▸ hnone)) ht.2.1 ht.2.2

variable (hleaf : ∀ (t : Token) xs ys, P xs t.leaf ys)

include hleaf

theorem flat {action : Action α} (hflat : action.isFlat = true) : Supplies P tokens n (act action) := by
  refine fun first s hlabel hs hbehind => .flat hflat fun b t h hadds => ?_
  have ht := (respected_reading tokens).perform h hs
  exact ⟨ht, hbehind.add_leaves hleaf hs ht (flat_perform hflat h).1.below hadds⟩

/-- A node is added once it is closed. -/
theorem node {k : Kind} {body : Routine α} (hnode : ∀ xs cs ys, Along Q xs cs ys → P xs (.node k cs) ys)
    (h : SuppliesNode Q tokens n body) : Supplies P tokens n (Parser.node k body) := by
  refine fun first s hlabel hs hbehind => Returns.reading (Q := fun _ t => t.Behind P first) hs ?_
  have hpushed := (respected_reading tokens).perform (s.perform_openNode k) hs
  refine .node <| (h [] _ (Option.some_ne_none k) hpushed (.refl _)).follows.imp fun _ t ht _ hclosed => ?_
  exact hbehind.closed hleaf hs hclosed ht.1.below (hnode _ _ _ ht.2.2.along)

omit hleaf in
theorem wrapped {k : Kind} {body : Routine α} (hnode : ∀ xs cs ys, Along P xs cs ys → P xs (.node k cs) ys)
    (h : Supplies P tokens n body) : Supplies P tokens n (Parser.wrapped k body) := by
  refine fun first s hlabel hs hbehind => .of_mark fun hmark => ?_
  obtain rfl := hlabel hmark
  refine Returns.reading (Q := fun _ t => t.Behind P []) hs ?_
  have hwrapping : (s.wrapping k).Behind P [] := .of_along (by rw [s.outer_wrapping k]; exact hbehind.along)
  refine .wrapped <| (h [] _ (absurd · (Option.some_ne_none k)) (hs.wrapping k) hwrapping).follows.imp fun _ t ht _ _ => .of_along <| along_singleton.mpr ?_
  have houter : t.outer = (s.wrapped k t).outer := by
    rw [State.outer, ht.1.below]
    exact s.outer_wrapping k
  rw [← houter]
  exact hnode _ _ _ ht.2.2.along

theorem marked {body : Routine α} (h : Supplies P tokens n body) : Supplies P tokens n (Parser.marked body) := by
  refine fun first s hlabel hs hbehind => Returns.reading (Q := fun _ t => t.Behind P first) hs ?_
  have hpushed := (respected_reading tokens).perform s.perform_mark hs
  refine .marked <| (h [] _ (fun _ => rfl) hpushed (.refl _)).follows.imp fun _ t ht _ hjoined => ?_
  refine hbehind.add hs hjoined (by rw [State.joined, State.drain_eq]) (s.trees_joined t) ?_
  refine along_append.mpr ⟨along_leaves fun t _ => hleaf t, ?_⟩
  rw [Tree.leavesOf_map_leaf, ← State.outer_of_pushed ht.1.below]
  exact ht.2.2.along

theorem nested (herror : ∀ xs (ts : List Token) ys, P xs (.node .error (ts.map Token.leaf)) ys) {body : Routine Kind}
    (h : Supplies P tokens n body) : Supplies P tokens n (Parser.nested body) := by
  refine fun first s hlabel hs hbehind => Returns.reading (Q := fun _ t => t.Behind P first) hs ?_
  refine .nested (fun _ => ?_) (fun _ _ _ => hbehind) fun _ t ts _ hbuilt hfollows ht => ?_
  · exact (h first s.deeper hlabel ⟨hs.unread, hs.leaves, hs.sized⟩ hbehind).imp fun _ _ ht _ _ => ht.2
  · have hrow : t.trees = s.trees ++ (s.skip.held.map Token.leaf ++ [.node .error (ts.map Token.leaf)]) := by
      have hdrain := s.skip.trees_drain
      rw [State.trees, State.trees, s.built_skip] at hdrain
      rw [State.trees, hbuilt, List.reverse_cons, hdrain, List.append_assoc]
      rfl
    refine hbehind.add hs ht hfollows.below hrow ?_
    exact along_append.mpr ⟨along_leaves fun t _ => hleaf t, along_singleton.mpr (herror _ _ _)⟩

end Supplies

/-! ## Objects and blocks -/

/-- What is read behind a brace, in the node that begins with it. -/
theorem braced_body {k : Kind} {tail : Routine α} (htail : Supplies (Fits false) tokens n tail) (hextends : Extends n tail) {s : State}
    {x : Token} {rest : List Token} (hs : s.Reading tokens) (hunread : s.unread = x :: rest) (hx : x.kind = .braceOpen) (hheld : s.held = [])
    (hlabel : s.top.label = some k) (htrees : s.trees = []) :
    Returns n (do act (.pushDelimiter .braceOpen); advance; tail) s fun _ t => t.Behind (Fits false) [] ∧
      ∃ more, t.trees = x.leaf :: more ∧ rest.map Token.piece = leavesOf more ++ t.rest := by
  have hskip : s.skip = s := State.skip_of_nextKind (k := .braceOpen) (by rw [State.nextKind, hunread]; exact hx) (by decide)
  refine .bind <| .look rfl fun _ t hpush hbuilt => ?_
  have ht := (respected_reading tokens).perform hpush hs
  obtain ⟨hunread, hheld, hlabel⟩ : t.unread = x :: rest ∧ t.held = [] ∧ t.top.label = some k := by
    cases hpush
    rw [hskip]
    exact ⟨hunread, hheld, hlabel⟩
  have hc := (respected_reading tokens).perform (State.perform_advance hunread) ht
  have hrow : (t.consumed x rest).trees = [x.leaf] := by
    have hempty : t.top.built = [] := by rw [hbuilt]; exact List.reverse_eq_nil_iff.mp htrees
    simp [State.trees, State.consumed, hheld, hempty]
  have hbehind : (t.consumed x rest).Behind (Fits false) [] := .of_along (by rw [hrow]; exact along_singleton.mpr (fits_leaf x _ _))
  have hnode : (t.consumed x rest).top.label ≠ none := by
    have hsame : (t.consumed x rest).top.label = some k := hlabel
    rw [hsame]
    exact Option.some_ne_none k
  refine .bind <| .advance hunread <| ((htail [] _ (absurd · hnode) hc hbehind).and (hextends _)).follows.imp fun _ u hu => ?_
  obtain ⟨hfollows, ⟨hu, hbehind⟩, hextends⟩ := hu
  obtain ⟨more, hmore⟩ := hextends hnode
  have hadded : u.trees = (t.consumed x rest).trees ++ more.reverse := by rw [State.trees, ← hmore, List.reverse_append]; rfl
  refine ⟨hbehind, more.reverse, by rw [hadded, hrow]; rfl, ?_⟩
  exact hc.rest_eq hu hfollows.below hadded

/-- The node of an object or a block: the tokens behind its brace say which of the two it is. -/
theorem braced_node {k : Kind} {tail : Routine α} {owned : Bool} (hk : k.ownsBlocks = false)
    (htail : Supplies (Fits false) tokens n tail) (hextends : Extends n tail) {first : List Tree} {s : State} {x : Token} {rest : List Token}
    (hs : s.Reading tokens) (hbehind : s.Behind (Fits owned) first) (hunread : s.unread = x :: rest) (hx : x.kind = .braceOpen)
    (htells : k = .object ↔ Lookahead.isObject rest = true) :
    Returns n (node k (do act (.pushDelimiter .braceOpen); advance; tail)) s fun _ t => t.Reading tokens ∧ t.Behind (Fits owned) first := by
  refine Returns.reading (Q := fun _ t => t.Behind (Fits owned) first) hs ?_
  have hpushed := (respected_reading tokens).perform (s.perform_openNode k) hs
  have hheld : (s.pushed (some k)).held = [] := by rw [State.pushed, State.drain_eq]
  have hbody := braced_body (k := k) htail hextends hpushed ((s.unread_pushed (some k)).trans hunread) hx hheld rfl rfl
  refine .node <| hbody.follows.imp fun _ t ht _ hclosed => ?_
  obtain ⟨hfollows, hinside, more, hmore, hrest⟩ := ht
  refine hbehind.closed fits_leaf hs hclosed hfollows.below (fits_node (by rw [hk]; exact hinside.along) fun _ => ?_)
  refine ⟨x.text, more, rest, ?_, hrest, htells⟩
  have hleaf : x.leaf = .leaf .braceOpen x.text := by rw [Token.leaf, hx]
  rw [← hleaf]
  exact hmore

theorem object_eq :
    object = node .object (do
      act (.pushDelimiter .braceOpen)
      advance
      (do separating true (do rule (.items .entries); close .braceClose); return .object)) :=
  rfl

/-- The question is asked at the brace that the node begins with. -/
theorem supplies_objectOrBlock (hentries : Supplies (Fits false) tokens n (rule (.items .entries)))
    (hstatements : Supplies (Fits false) tokens n (rule (.statements (some .braceClose))))
    (hclose : Supplies (Fits false) tokens n (close .braceClose))
    (hseparating : ∀ {γ : Type} {x : Routine γ} (b : Bool), Supplies (Fits false) tokens n x → Supplies (Fits false) tokens n (separating b x)) :
    Supplies (Fits false) tokens n objectOrBlock := by
  have e := uniform_extends n
  have hextends := closed_close e.toParts .braceClose
  intro first s hlabel hs hbehind
  unfold objectOrBlock
  rw [require_bind]
  refine .bind <| .look rfl fun k t hpeek hbuilt => ?_
  have ht := (respected_reading tokens).perform hpeek hs
  have hbehind := hbehind.of_eq hs ht (look_perform rfl hpeek).1.below (by rw [State.trees, State.trees, hbuilt])
  obtain ⟨rfl, rfl⟩ := State.of_perform_peek hpeek
  split
  case isFalse => exact .fail _
  case isTrue hnext =>
  obtain ⟨x, rest, hunread, hx⟩ := State.exists_unread hnext (by decide)
  generalize s.looked = t at ht hbehind hnext hunread
  refine .bind <| .look rfl fun b u hahead _ => ?_
  cases hahead
  have hholds : Lookahead.opensObject.holds t.unread = Lookahead.isObject rest := by rw [hunread]; rfl
  rw [hholds]
  split
  · rename_i hobject
    rw [object_eq]
    exact braced_node rfl (.bind (hseparating true (.bind hentries fun _ => hclose)) fun _ => .done _)
      (e.bind (e.separating true (e.bind (e.rule _) fun _ => hextends)) fun _ => e.done _) ht hbehind hunread hx (iff_of_true rfl hobject)
  · rename_i hobject
    refine .bind <| .bind <| .look rfl fun k u hpeek hbuilt => .done ?_
    have hu := (respected_reading tokens).perform hpeek ht
    have hbehind := hbehind.of_eq ht hu (look_perform rfl hpeek).1.below (by rw [State.trees, State.trees, hbuilt])
    obtain ⟨rfl, rfl⟩ := State.of_perform_peek hpeek
    have hskip : t.skip = t := State.skip_of_nextKind hnext (by decide)
    have hsame : t.looked.unread = t.unread := by rw [State.looked, hskip]
    rw [State.nextKind_looked hnext (by decide), if_pos (beq_self_eq_true _)]
    exact braced_node rfl (.bind (hseparating true hstatements) fun _ => .bind hclose fun _ => .done _)
      (e.bind (e.separating true (e.rule _)) fun _ => e.bind hextends fun _ => e.done _) hu hbehind (hsame.trans hunread) hx (iff_of_false (by decide) hobject)

/-! ## Blocks that are owned -/

theorem Supplies.loosen {x : Routine α} (h : Supplies (Fits false) tokens n x) : SuppliesNode (Fits true) tokens n x :=
  h.toNode.imp fun _ _ _ => Fits.loosen

theorem Supplies.separating {x : Routine α} (b : Bool) (h : Supplies (Fits false) tokens n x) :
    Supplies (Fits false) tokens n (Parser.separating b x) :=
  .bind (.flat fits_leaf rfl) fun _ => .bind h fun _ => .bind (.flat fits_leaf rfl) fun _ => .done _

theorem isTold_eq_false {k : Kind} (hk : k ≠ .object ∧ k ≠ .block) (owned : Bool) (cs : List Tree) :
    Tree.isTold owned (.node k cs) = false := by
  cases k <;> first | rfl | exact absurd rfl hk.1 | exact absurd rfl hk.2

/-- A node other than an object or a block. -/
theorem Supplies.other {k : Kind} (hk : k ≠ .object ∧ k ≠ .block) {body : Routine α} (h : SuppliesNode (Fits k.ownsBlocks) tokens n body) :
    Supplies (Fits false) tokens n (Parser.node k body) := by
  refine .node fits_leaf (fun xs cs ys hcs => fits_node hcs fun htold => ?_) h
  rw [isTold_eq_false hk] at htold
  cases htold

/-- The same for a node that begins at a mark, where no blocks are owned. -/
theorem Supplies.otherWrapped {k : Kind} (hk : k ≠ .object ∧ k ≠ .block) (howns : k.ownsBlocks = false) {body : Routine α}
    (h : Supplies (Fits false) tokens n body) : Supplies (Fits false) tokens n (Parser.wrapped k body) := by
  refine .wrapped (fun xs cs ys hcs => fits_node (by rw [howns]; exact hcs) fun htold => ?_) h
  rw [isTold_eq_false hk] at htold
  cases htold

/-- Most kinds are neither those of objects or blocks nor of what owns them. -/
theorem other_of_isParticular {k : Kind} (h : k.isParticular = false) : (k ≠ .object ∧ k ≠ .block) ∧ k.ownsBlocks = false := by
  refine ⟨⟨?_, ?_⟩, ?_⟩
  · rintro rfl
    cases h
  · rintro rfl
    cases h
  · cases k <;> first | rfl | cases h

theorem Supplies.level {k : Kind} (hk : k.isParticular = false) {body : Routine α} (h : Supplies (Fits false) tokens n body) :
    Supplies (Fits false) tokens n (Parser.node k body) ∧ Supplies (Fits false) tokens n (Parser.wrapped k body) := by
  obtain ⟨hother, howns⟩ := other_of_isParticular hk
  exact ⟨.other hother (by rw [howns]; exact h.toNode), .otherWrapped hother howns h⟩

theorem level_supplies (hrule : ∀ {γ : Type} (r : Rule γ), r.isCommon = true → Supplies (Fits false) tokens n (rule r)) :
    Level fun {_} x => Supplies (Fits false) tokens n x where
  done := .done
  fail f := fun _ _ _ _ _ => .fail f
  bind := .bind
  rule := hrule _
  simple h := .flat fits_leaf (Action.isFlat_of_isSimple (Action.isSimple_of_isCommon h))
  marked := .marked fits_leaf
  nested := .nested fits_leaf fun _ _ _ => fits_node (along_leaves fun t _ => fits_leaf t) nofun
  node hk h := (h.level (Kind.isParticular_of_isCommon hk)).1
  wrapped hk h := (h.level (Kind.isParticular_of_isCommon hk)).2
  levelNode hk h := (h.level hk).1
  levelWrapped hk h := (h.level hk).2

section Grammar

variable (l : Level fun {_} x => Supplies (Fits false) tokens n x)

include l

theorem supplies_block : SuppliesNode (Fits true) tokens n block := by
  obtain ⟨_, ⟨body, rfl, -, hbody⟩, heq⟩ := rooted_block l.toParts .separating
  have hmissing : Supplies (Fits false) tokens n (do reportFound .unexpectedToken (some .openBrace); return Kind.error) :=
    l.bind (closed_reportFound l.toParts rfl _) fun _ => l.done _
  have hblock : Supplies (Fits true) tokens n (node .block body) := .node fits_leaf (fun _ _ _ hcs => fits_node hcs nofun) hbody.toNode
  rw [heq]
  exact .bind (closed_peekIs l.toParts _).loosen fun _ => .ite hblock.toNode hmissing.loosen

theorem supplies_branch : SuppliesNode (Fits true) tokens n branch :=
  .bind (closed_predicate l.toParts (level_continuedGroup l)).loosen fun _ => .bind (closed_newlines l.toParts).loosen fun _ =>
    .bind (supplies_block l) fun _ => .done _

theorem supplies_elseBranchesBody (hagain : SuppliesNode (Fits true) tokens n (rule .elseBranches)) :
    SuppliesNode (Fits true) tokens n elseBranchesBody := by
  refine .bind (closed_eat l.toParts _).loosen fun _ => .ite ?_ (.done _)
  refine .bind (closed_newlines l.toParts).loosen fun _ => .bind (closed_eat l.toParts _).loosen fun _ => .ite ?_ ?_
  · exact .bind (supplies_branch l) fun _ => hagain
  · exact .bind (supplies_block l) fun _ => .done _

theorem supplies_ifStatement (hbranches : SuppliesNode (Fits true) tokens n (rule .elseBranches)) :
    Supplies (Fits false) tokens n ifStatement :=
  .other (by decide) <| .bind (closed_require l.toParts _).loosen fun _ => .bind (l.simple rfl).loosen fun _ =>
    .bind (supplies_branch l) fun _ => .bind hbranches fun _ => .done _

theorem supplies_closure : Supplies (Fits false) tokens n closure := by
  refine .other (by decide) <| .bind (l.simple rfl).loosen fun _ => .bind ?_ fun _ => .bind ?_ fun _ => ?_
  · exact (Supplies.other (k := .closureParams) (by decide) (closed_parameterListBody l.toParts).toNode).loosen
  · have hcheck : Supplies (Fits false) tokens n (act .checkParameters) := .flat fits_leaf rfl
    exact hcheck.loosen
  · exact .bind (closed_newlines l.toParts).loosen fun _ => .bind (supplies_block l) fun _ => .done _

theorem supplies_common {r : Rule α} (hr : r.isCommon = true) (hbranches : SuppliesNode (Fits true) tokens n (rule .elseBranches)) :
    Supplies (Fits false) tokens n (grammar r) := by
  obtain ⟨_, hbody, -, hgroup⟩ := rooted_group l.toParts .separating
  refine level_common l ?_ (closed_delimited l.toParts .separating) ?_ (supplies_closure l) (supplies_ifStatement l hbranches) hr
  · rw [hbody]
    exact .other (by decide) hgroup.toNode
  · exact supplies_objectOrBlock (l.rule rfl) (l.rule rfl) (closed_close l.toParts _) .separating

end Grammar

/-- Every rule but the branches of an `if` statement adds trees whose braces are told; those add blocks of their own. By induction on the
bound on nested rules. -/
theorem supplies_rule (tokens : List Token) (n : Nat) :
    (∀ {γ : Type} (r : Rule γ), r.isCommon = true → Supplies (Fits false) tokens n (rule r)) ∧
      SuppliesNode (Fits true) tokens n (rule .elseBranches) := by
  induction n with
  | zero => exact ⟨fun r _ _ s _ _ _ => .zero r s, fun _ s _ _ _ => .zero .elseBranches s⟩
  | succ n ih =>
    obtain ⟨hrule, hbranches⟩ := ih
    have l : Level fun {_} x => Supplies (Fits false) tokens n x := level_supplies hrule
    refine ⟨fun r hr first s hlabel hs hbehind => .rule (supplies_common l hr hbranches first s hlabel hs hbehind), ?_⟩
    exact fun first s hlabel hs hbehind => .rule (supplies_elseBranchesBody l hbranches first s hlabel hs hbehind)

/-- The tree of a program is one node, in which the braces tell what they open. -/
theorem told_program (tokens : List Token) (limit : Nat) (fuel : Option Nat) (n : Nat) :
    Returns n program (.start tokens limit fuel) fun _ t => ∀ tree, t.top.built = [tree] → tree.kind = .program ∧ tree.Told [] := by
  have hsettle : Supplies (Fits false) tokens n (act .settle) := .flat fits_leaf rfl
  have hrun : Supplies (Fits false) tokens n program :=
    .other (by decide) <| .bind ((supplies_rule tokens n).1 (.statements none) rfl).toNode fun _ => hsettle.toNode
  have hroot : Returns n program (.start tokens limit fuel) fun _ t => ∃ cs rest, t.top.built = .node .program cs :: rest := by
    have e := uniform_extends n
    have hbody : Extends n (do rule (.statements none); act .settle) := e.bind (e.rule _) fun _ => .flat rfl
    exact .node <| (hbody _).imp fun _ t _ => ⟨_, _, rfl⟩
  intro hsteady a t hprogram hfuel
  obtain ⟨hfollows, ht, hbehind⟩ := hrun [] _ (fun _ => rfl) (State.reading_start _ _ _) (.refl _) hsteady a t hprogram hfuel
  refine ⟨hfollows, fun tree hbuilt => ⟨?_, ?_⟩⟩
  · obtain ⟨cs, rest, hnode⟩ := (hroot hsteady a t hprogram hfuel).2
    rw [hbuilt] at hnode
    rw [(List.cons.inj hnode).1]
    rfl
  · obtain ⟨hunread, hheld⟩ := nothing_left hprogram hfuel
    have hrow := hbehind.along
    have hrest : t.rest = [] := by rw [State.rest, hunread, hheld]; rfl
    rw [State.trees, hbuilt, hrest] at hrow
    exact (along_singleton.mp hrow).told

end Remap.Parser
