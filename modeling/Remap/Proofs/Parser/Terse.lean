import Remap.Proofs.Parser.Extends
import Remap.Proofs.Parser.Paths
import Remap.Proofs.Tree.Terse

/-!
# Literals are one token

The parser looks at a token before it opens a literal, so the literal holds that token and nothing else. Before it opens an index
segment it has seen the bracket; inside, it consumes one token that may be an integer, and whatever else it finds there is a blank,
a bracket or an error. So all trees of a frame stay terse, in every run, reports or not.
-/

namespace Remap

namespace Parser

open Tree (Brief OneToken isInteger)

variable {α β : Type}

namespace State

/-- All trees of the innermost frame are terse. -/
def Terse (s : State) : Prop := ∀ c ∈ s.top.built, c.Terse

variable {s t : State}

theorem Terse.of_built (h : s.Terse) (hbuilt : t.top.built = s.top.built) : t.Terse := by
  intro c hc
  rw [hbuilt] at hc
  exact h c hc

/-- Leaves make no difference. -/
theorem Terse.adds (h : s.Terse) (hadds : AddsLeaves s t) : t.Terse := by
  obtain ⟨ts, hbuilt⟩ := hadds
  intro c hc
  rw [hbuilt] at hc
  rcases List.mem_append.mp hc with hc | hc
  · obtain ⟨token, -, rfl⟩ := List.mem_map.mp hc
    exact .leaf _ _
  · exact h c hc

theorem Terse.drain (h : s.Terse) : s.drain.Terse := h.adds ⟨s.held.reverse, s.built_drain⟩

end State

/-- A routine leaves terse trees behind wherever it starts with terse trees. -/
def KeepsTerse (n : Nat) (x : Routine α) : Prop := ∀ s : State, s.Terse → Returns n x s fun _ t => t.Terse

section Rules

variable {n : Nat} {s : State}

/-- A node is terse that is brief when it is closed, with terse children. -/
theorem Returns.terse {k : Kind} {body : Routine α} (hs : s.Terse)
    (h : Returns n body (s.pushed (some k)) fun _ t => t.Terse ∧ Brief k t.top.built.reverse) :
    Returns n (Parser.node k body) s fun _ t => t.Terse := by
  refine .node <| h.imp fun _ t ht c hc => ?_
  rcases List.mem_cons.mp hc with rfl | hc
  · exact .node ht.2 fun d hd => ht.1 d (List.mem_reverse.mp hd)
  · exact hs.drain c hc

theorem brief_of_not_isForeseen {k : Kind} (hk : k.isForeseen = false) (cs : List Tree) : Brief k cs := by
  rw [Kind.isForeseen, Bool.or_eq_false_iff] at hk
  refine ⟨fun htokens => absurd ?_ htokens, fun hindex => ?_⟩
  · revert hk
    cases k <;> simp [Kind.isLiteral, Kind.literalTokens]
  · rw [hindex] at hk
    cases hk.2

namespace KeepsTerse

theorem done (a : α) : KeepsTerse n (pure a : Routine α) := fun _ hs => .done hs

theorem bind {x : Routine α} {f : α → Routine β} (hx : KeepsTerse n x) (hf : ∀ a, KeepsTerse n (f a)) : KeepsTerse n (x >>= f) :=
  fun s hs => .bind <| (hx s hs).imp fun a t ht => hf a t ht

theorem flat {action : Action α} (hflat : action.isFlat = true) : KeepsTerse n (act action) :=
  fun _ hs => .flat hflat fun _ _ _ hadds => hs.adds hadds

theorem node {k : Kind} {body : Routine α} (hk : k.isForeseen = false) (h : KeepsTerse n body) :
    KeepsTerse n (Parser.node k body) :=
  fun _ hs => .terse hs <| (h _ fun _ hc => absurd hc List.not_mem_nil).imp fun _ _ ht => ⟨ht, brief_of_not_isForeseen hk _⟩

theorem wrapped {k : Kind} {body : Routine α} (hk : k.isForeseen = false) (h : KeepsTerse n body) :
    KeepsTerse n (Parser.wrapped k body) := by
  refine fun s hs => .wrapped <| (h (s.wrapping k) hs).imp fun _ t ht c hc => ?_
  rw [List.mem_singleton.mp hc]
  exact .node (brief_of_not_isForeseen hk _) fun d hd => ht d (List.mem_reverse.mp hd)

theorem marked {body : Routine α} (h : KeepsTerse n body) : KeepsTerse n (Parser.marked body) := by
  refine fun s hs => .marked <| (h _ fun _ hc => absurd hc List.not_mem_nil).imp fun _ t ht c hc => ?_
  exact (List.mem_append.mp hc).elim (ht c) (hs.drain c)

theorem nested {body : Routine Kind} (h : KeepsTerse n body) : KeepsTerse n (Parser.nested body) := by
  refine fun s hs => .nested (fun _ => h s.deeper hs) (fun _ => hs) fun _ t ts _ hbuilt c hc => ?_
  rw [hbuilt] at hc
  rcases List.mem_cons.mp hc with rfl | hc
  · refine .node (brief_of_not_isForeseen rfl _) fun d hd => ?_
    obtain ⟨token, -, rfl⟩ := List.mem_map.mp hd
    exact .leaf _ _
  · exact (hs.of_built s.built_skip).drain c hc

end KeepsTerse

theorem broad_keepsTerse (hrule : ∀ {γ : Type} (r : Rule γ), KeepsTerse n (rule r)) : Broad fun {_} x => KeepsTerse n x where
  done := .done
  fail f := fun _ _ => .fail f
  bind := .bind
  rule := hrule
  simple h := .flat (Action.isFlat_of_isSimple h)
  marked := .marked
  separating _ h := .bind (.flat rfl) fun _ => .bind h fun _ => .bind (.flat rfl) fun _ => .done _
  nested := .nested
  node hk := .node (Kind.isForeseen_of_isOrdinary hk)
  wrapped hk := .wrapped (Kind.isForeseen_of_isOrdinary hk)
  otherNode := .node
  otherWrapped := .wrapped

/-! ## Literals -/

/-- A node was just opened, and a token of a kind comes next. -/
structure State.Opened (k : Kind) (s : State) : Prop where
  held : s.held = []
  built : s.top.built = []
  next : s.nextKind = k

theorem State.opened_pushed {k : Kind} (label : Option Kind) (hnext : s.nextKind = k) : (s.pushed label).Opened k := by
  refine ⟨?_, rfl, ?_⟩
  · rw [pushed, drain_eq]
  · rw [← hnext, pushed, drain_eq]
    rfl

/-- A look at the next token changes nothing. -/
theorem State.Opened.looked {k : Kind} (h : s.Opened k) (hk : k.isTrivia = false ∧ k ≠ .newline) : s.looked.Opened k := by
  refine ⟨?_, ?_, nextKind_looked h.next hk⟩
  · rw [State.looked, skip_of_nextKind h.next hk]
    exact h.held
  · rw [State.looked, skip_of_nextKind h.next hk]
    exact h.built

theorem State.Opened.consumed {k : Kind} {x : Token} {rest : List Token} (h : s.Opened k) :
    (s.consumed x rest).top.built = [x.leaf] := by
  rw [State.consumed, h.held, h.built]
  rfl

/-- A literal of one token, where that token comes next. -/
theorem terse_plainLiteral {k token : Kind} (htoken : token ∈ k.literalTokens) (hs : s.Terse) (hnext : s.nextKind = token) :
    Returns n (simpleLiteral k) s fun _ t => t.Terse := by
  obtain ⟨htrivia, hnewline, hminus, herror⟩ := Kind.facts_of_literalTokens htoken
  have hopened := (State.opened_pushed (some k) hnext).looked ⟨htrivia, hnewline⟩
  refine .terse hs <| .bind <| .bind <| .look rfl fun k' t hpeek _ => .done ?_
  obtain ⟨rfl, rfl⟩ := State.of_perform_peek hpeek
  obtain ⟨x, rest, hunread, hx⟩ := State.exists_unread hopened.next herror
  rw [hopened.next, if_neg (by simpa using hminus)]
  refine .bind <| .advance hunread <| .done ?_
  rw [State.Terse, hopened.consumed, Token.leaf, hx]
  exact ⟨fun c hc => List.mem_singleton.mp hc ▸ .leaf _ _, fun _ => .plain x.text htoken,
    fun hindex => by rw [hindex] at htoken; cases htoken⟩

/-- A number with a sign, where a sign comes next and the number touches it. -/
theorem terse_signedLiteral {k token : Kind} (htoken : token ∈ k.literalTokens) (hnumber : token = .integer ∨ token = .float)
    (hs : s.Terse) (hnext : s.nextKind = .minus) (hahead : (Lookahead.signs token).holds s.unread = true) :
    Returns n (simpleLiteral k) s fun _ t => t.Terse := by
  have hopened := (State.opened_pushed (some k) hnext).looked (by decide)
  refine .terse hs <| .bind <| .bind <| .look rfl fun k' t hpeek _ => .done ?_
  obtain ⟨rfl, rfl⟩ := State.of_perform_peek hpeek
  obtain ⟨x, rest, hunread, hx⟩ := State.exists_unread hopened.next (by decide)
  rw [hopened.next, if_pos (beq_self_eq_true Kind.minus)]
  refine .bind <| .advance hunread ?_
  have hsame : (s.pushed (some k)).looked.unread = s.unread := by
    have hskip := State.skip_of_nextKind (State.opened_pushed (some k) hnext).next (by decide)
    rw [State.looked, hskip, State.pushed, State.drain_eq]
  rw [← hsame, hunread] at hahead
  obtain ⟨y, hy, htouches⟩ := (Option.any_eq_true _ _).mp hahead
  obtain ⟨more, rfl⟩ := List.head?_eq_some_iff.mp hy
  have hykind : y.kind = token := of_decide_eq_true (Bool.and_eq_true_iff.mp htouches).1
  refine .bind <| .advance (s := (s.pushed (some k)).looked.consumed x (y :: more)) rfl <| .done ?_
  have hbuilt : (((s.pushed (some k)).looked.consumed x (y :: more)).consumed y more).top.built =
      [.leaf token y.text, .leaf .minus x.text] := by
    rw [State.consumed, hopened.consumed, ← hx, ← hykind]
    rfl
  rw [State.Terse, hbuilt]
  refine ⟨fun c hc => ?_, fun _ => .signed x.text y.text htoken hnumber, fun hindex => by rw [hindex] at htoken; cases htoken⟩
  rcases List.mem_cons.mp hc with rfl | hc
  · exact .leaf _ _
  · rw [List.mem_singleton.mp hc]
    exact .leaf _ _

theorem terse_literal (b : Broad fun {_} x => KeepsTerse n x) : KeepsTerse n literal := by
  intro s hs
  refine .bind <| .look rfl fun k t hpeek hbuilt => ?_
  obtain ⟨hk, -⟩ := State.of_perform_peek hpeek
  have ht := hs.of_built hbuilt
  have hnext : t.nextKind = k := by
    obtain ⟨rfl, rfl⟩ := State.of_perform_peek hpeek
    rfl
  split
  case h_3 =>
    refine .bind <| .look rfl fun b' u hahead hbuilt' => ?_
    cases hahead
    split
    · rename_i hsigns
      exact terse_signedLiteral (by decide) (.inl rfl) ht hnext hsigns
    · refine .bind <| .look rfl fun b' u hahead hbuilt'' => ?_
      cases hahead
      split
      · rename_i hsigns
        exact terse_signedLiteral (by decide) (.inr rfl) ht hnext hsigns
      · exact (b.bind (closed_reportAndAdvance b.toParts rfl _) fun _ => b.done _) _ ht
  case h_4 => exact closed_string b.toParts _ ht
  case h_11 => exact .fail _
  all_goals exact terse_plainLiteral (by decide) ht hnext

/-! ## Index segments -/

/-- How many integers are among the trees of the innermost frame. -/
def State.integers (s : State) : Nat := s.top.built.countP isInteger

theorem Adds.integers_eq {t : State} (h : Adds (·.isInteger = false) s t) : t.integers = s.integers := by
  obtain ⟨new, hbuilt, hnew⟩ := h
  have hnone : new.countP isInteger = 0 := List.countP_eq_zero.mpr fun c hc => by simp [hnew c hc]
  rw [State.integers, hbuilt, List.countP_append, hnone, Nat.zero_add, State.integers]

theorem isInteger_of_isBlank : (c : Tree) → c.isBlank = true → c.isInteger = false
  | .leaf k _, h => by
    have hblank : k.isTrivia = true ∨ k = .newline := by simpa [Tree.isBlank] using h
    rcases Kind.blank_cases hblank with rfl | rfl | rfl | rfl <;> rfl

/-- Consuming a token that is no integer. -/
theorem integers_consumed_eq {x : Token} {rest : List Token} (hs : s.Steady) (hx : x.kind ≠ .integer) :
    (s.consumed x rest).integers = s.integers :=
  (adds_consumed hs isInteger_of_isBlank (decide_eq_false hx)).integers_eq

/-- Consuming any token. -/
theorem integers_advance (s : State) : Returns n Parser.advance s fun _ t => t.integers ≤ s.integers + 1 := by
  refine .of_steady fun hsteady => .advance_any fun x rest _ => ?_
  have hdrained : s.drain.integers = s.integers :=
    Adds.integers_eq ⟨_, s.built_drain, fun c hc => isInteger_of_isBlank c (hsteady.isBlank_held c hc)⟩
  have hbuilt : (s.consumed x rest).top.built = x.leaf :: s.drain.top.built := by
    rw [State.built_drain, State.consumed, List.map_reverse]
  rw [State.integers, hbuilt, List.countP_cons, ← State.integers, hdrained]
  split <;> omega

/-- Blanks and nodes are no integers. -/
theorem lax_isInteger : Lax (·.isInteger = false) := ⟨isInteger_of_isBlank, fun _ _ => rfl⟩

/-- What is inside an index segment holds one integer at most, where its bracket comes next. -/
theorem integers_indexSegment (hnext : s.nextKind = .bracketOpen) :
    Returns n (do
      act (.pushDelimiter .bracketOpen)
      advance
      newlines
      let expectInteger := reportFound .unexpectedToken (some .indexInteger)
      match ← peek with
      | .integer => advance
      | .minus =>
        if ← ahead (.signs .integer) then
          advance
          advance
        else expectInteger
      | _ => expectInteger
      newlines
      close .bracketClose) (s.pushed (some .indexSegment)) fun _ t => t.integers ≤ 1 := by
  have hend (t : State) (ht : t.integers ≤ 1) :
      Returns n (do newlines; close .bracketClose) t fun _ u => u.integers ≤ 1 :=
    ((AddsOnly.newlines lax_isInteger).bind (fun _ => .close lax_isInteger (fun _ => rfl) (by decide)) t).imp
      fun _ _ hu => hu.integers_eq ▸ ht
  have hexpect (t : State) (ht : t.integers = 0) :
      Returns n (do reportFound .unexpectedToken (some .indexInteger); newlines; close .bracketClose) t fun _ u => u.integers ≤ 1 :=
    .bind <| (AddsOnly.reportFound (p := (·.isInteger = false)) _ _ t).imp fun _ u hu => hend u (by rw [hu.integers_eq, ht]; exact Nat.zero_le 1)
  have hopened := State.opened_pushed (some .indexSegment) hnext
  refine .of_steady fun hsteady => .bind <| .look rfl fun _ t hpush hbuilt => ?_
  have hsteady := (hushes_perform hpush).steady hsteady
  have ht : t.nextKind = .bracketOpen ∧ t.integers = 0 := by
    refine ⟨?_, by rw [State.integers, hbuilt, hopened.built]; rfl⟩
    cases hpush
    exact State.nextKind_looked hopened.next (by decide)
  obtain ⟨x, rest, hunread, hx⟩ := State.exists_unread ht.1 (by decide)
  refine .bind <| .advance hunread ?_
  have hbracket : (t.consumed x rest).integers = 0 := (integers_consumed_eq hsteady (by rw [hx]; decide)).trans ht.2
  refine .bind <| (AddsOnly.newlines lax_isInteger _).imp fun _ u hu => .bind <| .of_steady fun hsteady => .look rfl fun k v hpeek hbuilt' => ?_
  have hsteady := (hushes_perform hpeek).steady hsteady
  have hv : v.integers = 0 := by rw [State.integers, hbuilt', ← State.integers, hu.integers_eq, hbracket]
  obtain ⟨hk, hlooked⟩ := State.of_perform_peek hpeek
  split
  · exact .bind <| (integers_advance v).imp fun _ w hw => hend w (by omega)
  · refine .bind <| .look rfl fun c w hahead _ => ?_
    cases hahead
    split
    · obtain ⟨y, more, hunread', hy⟩ := State.exists_unread (hlooked ▸ hk.symm) (by decide)
      refine .bind <| .advance hunread' <| .bind <| (integers_advance _).imp fun _ w hw => hend w ?_
      rw [integers_consumed_eq hsteady (by rw [hy]; decide), hv] at hw
      exact hw
    · exact hexpect v hv
  · exact hexpect v hv

theorem terse_indexSegment (b : Broad fun {_} x => KeepsTerse n x) (hs : s.Terse) (hnext : s.nextKind = .bracketOpen) :
    Returns n indexSegment s fun _ t => t.Terse := by
  have hbody := closed_indexSegmentBody b.toParts (s.pushed (some .indexSegment)) fun _ hc => absurd hc List.not_mem_nil
  refine .terse hs <| (hbody.and (integers_indexSegment hnext)).imp fun _ t ht => ⟨ht.1, fun h => absurd rfl h, fun _ => ?_⟩
  rw [List.countP_reverse]
  exact ht.2

/-- A path segment is asked for by a look at a dot or a bracket. -/
theorem returns_atSegment (s : State) : Returns n atSegment s fun c t =>
    t.top.built = s.top.built ∧ (c = true → t.nextKind = .dot ∨ t.nextKind = .bracketOpen) := by
  refine .bind <| .look rfl fun k t hpeek hbuilt => ?_
  obtain ⟨rfl, rfl⟩ := State.of_perform_peek hpeek
  split
  · rename_i hk
    refine .look rfl fun c u htouches hbuilt' => ⟨hbuilt'.trans hbuilt, fun _ => ?_⟩
    cases htouches
    rw [State.nextKind_skip_looked]
    simpa using hk
  · exact .done ⟨hbuilt, nofun⟩

theorem terse_pathSegmentsBody (b : Broad fun {_} x => KeepsTerse n x) : KeepsTerse n pathSegmentsBody := by
  refine fun s hs => .bind <| (returns_atSegment s).imp fun c t ht => ?_
  cases c with
  | false => exact .done (hs.of_built ht.1)
  | true =>
    refine .bind <| .bind <| .look rfl fun k u hpeek hbuilt => .done ?_
    obtain ⟨rfl, rfl⟩ := State.of_perform_peek hpeek
    have hu : t.looked.Terse := (hs.of_built ht.1).of_built hbuilt
    split
    · exact (b.bind (broad_fieldSegment b) fun _ => b.rule .pathSegments) _ hu
    · rename_i hdot
      have hbracket : t.looked.nextKind = .bracketOpen := by
        rcases ht.2 rfl with hnext | hnext
        · rw [State.nextKind_looked hnext (by decide)] at hdot
          exact absurd rfl hdot
        · exact State.nextKind_looked hnext (by decide)
      exact .bind <| (terse_indexSegment b hu hbracket).imp fun _ v hv => b.rule .pathSegments v hv

/-- What comes right after a bare root is an index segment only where there is a bracket. -/
theorem terse_firstSegment (b : Broad fun {_} x => KeepsTerse n x) : KeepsTerse n (do
    if ← peekIs .bracketOpen then indexSegment else node .fieldSegment fieldName
    rule .pathSegments) := by
  refine fun s hs => .bind <| .bind <| .look rfl fun k t hpeek hbuilt => .done ?_
  obtain ⟨rfl, rfl⟩ := State.of_perform_peek hpeek
  split
  · rename_i hbracket
    exact .bind <| (terse_indexSegment b (hs.of_built hbuilt) (eq_of_beq hbracket)).imp fun _ v hv => b.rule .pathSegments v hv
  · exact (b.bind (b.otherNode rfl (closed_fieldName b.toParts)) fun _ => b.rule .pathSegments) _ (hs.of_built hbuilt)

end Rules

/-- Every rule leaves terse trees behind, by induction on the bound on nested rules. -/
theorem terse_runRule (n : Nat) (r : Rule α) : KeepsTerse n (rule r) := by
  induction n generalizing α with
  | zero => exact fun s _ => .zero r s
  | succ n ih =>
    have b : Broad fun {_} x => KeepsTerse n x := broad_keepsTerse ih
    exact fun s hs => .rule <| broad_grammar b (terse_literal b) (broad_externalQuery b (terse_firstSegment b))
      (terse_pathSegmentsBody b) (broad_objectOrBlock b (.flat rfl)) r s hs

end Parser

/-- The tree of a source that is parsed is terse. -/
theorem terse_of_parse {o : Options} {source : Text} {p : Parsed} (h : parse o source = .ok p) : p.tree.Terse := by
  have hprogram (n : Nat) : Parser.KeepsTerse n Parser.program :=
    .node rfl <| .bind (Parser.terse_runRule n (.statements none)) fun _ => .flat rfl
  obtain ⟨t, ht, hbuilt⟩ := Parser.Returns.of_parse h fun n => hprogram n _ fun _ hc => absurd hc List.not_mem_nil
  exact ht p.tree (hbuilt ▸ List.mem_singleton_self p.tree)

/-- Every node within the tree of a parsed source is brief. -/
theorem brief_of_parse {o : Options} {source : Text} {p : Parsed} (h : parse o source = .ok p) {n : Node} (hn : p.root.Within n)
    (hleaf : n.isLeaf = false) : Tree.Brief n.kind n.tree.children := by
  have hroot : p.root.tree.Terse := terse_of_parse h
  exact hroot.brief hn hleaf

end Remap
