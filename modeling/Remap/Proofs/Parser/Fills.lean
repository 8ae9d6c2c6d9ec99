import Remap.Proofs.Parser.Returns
import Remap.Proofs.Parser.Scope
import Remap.Proofs.Tree.Ranked

/-!
# What fills a frame

A grading is a property of trees with a bound, such as that of being no higher than so much, which a node has with a bound one
above that of its children. `Fills G n r b x` says that `x` adds trees within the bound `b` to the innermost frame, where `r`
more levels of nesting are left. Routines that wrap what is already there raise the bound of the frame (`Raises`).

Everything but the operators is gone through here, for every grading: that operations are bounded in height, and that they are
in order of precedence, are different arguments. The bound on what fits into `r` levels grows with the square of `r`, since a
group takes one level, and after it as many operators can be folded onto it as there are levels left.
-/

namespace Remap.Parser

variable {α β : Type}

/-- A property of trees with a bound, which nodes other than operations have with a bound one above that of their children. -/
structure Grading where
  holds : Nat → Tree → Prop
  leaf (b : Nat) (k : Kind) (t : Text) : holds b (.leaf k t)
  mono {b c : Nat} {t : Tree} : b ≤ c → holds b t → holds c t
  node {b : Nat} {k : Kind} {cs : List Tree} : k.isOperation = false → (∀ c ∈ cs, holds b c) → holds (b + 1) (.node k cs)

namespace State

/-- At most so many levels of nesting are left, and nothing is left to read once the limit was hit. -/
structure Room (r : Nat) (s : State) : Prop where
  levels : s.limit ≤ s.depth + r
  spent : s.Spent

namespace Room

variable {r : Nat} {s t : State}

theorem follows (h : s.Room r) (hfollows : Follows s t) : t.Room r :=
  ⟨by rw [hfollows.limit, hfollows.depth]; exact h.levels, hfollows.spent h.spent⟩

theorem pushed (h : s.Room r) (label : Option Kind) : (s.pushed label).Room r :=
  ⟨(h.follows s.follows_drain).levels, (h.follows s.follows_drain).spent⟩

theorem wrapping (h : s.Room r) (k : Kind) : (s.wrapping k).Room r := ⟨h.levels, h.spent⟩

theorem deeper (h : s.Room (r + 1)) : s.deeper.Room r := by
  refine ⟨?_, h.spent⟩
  have hlevels := h.levels
  simp only [State.deeper, State.refresh]
  omega

end Room

end State

/-- What is held back are blanks. -/
theorem State.Steady.isBlank_held {s : State} (hs : s.Steady) : ∀ c ∈ s.held.reverse.map Token.leaf, c.isBlank = true := by
  intro c hc
  obtain ⟨token, htoken, rfl⟩ := List.mem_map.mp hc
  simpa [Token.leaf, Tree.isBlank] using hs.held token (List.mem_reverse.mp htoken)

theorem State.Steady.isOperand_held {s : State} (hs : s.Steady) : ∀ c ∈ s.held.reverse.map Token.leaf, c.isOperand = true :=
  fun c hc => Tree.isOperand_of_isBlank (hs.isBlank_held c hc)

theorem State.Steady.mem_drain {s : State} (hs : s.Steady) {c : Tree} (hc : c ∈ s.drain.top.built) :
    c.isOperand = true ∨ c ∈ s.top.built := by
  rw [State.built_drain] at hc
  exact (List.mem_append.mp hc).imp (hs.isOperand_held c) id

/-- With `r` levels of nesting left, a routine makes of trees within the bound `h` in the innermost frame trees within `h'`. -/
def Raises (G : Grading) (n r h h' : Nat) (x : Routine α) : Prop :=
  ∀ s : State, s.Room r → (∀ c ∈ s.top.built, G.holds h c) → Returns n x s fun _ t => ∀ c ∈ t.top.built, G.holds h' c

/-- With `r` levels of nesting left, a routine adds trees within the bound `b` to the innermost frame. -/
def Fills (G : Grading) (n r b : Nat) (x : Routine α) : Prop := ∀ h, Raises G n r h (max h b) x

section Rules

variable {G : Grading} {n r b h h' : Nat}

namespace Raises

theorem done (hle : h ≤ h') (a : α) : Raises G n r h h' (pure a : Routine α) :=
  fun _ _ hrow => .done fun c hc => G.mono hle (hrow c hc)

theorem bind {i : Nat} {x : Routine α} {f : α → Routine β} (hx : Raises G n r h i x) (hf : ∀ a, Raises G n r i h' (f a)) :
    Raises G n r h h' (x >>= f) := by
  intro s hroom hrow
  exact .bind ((hx s hroom hrow).follows.imp fun a t ht => hf a t (hroom.follows ht.1) ht.2)

theorem ite {c : Prop} [Decidable c] {x y : Routine α} (hx : Raises G n r h h' x) (hy : Raises G n r h h' y) :
    Raises G n r h h' (if c then x else y) := by
  split
  · exact hx
  · exact hy

/-- A node that begins at the innermost mark is one above what was there and what was added. -/
theorem wrapped_of {k : Kind} {body : Routine α} (hnode : ∀ cs, (∀ c ∈ cs, G.holds b c) → G.holds (b + 1) (.node k cs))
    (hbody : Raises G n r h b body) : Raises G n r h (b + 1) (Parser.wrapped k body) := by
  intro s hroom hrow
  refine .wrapped <| (hbody (s.wrapping k) (hroom.wrapping k) hrow).imp fun a t ht c hc => ?_
  rw [List.mem_singleton.mp hc]
  exact hnode _ fun d hd => ht d (List.mem_reverse.mp hd)

theorem wrapped {k : Kind} {body : Routine α} (hk : k.isOperation = false) (hbody : Raises G n r h b body) :
    Raises G n r h (b + 1) (Parser.wrapped k body) :=
  .wrapped_of (fun _ => G.node hk) hbody

end Raises

namespace Fills

/-- What adds trees within a bound raises the bound of a frame to that one at most. -/
theorem raises {x : Routine α} (hx : Fills G n r b x) (hle : h ≤ h') (hb : b ≤ h') : Raises G n r h h' x :=
  fun s hroom hrow => (hx h s hroom hrow).imp fun _ _ ht c hc => G.mono (Nat.max_le.mpr ⟨hle, hb⟩) (ht c hc)

theorem le {b' : Nat} {x : Routine α} (hx : Fills G n r b x) (hb : b ≤ b') : Fills G n r b' x :=
  fun h => hx.raises (Nat.le_max_left h b') (Nat.le_trans hb (Nat.le_max_right h b'))

theorem done (a : α) : Fills G n r b (pure a : Routine α) := fun h => .done (Nat.le_max_left h b) a

theorem bind {x : Routine α} {f : α → Routine β} (hx : Fills G n r b x) (hf : ∀ a, Fills G n r b (f a)) :
    Fills G n r b (x >>= f) :=
  fun h => .bind (hx h) fun a => (hf a).raises (Nat.le_refl _) (Nat.le_max_right h b)

theorem ite {c : Prop} [Decidable c] {x y : Routine α} (hx : Fills G n r b x) (hy : Fills G n r b y) :
    Fills G n r b (if c then x else y) :=
  fun h => .ite (hx h) (hy h)

theorem leaves {ts : List Token} {row : List Tree} (hrow : ∀ c ∈ row, G.holds h c) :
    ∀ c ∈ ts.map Token.leaf ++ row, G.holds h c := by
  intro c hc
  rcases List.mem_append.mp hc with hc | hc
  · obtain ⟨token, -, rfl⟩ := List.mem_map.mp hc
    exact G.leaf _ _ _
  · exact hrow c hc

theorem drained {s : State} (hrow : ∀ c ∈ s.top.built, G.holds h c) : ∀ c ∈ s.drain.top.built, G.holds h c := by
  rw [State.built_drain]
  exact leaves hrow

/-- An action that leaves the frames alone adds leaves at most. -/
theorem flat {action : Action α} (hflat : action.isFlat = true) : Fills G n r b (act action) := by
  intro h s _ hrow
  refine .flat hflat fun a t _ hadds c hc => G.mono (Nat.le_max_left h b) ?_
  obtain ⟨ts, hbuilt⟩ := hadds
  exact leaves hrow c (hbuilt ▸ hc)

/-- A node is one above what is in it. -/
theorem node_of {k : Kind} {body : Routine α} (hnode : ∀ cs, (∀ c ∈ cs, G.holds b c) → G.holds (b + 1) (.node k cs))
    (hbody : Fills G n r b body) : Fills G n r (b + 1) (Parser.node k body) := by
  intro h s hroom hrow
  refine .node <| (hbody 0 (s.pushed (some k)) (hroom.pushed _) fun c hc => absurd hc List.not_mem_nil).imp ?_
  intro a t ht c hc
  rw [Nat.zero_max] at ht
  rcases List.mem_cons.mp hc with rfl | hc
  · exact G.mono (Nat.le_max_right h _) (hnode _ fun d hd => ht d (List.mem_reverse.mp hd))
  · exact G.mono (Nat.le_max_left h _) (drained hrow c hc)

theorem node {k : Kind} {body : Routine α} (hk : k.isOperation = false) (hbody : Fills G n r b body) :
    Fills G n r (b + 1) (Parser.node k body) :=
  .node_of (fun _ => G.node hk) hbody

/-- What is built at a mark is added to the frame around it. -/
theorem marked {body : Routine α} (hbody : Raises G n r 0 b body) : Fills G n r b (Parser.marked body) := by
  intro h s hroom hrow
  refine .marked <| (hbody (s.pushed none) (hroom.pushed _) fun c hc => absurd hc List.not_mem_nil).imp ?_
  intro a t ht c hc
  rcases List.mem_append.mp hc with hc | hc
  · exact G.mono (Nat.le_max_right h b) (ht c hc)
  · exact G.mono (Nat.le_max_left h b) (drained hrow c hc)

theorem separating {q : Bool} {body : Routine α} (hbody : Fills G n r b body) :
    Fills G n r b (Parser.separating q body) :=
  .bind (.flat rfl) fun _ => .bind hbody fun _ => .bind (.flat rfl) fun _ => .done _

end Fills

/-- Where the limit is hit an error is added, which holds only leaves. -/
theorem Raises.nested {body : Routine Kind} (hle : h ≤ h') (hone : 1 ≤ h') (hbody : ∀ i, r = i + 1 → Raises G n i h h' body) :
    Raises G n r h h' (Parser.nested body) := by
  intro s hroom hrow
  have hkeep : ∀ c ∈ s.top.built, G.holds h' c := fun c hc => G.mono hle (hrow c hc)
  refine .nested (fun hdepth => ?_) (fun _ => hkeep) fun _ t ts _ hbuilt => ?_
  · obtain ⟨i, rfl⟩ : ∃ i, r = i + 1 := ⟨r - 1, by have := hroom.levels; omega⟩
    exact (hbody i rfl s.deeper hroom.deeper hrow).imp fun _ _ ht => ht
  · intro c hc
    rw [hbuilt] at hc
    rcases List.mem_cons.mp hc with rfl | hc
    · have hleaves : ∀ c ∈ ts.map Token.leaf ++ [], G.holds 0 c := Fills.leaves fun c hc => absurd hc List.not_mem_nil
      rw [List.append_nil] at hleaves
      exact G.mono hone (G.node rfl hleaves)
    · exact Fills.drained (by rw [State.built_skip]; exact hkeep) c hc

theorem Fills.nested {body : Routine Kind} (hone : 1 ≤ b) (hbody : ∀ i, r = i + 1 → Fills G n i b body) :
    Fills G n r b (Parser.nested body) :=
  fun h => .nested (Nat.le_max_left h b) (Nat.le_trans hone (Nat.le_max_right h b)) fun i hi => hbody i hi h

/-- A routine adds trees within a bound, and of these none is an operator or a binary operation. -/
def Presents (G : Grading) (n r b : Nat) (x : Routine α) : Prop :=
  ∀ (h : Nat) (s : State), s.Room r → (∀ c ∈ s.top.built, G.holds h c) → Returns n x s fun _ t =>
    (∀ c ∈ t.top.built, G.holds (max h b) c) ∧ ∀ c ∈ t.top.built, c.isOperand = true ∨ c ∈ s.top.built

namespace Presents

theorem fills {x : Routine α} (hx : Presents G n r b x) : Fills G n r b x :=
  fun h s hroom hrow => (hx h s hroom hrow).imp fun _ _ ht => ht.1

theorem le {b' : Nat} {x : Routine α} (hx : Presents G n r b x) (hb : b ≤ b') : Presents G n r b' x :=
  fun h s hroom hrow => (hx h s hroom hrow).imp fun _ _ ht => ⟨fun c hc => G.mono (by omega) (ht.1 c hc), ht.2⟩

theorem done (a : α) : Presents G n r b (pure a : Routine α) :=
  fun h _ _ hrow => .done ⟨fun c hc => G.mono (Nat.le_max_left h b) (hrow c hc), fun _ => .inr⟩

theorem fail (f : Fault) : Presents G n r b (.fail f : Routine α) := fun _ _ _ _ => .fail f

theorem bind {x : Routine α} {f : α → Routine β} (hx : Presents G n r b x) (hf : ∀ a, Presents G n r b (f a)) :
    Presents G n r b (x >>= f) := by
  intro h s hroom hrow
  refine .bind ((hx h s hroom hrow).follows.imp fun a t ht => ?_)
  obtain ⟨hfollows, hrow', hoperands⟩ := ht
  refine (hf a (max h b) t (hroom.follows hfollows) hrow').imp fun _ _ hu => ⟨fun c hc => ?_, fun c hc => ?_⟩
  · exact G.mono (by omega) (hu.1 c hc)
  · exact (hu.2 c hc).elim .inl (hoperands c)

theorem ite {c : Prop} [Decidable c] {x y : Routine α} (hx : Presents G n r b x) (hy : Presents G n r b y) :
    Presents G n r b (if c then x else y) := by
  split
  · exact hx
  · exact hy

/-- An action that leaves the frames as they are adds nothing. -/
theorem look {action : Action α} (hlook : action.isLook = true) : Presents G n r b (act action) := by
  intro h s _ hrow
  refine .look hlook fun _ t _ hbuilt => ?_
  rw [hbuilt]
  exact ⟨fun c hc => G.mono (Nat.le_max_left h b) (hrow c hc), fun _ => .inr⟩

/-- A node is added after blanks. -/
theorem node {k : Kind} {body : Routine α} (hk : k.isOperation = false) (hbody : Fills G n r b body) :
    Presents G n r (b + 1) (Parser.node k body) := by
  intro h s hroom hrow
  refine .of_steady fun hsteady => ((Fills.node hk hbody h s hroom hrow).and ?_).imp fun _ _ ht => ht
  refine .node <| (hbody 0 (s.pushed (some k)) (hroom.pushed _) fun c hc => absurd hc List.not_mem_nil).imp ?_
  intro _ t _ c hc
  rcases List.mem_cons.mp hc with rfl | hc
  · refine .inl (bne_iff_ne.mpr ?_)
    rintro rfl
    cases hk
  · exact hsteady.mem_drain hc

/-- What is built at a mark is added after blanks. -/
theorem marked {body : Routine α} (hbody : ∀ s : State, s.Room r → s.top.built = [] →
    Returns n body s fun _ t => ∀ c ∈ t.top.built, G.holds b c ∧ c.isOperand = true) : Presents G n r b (Parser.marked body) := by
  intro h s hroom hrow
  refine .of_steady fun hsteady => .marked <| (hbody (s.pushed none) (hroom.pushed _) rfl).imp fun _ t ht => ⟨?_, ?_⟩
  · intro c hc
    rcases List.mem_append.mp hc with hc | hc
    · exact G.mono (Nat.le_max_right h b) (ht c hc).1
    · exact G.mono (Nat.le_max_left h b) (Fills.drained hrow c hc)
  · intro c hc
    rcases List.mem_append.mp hc with hc | hc
    · exact .inl (ht c hc).2
    · exact hsteady.mem_drain hc

/-- Where the limit is hit an error is added after blanks. -/
theorem nested {body : Routine Kind} (hone : 1 ≤ b) (hbody : ∀ i, r = i + 1 → Presents G n i b body) :
    Presents G n r b (Parser.nested body) := by
  intro h s hroom hrow
  have hfills : Fills G n r b (Parser.nested body) := .nested hone fun i hi => (hbody i hi).fills
  refine .of_steady fun hsteady => (hfills h s hroom hrow).and <| .nested (fun hdepth => ?_) (fun _ _ => .inr) ?_
  · obtain ⟨i, rfl⟩ : ∃ i, r = i + 1 := ⟨r - 1, by have := hroom.levels; omega⟩
    exact (hbody i rfl h s.deeper hroom.deeper hrow).imp fun _ _ ht => ht.2
  · intro _ t ts _ hbuilt c hc
    rw [hbuilt] at hc
    rcases List.mem_cons.mp hc with rfl | hc
    · exact .inl rfl
    · rw [← s.built_skip]
      exact (s.hushes_skip.steady hsteady).mem_drain hc

end Presents

end Rules

/-! ## The bounds -/

/-- A bound on an expression, or on a statement, for which so many levels of nesting are left. -/
def tallest : Nat → Nat
  | 0 => 2
  | r + 1 => tallest r + r + 6

/-- A bound on an operand for which so many levels of nesting are left. -/
def tallestOperand : Nat → Nat
  | 0 => 1
  | r + 1 => tallest r + 4

theorem two_le_tallest (r : Nat) : 2 ≤ tallest r := by
  cases r <;> simp only [tallest] <;> omega

/-- An operand can take as many operators as there are levels left. -/
theorem tallestOperand_add_le (r : Nat) : tallestOperand r + r ≤ tallest r := by
  cases r <;> simp only [tallest, tallestOperand] <;> omega

/-- A bound on what is in a list. -/
def ItemList.bound : ItemList → Nat → Nat
  | .parameters, _ => 0
  | _, r => tallest r + 1

theorem ItemList.bound_le (list : ItemList) (r : Nat) : list.bound r ≤ tallest r + 1 := by
  cases list <;> simp only [bound] <;> omega

/-- A bound on what a rule adds, with so many levels of nesting left. -/
def Rule.bound : {α : Type} → Rule α → Nat → Nat
  | _, .newlines, _ | _, .absorb, _ | _, .skipTo _ _, _ | _, .templateParts, _ => 0
  | _, .stringParts, _ => 1
  | _, .pathSegments, _ => 3
  | _, .items list, r => list.bound r
  | _, .statements _, r | _, .statement, r | _, .binary _, r | _, .binaryRest _ _, r => tallest r
  | _, .conditions _, r | _, .assignment, r => tallest r + 2
  | _, .elseBranches, r => tallest r + r + 5
  | _, .unary, r => tallestOperand r

/-- Whether a rule reads operators. -/
def Rule.isOperator : {α : Type} → Rule α → Bool
  | _, .binary _ | _, .binaryRest _ _ | _, .unary => true
  | _, _ => false

/-- Every rule fills a frame within its bound. A row of operands, within a bound `h`, is folded into an operation at most as many
levels above as are left. -/
structure Bounded (G : Grading) (n : Nat) : Prop where
  rule {γ : Type} (ρ : Rule γ) (r : Nat) : ρ.wraps = false → Fills G n r (ρ.bound r) (rule ρ)
  rest (m : Nat) (k : Kind) (r h b : Nat) (s : State) : h + r ≤ b → tallest r ≤ b → s.Room r →
    (∀ c ∈ s.top.built, G.holds h c ∧ c.isOperand = true) →
    Returns n (Parser.rule (.binaryRest m k)) s fun _ t => ∀ c ∈ t.top.built, G.holds b c

/-! ## The routines of the grammar -/

section Grammar

variable {G : Grading} {n r b : Nat}

theorem presents_peekIs (k : Kind) : Presents G n r b (peekIs k) := .bind (.look rfl) fun _ => .done _

theorem presents_require (k : Kind) : Presents G n r b (require k) := .bind (.look rfl) fun _ => .ite (.done _) (.fail _)

theorem presents_report (p : Problem) (d : Option Detail) : Presents G n r b (report p d) := .look rfl

theorem presents_reportFound (p : Problem) (e : Option Expectation) : Presents G n r b (reportFound p e) := by
  refine .bind (.look rfl) fun k => .bind (.look rfl) fun _ => .ite (presents_report _ _) ?_
  cases e <;> exact presents_report _ _

theorem presents_reportAndAdvance (p : Problem) (d : Detail) : Presents G n r 1 (reportAndAdvance p d) :=
  .bind (presents_report _ _) fun _ => .bind (.look rfl) fun _ => .ite (.done _) (.node rfl (.flat rfl))

theorem fills_peekIs (k : Kind) : Fills G n r b (peekIs k) := (presents_peekIs k).fills

theorem fills_eat (k : Kind) : Fills G n r b (eat k) :=
  .bind (fills_peekIs k) fun _ => .ite (.bind (.flat rfl) fun _ => .done _) (.done _)

theorem fills_require (k : Kind) : Fills G n r b (require k) := (presents_require k).fills

theorem fills_report (p : Problem) (d : Option Detail) : Fills G n r b (report p d) := (presents_report p d).fills

theorem fills_reportFound (p : Problem) (e : Option Expectation) : Fills G n r b (reportFound p e) := (presents_reportFound p e).fills

theorem fills_reportAndAdvance (p : Problem) (d : Detail) : Fills G n r 1 (reportAndAdvance p d) :=
  (presents_reportAndAdvance p d).fills

theorem presents_simpleLiteral {k : Kind} (hk : k.isOperation = false) : Presents G n r 1 (simpleLiteral k) :=
  .node hk <| .bind (fills_peekIs _) fun _ => .ite
    (.bind (.flat rfl) fun _ => .bind (.flat rfl) fun _ => .done _) (.bind (.flat rfl) fun _ => .done _)

theorem fills_atSegment : Fills G n r b atSegment := .bind (.flat rfl) fun _ => .ite (.flat rfl) (.done _)

theorem fills_atFirstSegment : Fills G n r b atFirstSegment :=
  .bind (.flat rfl) fun _ => .ite (.flat rfl) (.done _)

theorem fills_parameter : Fills G n r b parameter :=
  .bind (.flat rfl) fun _ => .ite (.bind (.flat rfl) fun _ => .done _)
    (.bind (fills_reportFound _ _) fun _ => .done _)

theorem presents_missingOperand : Presents G n r 1 missingOperand := by
  have hother (d : Detail) : Presents G n r 1 (do
      if ← atEnd then report .expectedExpression none else reportAndAdvance .expectedExpression d) :=
    .bind (.look rfl) fun _ => .ite (presents_report _ _) (presents_reportAndAdvance _ _)
  refine .bind (.look rfl) fun k => ?_
  split
  · exact hother _
  · exact hother _
  · split
    case h_8 => exact hother _
    all_goals exact presents_report _ _

theorem fills_checkTarget (k : Kind) : Fills G n r b (checkTarget k) := by
  unfold checkTarget
  split
  case h_5 => exact .flat rfl
  all_goals exact .done _

theorem fills_atContinuation : Fills G n r b atContinuation :=
  .bind (.flat rfl) fun _ => .ite (.done _) (.ite (.flat rfl) (.done _))

variable (he : Bounded G n)

include he

theorem fills_newlines : Fills G n r b newlines := (he.rule .newlines r rfl).le (Nat.zero_le b)

theorem fills_newlinesBody : Fills G n r 0 newlinesBody :=
  .bind (fills_peekIs _) fun _ => .ite (.bind (.flat rfl) fun _ => fills_newlines he) (.done _)

theorem fills_absorbBody : Fills G n r 0 absorbBody :=
  .bind (.flat rfl) fun _ => .ite (.done _) (.bind (.flat rfl) fun _ => he.rule .absorb r rfl)

theorem fills_skipToBody (stops : KindSet) (depth : Nat) : Fills G n r 0 (skipToBody stops depth) :=
  .bind (.flat rfl) fun _ => .ite (.done _) <| .bind (.flat rfl) fun k => .ite (.done _) <|
    .bind (.flat rfl) fun _ => he.rule (.skipTo stops (depthAfter depth k)) r rfl

theorem fills_resync (stops : KindSet) : Fills G n r 1 (resync stops) :=
  .bind (.flat rfl) fun _ => .ite (.done _) <| .bind (.flat rfl) fun _ =>
    .ite (.done _) (.node rfl (he.rule (.skipTo stops 0) r rfl))

theorem fills_close (k : Kind) : Fills G n r 1 (close k) := by
  have hunclosed (q : Bool) : Fills G n r 1 (if q then act .popDelimiter else do
      if ← atEnd then act (.reportUnclosed k)
      act .popDelimiter) :=
    .ite (.flat rfl) <| .bind (.flat rfl) fun _ =>
      .ite (.bind (.flat rfl) fun _ => .flat rfl) (.flat rfl)
  refine .bind (fills_eat k) fun _ => .ite (.flat rfl) <| .bind (.flat rfl) fun _ => .ite ?_ ?_
  · exact .bind (.done false) fun _ => hunclosed _
  · exact .bind (fills_report _ _) fun _ => .bind (fills_resync he _) fun _ =>
      .bind (fills_eat k) fun _ => hunclosed _

/-! Literals and paths. -/

theorem fills_template : Fills G n r 1 template :=
  .node rfl <| .bind (.flat rfl) fun _ => .bind (he.rule .templateParts r rfl) fun _ =>
    .bind (.flat rfl) fun _ => .ite (.flat rfl) (.done _)

theorem fills_templatePartsBody : Fills G n r 0 templatePartsBody := by
  have hagain : Fills G n r 0 (do advance; rule .templateParts) :=
    .bind (.flat rfl) fun _ => he.rule .templateParts r rfl
  refine .bind (.flat rfl) fun k => ?_
  split
  · exact hagain
  · exact hagain
  · exact .done _

theorem fills_stringPartsBody : Fills G n r 1 stringPartsBody := by
  have hagain : Fills G n r 1 (do advance; rule .stringParts) :=
    .bind (.flat rfl) fun _ => he.rule .stringParts r rfl
  refine .bind (.flat rfl) fun k => ?_
  split
  · exact hagain
  · exact hagain
  · exact .bind (fills_template he) fun _ => he.rule .stringParts r rfl
  · exact .flat rfl
  · exact .done _

theorem presents_string : Presents G n r 2 string :=
  .node rfl <| .bind (fills_require _) fun _ => .bind (.flat rfl) fun _ => .bind (he.rule .stringParts r rfl) fun _ => .done _

theorem fills_string : Fills G n r 2 string := (presents_string he).fills

theorem presents_literal : Presents G n r 2 literal := by
  have hsimple {k : Kind} (hk : k.isOperation = false) : Presents G n r 2 (simpleLiteral k) :=
    (presents_simpleLiteral hk).le (by omega)
  refine .bind (.look rfl) fun k => ?_
  split
  case h_3 =>
    refine .bind (.look rfl) fun _ => .ite (hsimple rfl) ?_
    refine .bind (.look rfl) fun _ => .ite (hsimple rfl) ?_
    exact .bind ((presents_reportAndAdvance _ _).le (by omega)) fun _ => .done _
  case h_4 => exact presents_string he
  case h_11 => exact .fail _
  all_goals exact hsimple rfl

theorem fills_fieldName : Fills G n r 2 fieldName :=
  .bind (fills_peekIs _) fun _ => .ite (.bind (fills_string he) fun _ => .done _) (.flat rfl)

theorem fills_fieldSegment : Fills G n r 3 fieldSegment := by
  refine .node rfl <| .bind (fills_require _) fun _ => .bind (.flat rfl) fun _ =>
    .bind (.flat rfl) fun k => ?_
  have hname (q : Bool) : Fills G n r 2 (if q then fieldName
      else reportFound .invalidPathContinuation (some .fieldAfterDot)) :=
    .ite (fills_fieldName he) (fills_reportFound _ _)
  exact .ite (.bind (.flat rfl) fun q => hname q) (.bind (.done _) fun q => hname q)

theorem fills_indexSegment : Fills G n r 2 indexSegment := by
  have hend : Fills G n r 1 (do newlines; close .bracketClose) :=
    .bind (fills_newlines he) fun _ => fills_close he _
  have hexpect : Fills G n r 1 (do reportFound .unexpectedToken (some .indexInteger); newlines; close .bracketClose) :=
    .bind (fills_reportFound _ _) fun _ => hend
  refine .node rfl <| .bind (.flat rfl) fun _ => .bind (.flat rfl) fun _ =>
    .bind (fills_newlines he) fun _ => .bind (.flat rfl) fun k => ?_
  split
  · exact .bind (.flat rfl) fun _ => hend
  · refine .bind (.flat rfl) fun _ => .ite ?_ hexpect
    exact .bind (.flat rfl) fun _ => .bind (.flat rfl) fun _ => hend
  · exact hexpect

theorem fills_pathSegmentsBody : Fills G n r 3 pathSegmentsBody := by
  refine .bind (fills_atSegment) fun _ => .ite (.bind (fills_peekIs _) fun _ => .ite ?_ ?_) (.done _)
  · exact .bind (fills_fieldSegment he) fun _ => he.rule .pathSegments r rfl
  · exact .bind ((fills_indexSegment he).le (by omega)) fun _ => he.rule .pathSegments r rfl

theorem fills_path : Fills G n r 4 (node .path (rule .pathSegments)) := .node rfl (he.rule .pathSegments r rfl)

theorem presents_externalQuery : Presents G n r 5 externalQuery := by
  refine .node rfl <| .bind (.flat rfl) fun _ => .bind (fills_atFirstSegment) fun _ => .ite ?_ ?_
  · refine .bind (.node rfl <| .bind (fills_peekIs _) fun _ => .ite ?_ ?_) fun _ => .done _
    · exact .bind ((fills_indexSegment he).le (by omega)) fun _ => he.rule .pathSegments r rfl
    · exact .bind (.node rfl (fills_fieldName he)) fun _ => he.rule .pathSegments r rfl
  · refine .bind (fills_atSegment) fun _ => .ite (.bind (fills_report _ _) fun _ => ?_) (.done _)
    exact .bind (fills_path he) fun _ => .done _

omit he in
/-- Asking for a path segment leaves a frame as it is. -/
theorem built_atSegment (s : State) : Returns n atSegment s fun _ t => t.top.built = s.top.built := by
  refine .bind (.flat rfl fun k t hpeek _ => ?_)
  obtain ⟨-, rfl⟩ := State.of_perform_peek hpeek
  split
  · refine .flat rfl fun _ u htouches _ => ?_
    cases htouches
    exact (State.built_skip _).trans s.built_skip
  · exact .done s.built_skip

/-- A path makes a query of what the frame holds; without one the frame stays as it is. -/
theorem returns_continuePath {h : Nat} (hh : 4 ≤ h) (k : Kind) (s : State) (hroom : s.Room r)
    (hrow : ∀ c ∈ s.top.built, G.holds h c) : Returns n (continuePath k) s fun _ t =>
      (∀ c ∈ t.top.built, G.holds (h + 1) c) ∧ (t.top.built = s.top.built ∨ ∃ cs, t.top.built = [.node .query cs]) := by
  have hquery (q : Bool) (t : State) (hfollows : State.Follows s t) (hbuilt : t.top.built = s.top.built) :
      Returns n (if q then (do wrapped .query (node .path (rule .pathSegments)); return .query) else return k) t fun _ u =>
        (∀ c ∈ u.top.built, G.holds (h + 1) c) ∧ (u.top.built = s.top.built ∨ ∃ cs, u.top.built = [.node .query cs]) := by
    cases q with
    | false => exact .done ⟨fun c hc => G.mono (Nat.le_succ h) (hrow c (hbuilt ▸ hc)), .inl hbuilt⟩
    | true =>
      have hpath : Raises G n r h h (node .path (rule .pathSegments)) := (fills_path he).raises (Nat.le_refl h) hh
      have hrow' : ∀ c ∈ (t.wrapping .query).top.built, G.holds h c := fun c hc => hrow c (hbuilt ▸ hc)
      refine .bind (.wrapped ((hpath (t.wrapping .query) ((hroom.follows hfollows).wrapping _) hrow').imp fun _ u hu => .done ⟨fun c hc => ?_, .inr ⟨_, rfl⟩⟩))
      rw [List.mem_singleton.mp hc]
      exact G.node rfl fun d hd => hu d (List.mem_reverse.mp hd)
  unfold continuePath
  split
  · exact .bind ((built_atSegment s).follows.imp fun q t ht => hquery q t ht.1 ht.2)
  · exact .bind (.done (hquery false s (.refl s) rfl))

/-! Containers, calls and terms. -/

theorem presents_group : Presents G n r (tallest r + 3) group := by
  have hclose : Fills G n r (tallest r + 2) (close .parenClose) := (fills_close he _).le (by omega)
  refine .node rfl <| .bind (.flat rfl) fun _ => .bind (.flat rfl) fun _ => ?_
  refine .bind (.separating <| .bind (.flat rfl) fun k => .ite ?_ ?_) fun _ => .done _
  · exact .bind (he.rule .assignment r rfl) fun _ => hclose
  · exact .bind (fills_reportFound _ _) fun _ => hclose

theorem fills_delimited (opener : Kind) (list : ItemList) : Fills G n r (tallest r + 1) (delimited opener list) :=
  .bind (.flat rfl) fun _ => .bind (.flat rfl) fun _ => .separating <|
    .bind ((he.rule (.items list) r rfl).le (list.bound_le r)) fun _ => (fills_close he _).le (by omega)

theorem presents_array : Presents G n r (tallest r + 2) array := .node rfl <| .bind (fills_delimited he _ _) fun _ => .done _

theorem presents_object : Presents G n r (tallest r + 2) object := .node rfl <| .bind (fills_delimited he _ _) fun _ => .done _

theorem presents_block : Presents G n r (tallest r + 1) block := by
  have htwo := two_le_tallest r
  refine .bind (presents_peekIs _) fun _ => .ite ?_ (.bind (presents_reportFound _ _) fun _ => .done _)
  refine .node rfl <| .bind (.flat rfl) fun _ => .bind (.flat rfl) fun _ => ?_
  refine .bind (.separating (he.rule (.statements (some .braceClose)) r rfl)) fun _ => ?_
  exact .bind ((fills_close he _).le (by omega)) fun _ => .done _

theorem fills_block : Fills G n r (tallest r + 1) block := (presents_block he).fills

theorem fills_element : Fills G n r (tallest r) element :=
  .bind (.flat rfl) fun _ => .ite (.bind (he.rule (.binary 0) r rfl) fun _ => .done _)
    (.bind (fills_reportFound _ _) fun _ => .done _)

theorem fills_entry : Fills G n r (tallest r + 1) entry := by
  refine .bind (fills_peekIs _) fun _ => .ite ?_ (.bind (fills_reportFound _ _) fun _ => .done _)
  refine .bind (.node rfl <| .bind ((fills_string he).le (two_le_tallest r)) fun _ => ?_) fun _ => .done _
  refine .bind (fills_newlines he) fun _ => .bind (fills_eat _) fun _ => .ite ?_ (fills_report _ _)
  exact .bind (fills_newlines he) fun _ => .bind (fills_element he) fun _ => .done _

theorem fills_argument : Fills G n r (tallest r + 1) argument := by
  have hnamed (q : Bool) : Fills G n r (tallest r + 1) (if q then (do
      node .namedArgument do
        advance
        let _ ← eat .colon
        newlines
        let _ ← element
      return true) else element) := by
    refine .ite (.bind (.node rfl <| .bind (.flat rfl) fun _ => .bind (fills_eat _) fun _ => ?_) fun _ => .done _)
      ((fills_element he).le (by omega))
    exact .bind (fills_newlines he) fun _ => .bind (fills_element he) fun _ => .done _
  exact .bind (.flat rfl) fun _ => .ite (.bind (.flat rfl) fun q => hnamed q)
    (.bind (.done _) fun q => hnamed q)

theorem fills_item (list : ItemList) : Fills G n r (list.bound r) (item list) := by
  cases list with
  | elements => exact (fills_element he).le (Nat.le_succ _)
  | entries => exact fills_entry he
  | arguments => exact fills_argument he
  | parameters => exact fills_parameter

theorem fills_itemsBody (list : ItemList) : Fills G n r (list.bound r) (itemsBody list) := by
  refine .bind (fills_newlines he) fun _ => .bind (.flat rfl) fun _ => .ite (.done _) ?_
  refine .bind (fills_peekIs _) fun _ => .ite (.done _) <| .bind (fills_item he list) fun _ => .ite ?_ (.done _)
  exact .bind (fills_newlines he) fun _ => .bind (fills_eat _) fun _ => .ite (he.rule (.items list) r rfl) (.done _)

theorem fills_closure : Fills G n r (tallest r + 2) closure := by
  have htwo := two_le_tallest r
  have hbody : Fills G n r (tallest r + 1) (do act .checkParameters; newlines; let _ ← block) :=
    .bind (.flat rfl) fun _ => .bind (fills_newlines he) fun _ => .bind (fills_block he) fun _ => .done _
  refine .node rfl <| .bind (.flat rfl) fun _ => .bind (.le (b := 2) (.node rfl <| .bind (.flat rfl) fun k => ?_) ?_) fun _ => hbody
  · split
    · exact .flat rfl
    · refine .bind (.flat rfl) fun _ => .bind (.flat rfl) fun _ => .bind ?_ fun _ => fills_close he _
      exact (he.rule (.items .parameters) r rfl).le (Nat.zero_le 1)
    · exact fills_reportFound _ _
  · omega

theorem fills_argumentList : Fills G n r (tallest r + 2) argumentList :=
  .node rfl <| .bind (fills_require _) fun _ => fills_delimited he _ _

theorem presents_identOrCall : Presents G n r (tallest r + 3) identOrCall := by
  refine .bind (presents_require _) fun _ => .bind (.look rfl) fun _ => .ite ?_ ?_
  · refine .node rfl <| .bind (.flat rfl) fun _ => .bind (fills_eat _) fun _ => .bind (fills_argumentList he) fun _ => ?_
    exact .bind (fills_peekIs _) fun _ => .ite (.bind (fills_closure he) fun _ => .done _) (.done _)
  · exact (Presents.node rfl (b := 0) (.bind (.flat rfl) fun _ => .done _)).le (by omega)

theorem presents_objectOrBlock : Presents G n r (tallest r + 2) objectOrBlock :=
  .bind (presents_require _) fun _ => .bind (.look rfl) fun _ => .ite (presents_object he) ((presents_block he).le (by omega))

/-- What is no operation is none with a path after it. -/
theorem returns_withPath {x : Routine Kind} {c : Nat} (hx : Presents G n r c x) (hc : c ≤ tallest r + 3) (s : State)
    (hroom : s.Room r) (hempty : s.top.built = []) :
    Returns n (x >>= continuePath) s fun _ t => ∀ c ∈ t.top.built, G.holds (tallest r + 4) c ∧ c.isOperand = true := by
  have htwo := two_le_tallest r
  refine .bind ((hx 0 s hroom fun c hc => ?_).follows.imp ?_)
  · rw [hempty] at hc
    cases hc
  · rintro k t ⟨hfollows, hrow, hoperands⟩
    have hrow' : ∀ d ∈ t.top.built, G.holds (tallest r + 3) d := fun d hd => G.mono (by omega) (hrow d hd)
    refine (returns_continuePath he (by omega) k t (hroom.follows hfollows) hrow').imp ?_
    rintro _ u ⟨hbound, hbuilt⟩
    refine fun d hd => ⟨hbound d hd, ?_⟩
    rcases hbuilt with hbuilt | ⟨cs, hbuilt⟩
    · refine (hoperands d (hbuilt ▸ hd)).resolve_right fun hd => ?_
      rw [hempty] at hd
      cases hd
    · rw [hbuilt] at hd
      rw [List.mem_singleton.mp hd]
      rfl

/-- A term is no operation. -/
theorem presents_term : Presents G n r (tallestOperand r) term := by
  have hone : 1 ≤ tallestOperand r := by cases r <;> simp only [tallestOperand] <;> omega
  refine .nested hone ?_
  rintro r rfl
  have htwo := two_le_tallest r
  refine .marked fun s hroom hempty => .bind (.look rfl fun k t hpeek hbuilt => ?_)
  have hroom' : t.Room r := hroom.follows (look_perform rfl hpeek).1
  have hpath {x : Routine Kind} {b : Nat} (hx : Presents G n r b x) (hb : b ≤ tallest r + 3) :=
    returns_withPath he hx hb t hroom' (hbuilt.trans hempty)
  split
  case h_1 | h_2 => exact hpath (presents_externalQuery he) (by omega)
  case h_13 => exact hpath (presents_group he) (by omega)
  case h_14 => exact hpath (presents_array he) (by omega)
  case h_15 => exact hpath (presents_objectOrBlock he) (by omega)
  case h_16 => exact hpath (presents_identOrCall he) (by omega)
  case h_17 =>
    have hmissing : Presents G n r (tallest r + 4) (do missingOperand; return Kind.error) :=
      .bind (presents_missingOperand.le (by omega)) fun _ => .done _
    have hnone {p : Tree → Prop} : ∀ c ∈ t.top.built, p c := fun c hc => by
      rw [hbuilt, hempty] at hc
      cases hc
    refine (hmissing 0 t hroom' hnone).imp fun _ u hu c hc => ⟨G.mono (by simp [tallestOperand]) (hu.1 c hc), ?_⟩
    exact (hu.2 c hc).resolve_right fun hc => hnone (p := fun _ => False) c hc
  all_goals exact hpath (presents_literal he) (by omega)

/-! Statements. -/

theorem fills_assignedValue : Fills G n r (tallest r) assignedValue := by
  refine .bind (fills_newlines he) fun _ => .bind (.flat rfl) fun _ => .ite ?_ (fills_reportFound _ _)
  exact .bind (he.rule .statement r rfl) fun _ => .done _

theorem fills_target : Fills G n r (tallest r) target := by
  have htwo := two_le_tallest r
  refine .bind (fills_peekIs _) fun _ => .ite ?_ (he.rule (.binary 0) r rfl)
  exact (Fills.node rfl (b := 0) (.bind (.flat rfl) fun _ => .done _)).le (by omega)

theorem fills_assignment : Fills G n r (tallest r + 2) assignment := by
  refine .marked <| .bind ((fills_target he).raises (Nat.zero_le _) (Nat.le_refl _)) fun lhs => ?_
  have hlook {h : Nat} {β : Type} {action : Action β} (hflat : action.isFlat = true) : Raises G n r h h (act action) :=
    (Fills.flat (b := 0) hflat).raises (Nat.le_refl h) (Nat.zero_le h)
  have hcheck (k : Kind) : Raises G n r (tallest r) (tallest r) (checkTarget k) :=
    (fills_checkTarget (b := 0) k).raises (Nat.le_refl _) (Nat.zero_le _)
  refine .bind (hlook rfl) fun k => .ite ?_ (.ite ?_ ?_)
  · refine .bind (hcheck lhs) fun _ => .bind (.wrapped (b := tallest r) rfl ?_) fun _ => .done (by omega) _
    exact .bind (hlook rfl) fun _ => (fills_assignedValue he).raises (Nat.le_refl _) (Nat.le_refl _)
  · refine .bind (hcheck lhs) fun _ => .bind (.wrapped (b := tallest r) rfl ?_) fun _ =>
      .bind (.wrapped (b := tallest r + 1) rfl ?_) fun _ => .done (by omega) _
    · refine .bind (hlook rfl) fun _ => .bind ((fills_newlines (b := 0) he).raises (Nat.le_refl _) (Nat.zero_le _)) fun _ => ?_
      refine (Fills.marked ?_).raises (Nat.le_refl _) (Nat.le_refl _)
      exact .bind ((fills_target he).raises (Nat.zero_le _) (Nat.le_refl _)) fun err => hcheck err
    · refine .bind (hlook rfl) fun _ => .ite ?_ ((fills_reportFound (b := 0) _ _).raises (Nat.le_refl _) (Nat.zero_le _))
      exact .bind (hlook rfl) fun _ => (fills_assignedValue he).raises (Nat.le_refl _) (by omega)
  · exact .ite (.bind (hlook rfl) fun _ => .done (by omega) _) (.done (by omega) _)

theorem fills_conditionsBody (count : Nat) : Fills G n r (tallest r + 2) (conditionsBody count) := by
  refine .bind (fills_newlines he) fun _ => .bind (.flat rfl) fun _ => .ite (.done _) ?_
  refine .bind (fills_peekIs _) fun _ => .ite (.done _) <| .bind (.flat rfl) fun k => .ite ?_ (.ite ?_ ?_)
  · exact .bind ((fills_reportAndAdvance _ _).le (by omega)) fun _ => he.rule (.conditions count) r rfl
  · refine .bind (he.rule .assignment r rfl) fun _ => .bind (.flat rfl) fun k => ?_
    split
    · exact .bind (fills_newlines he) fun _ => he.rule (.conditions (count + 1)) r rfl
    · exact .bind (.flat rfl) fun _ => .bind (fills_newlines he) fun _ => he.rule (.conditions (count + 1)) r rfl
    · exact .done _
  · exact .bind (fills_reportFound _ _) fun _ => .done _

/-- Parentheses that turn out to be a group are the first operand of what follows. -/
theorem raises_regrouped : Raises G n r (tallest r + 2) (tallest r + r + 4) (do
    wrapped .group (pure ())
    let k ← continuePath .group
    let _ ← rule (.binaryRest 0 k)) := by
  intro s hroom hrow
  have htwo := two_le_tallest r
  refine .bind (.wrapped (.done ?_))
  have hgroup : ∀ c ∈ (s.wrapped .group (s.wrapping .group)).top.built, G.holds (tallest r + 3) c := by
    intro c hc
    rw [List.mem_singleton.mp hc]
    exact G.node rfl fun d hd => hrow d (List.mem_reverse.mp hd)
  have hroom' : (s.wrapped .group (s.wrapping .group)).Room r := ⟨hroom.levels, hroom.spent⟩
  refine .bind ((returns_continuePath he (by omega) .group (s.wrapped .group (s.wrapping .group)) hroom' hgroup).follows.imp ?_)
  rintro k t ⟨hfollows, hpath, hbuilt⟩
  have hrow' : ∀ c ∈ t.top.built, G.holds (tallest r + 4) c ∧ c.isOperand = true := by
    refine fun c hc => ⟨hpath c hc, ?_⟩
    rcases hbuilt with hbuilt | ⟨cs, hbuilt⟩
    · rw [hbuilt] at hc
      rw [List.mem_singleton.mp hc]
      rfl
    · rw [hbuilt] at hc
      rw [List.mem_singleton.mp hc]
      rfl
  exact .bind ((he.rest 0 k r _ (tallest r + r + 4) t (by omega) (by omega) (hroom'.follows hfollows) hrow').imp fun _ _ hu => .done hu)

theorem fills_parenthesised : Fills G n r (tallest r + r + 4) parenthesised := by
  have hlook {β : Type} {action : Action β} (hflat : action.isFlat = true) : Raises G n r 0 0 (act action) :=
    (Fills.flat hflat).raises (Nat.le_refl 0) (Nat.le_refl 0)
  have hgrouped (q : Bool) : Raises G n r (tallest r + 2) (tallest r + r + 4) (if q then (do
      wrapped .group (pure ())
      let k ← continuePath .group
      let _ ← rule (.binaryRest 0 k)) else pure ()) :=
    .ite (raises_regrouped he) (.done (by omega) _)
  refine .marked <| .bind (hlook rfl) fun _ => .bind (hlook rfl) fun _ => ?_
  refine .bind ((he.rule (.conditions 0) r rfl).raises (Nat.zero_le _) (Nat.le_refl _)) fun count => ?_
  refine .bind ((fills_close he _).raises (Nat.le_refl _) (by simp only [Rule.bound]; omega)) fun _ => .ite ?_ ?_
  · exact .bind ((fills_atContinuation (b := 0)).raises (Nat.le_refl _) (Nat.zero_le _)) fun q => hgrouped q
  · exact .bind (.done (Nat.le_refl _) _) fun q => hgrouped q

theorem fills_predicate : Fills G n r (tallest r + r + 5) predicate := by
  refine .bind (fills_newlines he) fun _ => .node rfl <| .bind (.flat rfl) fun k => .ite (fills_parenthesised he) ?_
  exact .ite (.bind ((he.rule (.binary 0) r rfl).le (by simp only [Rule.bound]; omega)) fun _ => .done _) (fills_reportFound _ _)

theorem fills_branch : Fills G n r (tallest r + r + 5) branch :=
  .bind (fills_predicate he) fun _ => .bind (fills_newlines he) fun _ =>
    .bind ((fills_block he).le (by omega)) fun _ => .done _

theorem fills_elseBranchesBody : Fills G n r (tallest r + r + 5) elseBranchesBody := by
  refine .bind (fills_eat _) fun _ => .ite ?_ (.done _)
  refine .bind (fills_newlines he) fun _ => .bind (fills_eat _) fun _ => .ite ?_ ?_
  · exact .bind (fills_branch he) fun _ => he.rule .elseBranches r rfl
  · exact .bind ((fills_block he).le (by omega)) fun _ => .done _

theorem fills_ifStatement : Fills G n r (tallest r + r + 6) ifStatement :=
  .node rfl <| .bind (fills_require _) fun _ => .bind (.flat rfl) fun _ => .bind (fills_branch he) fun _ =>
    .bind (he.rule .elseBranches r rfl) fun _ => .done _

theorem fills_abortStatement : Fills G n r (tallest r + 1) abortStatement :=
  .node rfl <| .bind (.flat rfl) fun _ => .bind (.flat rfl) fun _ =>
    .ite (.bind (he.rule .statement r rfl) fun _ => .done _) (.done _)

theorem fills_returnStatement : Fills G n r (tallest r + 1) returnStatement := by
  refine .node rfl <| .bind (.flat rfl) fun _ => .bind (fills_newlines he) fun _ => .bind (.flat rfl) fun _ => .ite ?_ ?_
  · exact .bind (he.rule .statement r rfl) fun _ => .done _
  · exact .bind (fills_reportFound _ _) fun _ => .done _

theorem fills_statement : Fills G n r (tallest r) statement := by
  have htwo := two_le_tallest r
  refine .nested (by omega) ?_
  rintro r rfl
  refine .bind (.flat rfl) fun k => ?_
  split
  · exact fills_ifStatement he
  · exact (fills_abortStatement he).le (by simp only [tallest]; omega)
  · exact (fills_returnStatement he).le (by simp only [tallest]; omega)
  · exact (he.rule .assignment r rfl).le (by simp only [tallest, Rule.bound]; omega)

theorem fills_endOfStatement (closer : Option Kind) : Fills G n r b (endOfStatement closer) := by
  refine .bind (.flat rfl) fun _ => .ite (.done _) <| .bind (.flat rfl) fun k => .ite ?_ (.ite ?_ (.ite (.done _) ?_))
  · exact .bind (fills_newlines he) fun _ => .done _
  · exact .bind (.flat rfl) fun _ => .bind (fills_newlines he) fun _ => .done _
  · exact .bind (fills_reportFound _ _) fun _ => .done _

theorem fills_skipStatement : Fills G n r (tallest r) skipStatement :=
  (fills_resync he _).le (Nat.le_trans (by omega) (two_le_tallest r))

theorem fills_statementAndEnd (closer : Option Kind) : Fills G n r (tallest r) (statementAndEnd closer) :=
  .bind (he.rule .statement r rfl) fun _ => .bind (fills_endOfStatement he closer) fun _ => .ite (.done _) (fills_skipStatement he)

theorem fills_statementsBody (closer : Option Kind) : Fills G n r (tallest r) (statementsBody closer) := by
  have hagain : Fills G n r (tallest r) (rule (.statements closer)) := he.rule (.statements closer) r rfl
  have hstray (p : Problem) (d : Detail) : Fills G n r (tallest r) (reportAndAdvance p d) :=
    (fills_reportAndAdvance p d).le (Nat.le_trans (by omega) (two_le_tallest r))
  refine .bind (fills_newlines he) fun _ => .bind (.flat rfl) fun _ => .ite (.done _) ?_
  refine .bind (.flat rfl) fun k => .ite (.done _) (.ite ?_ (.ite ?_ (.ite ?_ ?_)))
  · exact .bind (hstray _ _) fun _ => hagain
  · exact .bind (hstray _ _) fun _ => hagain
  · exact .bind (fills_statementAndEnd he closer) fun _ => hagain
  · exact .bind (fills_reportFound _ _) fun _ => .bind (fills_skipStatement he) fun _ => hagain

theorem fills_program : Fills G n r (tallest r + 1) program :=
  .node rfl <| .bind (he.rule (.statements none) r rfl) fun _ => .flat rfl

/-- The body of a rule other than those for operators fills a frame within the bound of the rule. -/
theorem fills_grammar (ρ : Rule α) (hρ : ρ.isOperator = false) : Fills G n r (ρ.bound r) (grammar ρ) := by
  cases ρ with
  | newlines => exact fills_newlinesBody he
  | absorb => exact fills_absorbBody he
  | skipTo stops depth => exact fills_skipToBody he stops depth
  | stringParts => exact fills_stringPartsBody he
  | templateParts => exact fills_templatePartsBody he
  | pathSegments => exact fills_pathSegmentsBody he
  | items list => exact fills_itemsBody he list
  | statements closer => exact fills_statementsBody he closer
  | conditions count => exact fills_conditionsBody he count
  | elseBranches => exact fills_elseBranchesBody he
  | statement => exact fills_statement he
  | assignment => exact fills_assignment he
  | binary min | binaryRest min lhs | unary => cases hρ

end Grammar

theorem State.room_start (tokens : List Token) (limit : Nat) (fuel : Option Nat) : (State.start tokens limit fuel).Room limit :=
  ⟨Nat.le_add_left _ _, fun hover => by cases hover⟩

/-- The tree of a source that is parsed is within the bound of a program. -/
theorem holds_of_parse {G : Grading} (hG : ∀ n, Bounded G n) {o : Options} {source : Text} {p : Parsed}
    (h : parse o source = .ok p) : G.holds (tallest o.limit + 1) p.tree := by
  have hprogram (n : Nat) : Returns n program (.start (scan source o.checkPatterns).tokens o.limit o.fuel)
      fun _ t => ∀ c ∈ t.top.built, G.holds (tallest o.limit + 1) c := by
    refine (fills_program (hG n) 0 _ (State.room_start _ _ _) fun c hc => absurd hc List.not_mem_nil).imp ?_
    exact fun _ _ ht c hc => G.mono (Nat.max_le.mpr ⟨Nat.zero_le _, Nat.le_refl _⟩) (ht c hc)
  obtain ⟨t, ht, hbuilt⟩ := Returns.of_parse h hprogram
  exact ht p.tree (hbuilt ▸ List.mem_singleton_self _)

end Remap.Parser
