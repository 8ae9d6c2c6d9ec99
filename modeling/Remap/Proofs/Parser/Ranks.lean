import Mathlib.Data.List.DropRight
import Remap.Proofs.Parser.Fills

/-!
# Operators are folded in order

Reading operators of at least some precedence stops only where the next token is no such operator, or where nothing is left to
read (`Rests`). So an operator that is folded onto what was built since the mark never binds more tightly than the operation it
finds there: that operation took its right operand first, and its right operand took every operator that binds more tightly.

The row since the mark is summed up by one number, a precedence at which all that is in it binds.
-/

namespace Remap

theorem BinaryOperator.precedence_le (op : BinaryOperator) : op.precedence ≤ 8 := by
  cases op <;> decide

namespace Parser

variable {α β : Type}

namespace State

/-- The next token is no operator that binds as tightly as a precedence. -/
def Rests (m : Nat) (s : State) : Prop := ∀ op, BinaryOperator.ofKind? s.skip.nextKind = some op → op.precedence < m

theorem nextKind_skip (s : State) : s.skip.nextKind = ((s.unread.dropWhile s.skips).head?.map (·.kind)).getD .error := by
  simp only [nextKind, unread_skip]
  cases s.unread.dropWhile s.skips <;> rfl

/-- Only the tokens ahead matter, and how newlines are read. -/
theorem Rests.congr {m : Nat} {s t : State} (hunread : t.unread = s.unread) (hseparating : t.separating = s.separating)
    (h : s.Rests m) : t.Rests m := by
  have hskips : t.skips = s.skips := by
    funext token
    simp only [skips, hseparating]
  have hnext : t.skip.nextKind = s.skip.nextKind := by rw [nextKind_skip, nextKind_skip, hunread, hskips]
  intro op hop
  exact h op (hnext ▸ hop)

/-- Looking at the next token makes no difference. -/
theorem nextKind_skip_looked (s : State) : s.looked.skip.nextKind = s.looked.nextKind := by
  have hskips : s.looked.skips = s.skips := by rw [looked, skip_eq]; rfl
  have hlooked : s.looked.nextKind = s.skip.nextKind := rfl
  have hunread : s.looked.unread = s.skip.unread := rfl
  rw [hlooked, nextKind_skip, nextKind_skip, hskips, hunread, unread_skip, List.dropWhile_idempotent]

theorem rests_of_unread {s : State} (m : Nat) (h : s.unread = []) : s.Rests m := by
  intro op hop
  rw [nextKind_skip, h] at hop
  cases hop

/-- Where nothing was read yet, every operator will do. -/
theorem rests_top {m : Nat} (s : State) (h : 8 < m) : s.Rests m :=
  fun op _ => Nat.lt_of_le_of_lt op.precedence_le h

end State

open State (Rests)

/-- Trees whose operations are in order. -/
def rankings : Grading where
  holds _ t := t.Ranked
  leaf _ k t := .leaf k t
  mono _ h := h
  node hk h := .node (Tree.orderly_of_isOperation hk) h

/-- The innermost frame was given a row of trees of which each satisfies `p`. -/
def Adds (p : Tree → Prop) (s t : State) : Prop := ∃ new, t.top.built = new ++ s.top.built ∧ ∀ c ∈ new, p c

theorem Adds.refl {p : Tree → Prop} (s : State) : Adds p s s := ⟨[], rfl, fun _ hc => absurd hc List.not_mem_nil⟩

theorem Adds.of_eq {p : Tree → Prop} {s t : State} (h : t.top.built = s.top.built) : Adds p s t :=
  ⟨[], h, fun _ hc => absurd hc List.not_mem_nil⟩

theorem Adds.trans {p : Tree → Prop} {s t u : State} (h : Adds p s t) (h' : Adds p t u) : Adds p s u := by
  obtain ⟨xs, hxs, hx⟩ := h
  obtain ⟨ys, hys, hy⟩ := h'
  refine ⟨ys ++ xs, by rw [hys, hxs, List.append_assoc], fun c hc => ?_⟩
  rcases List.mem_append.mp hc with hc | hc
  · exact hy c hc
  · exact hx c hc

theorem Adds.imp {p q : Tree → Prop} {s t : State} (h : Adds p s t) (hpq : ∀ c, p c → q c) : Adds q s t := by
  obtain ⟨new, hbuilt, hnew⟩ := h
  exact ⟨new, hbuilt, fun c hc => hpq c (hnew c hc)⟩

/-- Consuming a token adds the blanks before it and the token. -/
theorem adds_consumed {p : Tree → Prop} {s : State} {token : Token} {rest : List Token} (hs : s.Steady)
    (hblank : ∀ c : Tree, c.isBlank = true → p c) (htoken : p token.leaf) : Adds p s (s.consumed token rest) := by
  refine ⟨token.leaf :: s.held.reverse.map Token.leaf, ?_, fun c hc => ?_⟩
  · simp only [State.consumed, List.map_reverse, List.cons_append]
  · rcases List.mem_cons.mp hc with rfl | hc
    · exact htoken
    · exact hblank c (hs.isBlank_held c hc)

/-- Newlines are added with the blanks between them. -/
theorem adds_newlines (n : Nat) (s : State) : Returns n newlines s fun _ t => Adds (·.isBlank = true) s t := by
  induction n generalizing s with
  | zero => exact .zero _ s
  | succ n ih =>
    refine .rule <| .bind <| .bind <| .look rfl fun k t hpeek hbuilt => .done ?_
    split
    · rename_i hk
      refine .bind <| .of_steady fun hsteady => .flat rfl fun _ u hadvance _ => ?_
      obtain ⟨token, rest, hunread, rfl⟩ := State.of_perform_advance hadvance
      have hkind : token.kind = .newline := by
        obtain ⟨rfl, rfl⟩ := State.of_perform_peek hpeek
        rw [State.nextKind, hunread] at hk
        exact eq_of_beq hk
      have hblank : token.leaf.isBlank = true := by simp [Token.leaf, Tree.isBlank, hkind]
      have hadds : Adds (·.isBlank = true) s (t.consumed token rest) :=
        (Adds.of_eq hbuilt).trans (adds_consumed hsteady (fun _ h => h) hblank)
      exact (ih _).imp fun _ v hv => hadds.trans hv
    · exact .done (.of_eq hbuilt)

/-- Newlines are no operators. -/
theorem adds_operands (n : Nat) (s : State) : Returns n newlines s fun _ t => Adds (·.isOperand = true) s t :=
  (adds_newlines n s).imp fun _ _ ht => ht.imp fun _ hc => Tree.isOperand_of_isBlank hc

/-- Operators are read in order: operands are no operations, and what is read at a precedence binds at it and stops only where
no operator of that precedence follows. -/
structure InOrder (n : Nat) : Prop where
  bounded : Bounded rankings n
  unary (r : Nat) : Presents rankings n r 1 (rule .unary)
  binary (m r : Nat) (s : State) : s.Room r → (∀ c ∈ s.top.built, c.Ranked) →
    Returns n (rule (.binary m)) s fun _ t => (∀ c ∈ t.top.built, c.Ranked) ∧ Adds (·.Binds m) s t ∧ t.Rests m
  rest (m : Nat) (k : Kind) (q r : Nat) (s : State) : m ≤ q → s.Room r → (∀ c ∈ s.top.built, c.Ranked ∧ c.Binds q) →
    s.Rests (q + 1) → Returns n (rule (.binaryRest m k)) s fun _ t => (∀ c ∈ t.top.built, c.Ranked ∧ c.Binds m) ∧ t.Rests m

section Operators

variable {n r : Nat} (he : InOrder n)

include he

theorem presents_newlines : Presents rankings n r 1 newlines := by
  intro h s hroom hrow
  refine (fills_newlines he.bounded h s hroom hrow).and <| (adds_operands n s).imp fun _ t ht c hc => ?_
  obtain ⟨new, hbuilt, hnew⟩ := ht
  rw [hbuilt] at hc
  exact (List.mem_append.mp hc).imp (hnew c) id

/-- The operand of a sign is no operation. -/
theorem presents_sign : Presents rankings n r 1 (node .unaryOp do
    advance
    newlines
    let _ ← rule .unary
    return Kind.unaryOp) := by
  intro h s hroom hrow
  have hsigned : Presents rankings n r 1 (do newlines; let _ ← rule .unary; return Kind.unaryOp) :=
    .bind (presents_newlines he) fun _ => .bind (he.unary r) fun _ => .done _
  refine .of_steady fun hsteady => .node <| .bind <| .flat rfl fun _ t hadvance hadds => ?_
  obtain ⟨ts, hleaves⟩ := hadds
  rw [show (s.pushed (some .unaryOp)).top.built = [] from rfl, List.append_nil] at hleaves
  have hranked : ∀ c ∈ t.top.built, c.Ranked := by
    intro c hc
    rw [hleaves] at hc
    obtain ⟨token, -, rfl⟩ := List.mem_map.mp hc
    exact .leaf _ _
  have hroom' : t.Room r := (hroom.pushed _).follows (flat_perform rfl hadvance).1
  refine (hsigned 0 t hroom' hranked).imp fun _ u hu => ⟨fun c hc => ?_, fun c hc => ?_⟩
  · rcases List.mem_cons.mp hc with rfl | hc
    · refine .node ⟨fun hk => (by cases hk), fun _ ds hds => ?_⟩ fun c hc => hu.1 c (List.mem_reverse.mp hc)
      rcases hu.2 _ (List.mem_reverse.mp hds) with hoperand | hleaf
      · cases hoperand
      · rw [hleaves] at hleaf
        obtain ⟨token, -, htoken⟩ := List.mem_map.mp hleaf
        cases htoken
    · exact Fills.drained (G := rankings) (h := 0) hrow c hc
  · rcases List.mem_cons.mp hc with rfl | hc
    · exact .inl rfl
    · exact hsteady.mem_drain hc

/-- An operand is no binary operation, nor is the operand of its sign. -/
theorem presents_unaryBody : Presents rankings n r 1 unaryBody := by
  refine .bind (presents_newlines he) fun _ => .bind (presents_peekIs _) fun _ => .ite ?_ ?_
  · exact .nested (Nat.le_refl 1) fun i _ => presents_sign he
  · exact fun h s hroom hrow => presents_term he.bounded h s hroom hrow

theorem returns_binaryBody (m : Nat) (s : State) (hroom : s.Room r) (hrow : ∀ c ∈ s.top.built, c.Ranked) :
    Returns n (binaryBody m) s fun _ t => (∀ c ∈ t.top.built, c.Ranked) ∧ Adds (·.Binds m) s t ∧ t.Rests m := by
  have hnone {p : Tree → Prop} : ∀ c ∈ (s.pushed none).top.built, p c := fun c hc => absurd hc List.not_mem_nil
  refine .of_steady fun hsteady => .marked <| .bind ((he.unary r 0 (s.pushed none) (hroom.pushed _) hnone).follows.imp ?_)
  rintro lhs t ⟨hfollows, hranked, hoperands⟩
  have hrow' : ∀ c ∈ t.top.built, c.Ranked ∧ c.Binds (max m 8) :=
    fun c hc => ⟨hranked c hc, Tree.binds_of_isOperand _ ((hoperands c hc).resolve_right fun hc => by cases hc)⟩
  refine (he.rest m lhs (max m 8) r t (Nat.le_max_left _ _) ((hroom.pushed _).follows hfollows) hrow'
    (t.rests_top (by omega))).imp fun _ u hu => ?_
  obtain ⟨hu, hrests⟩ := hu
  refine ⟨fun c hc => ?_, ⟨u.top.built ++ s.held.reverse.map Token.leaf, ?_, fun c hc => ?_⟩, hrests.congr (s := u) rfl rfl⟩
  · rcases List.mem_append.mp hc with hc | hc
    · exact (hu c hc).1
    · exact Fills.drained (G := rankings) (h := 0) hrow c hc
  · rw [List.append_assoc, ← State.built_drain]
    rfl
  · rcases List.mem_append.mp hc with hc | hc
    · exact (hu c hc).2
    · exact Tree.binds_of_isOperand m (hsteady.isOperand_held c hc)

/-- What follows an operator: its right operand, which binds more tightly. -/
theorem returns_rightOperand (m : Nat) (s : State) (hroom : s.Room r) (hrow : ∀ c ∈ s.top.built, c.Ranked) :
    Returns n (do newlines; let _ ← rule (.binary m)) s fun _ t =>
      (∀ c ∈ t.top.built, c.Ranked) ∧ Adds (·.Binds m) s t ∧ t.Rests m := by
  refine .bind (((fills_newlines (b := 0) he.bounded 0 s hroom hrow).and (adds_operands n s)).follows.imp ?_)
  rintro _ t ⟨hfollows, hranked, new, hbuilt, hnew⟩
  have hadds : Adds (·.Binds m) s t := ⟨new, hbuilt, fun c hc => Tree.binds_of_isOperand m (hnew c hc)⟩
  refine .bind ((he.binary m r t (hroom.follows hfollows) hranked).imp fun _ u hu => .done ?_)
  exact ⟨hu.1, hadds.trans hu.2.1, hu.2.2⟩

/-- One fold: the operator takes what was built since the mark as its left operand. -/
theorem returns_fold {op : BinaryOperator} (s : State) (hroom : s.Room r) (hop : BinaryOperator.ofKind? s.nextKind = some op)
    (hrow : ∀ c ∈ s.top.built, c.Ranked ∧ c.Binds op.precedence) :
    Returns n (wrapped .binaryOp do advance; newlines; let _ ← rule (.binary (op.precedence + 1))) s fun _ t =>
      (∀ c ∈ t.top.built, c.Ranked ∧ c.Binds op.precedence) ∧ t.Rests (op.precedence + 1) := by
  refine .of_steady fun hsteady => .wrapped <| .bind <| .flat rfl fun _ t hadvance _ => ?_
  have hroom' : t.Room r := (hroom.wrapping _).follows (flat_perform rfl hadvance).1
  obtain ⟨token, rest, hunread, rfl⟩ := State.of_perform_advance hadvance
  have hkind : BinaryOperator.ofKind? token.kind = some op := by
    rw [State.nextKind, show s.unread = token :: rest from hunread] at hop
    exact hop
  have hleft : ∀ c ∈ s.held.reverse.map Token.leaf ++ s.top.built, c.Ranked ∧ c.Binds op.precedence := by
    intro c hc
    rcases List.mem_append.mp hc with hc | hc
    · refine ⟨?_, Tree.binds_of_isOperand _ (hsteady.isOperand_held c hc)⟩
      obtain ⟨token, -, rfl⟩ := List.mem_map.mp hc
      exact .leaf _ _
    · exact hrow c hc
  have hbuilt : ((s.wrapping .binaryOp).consumed token rest).top.built =
      token.leaf :: (s.held.reverse.map Token.leaf ++ s.top.built) := by
    simp only [State.consumed, State.wrapping, List.map_reverse]
  have hranked : ∀ c ∈ ((s.wrapping .binaryOp).consumed token rest).top.built, c.Ranked := by
    intro c hc
    rw [hbuilt] at hc
    rcases List.mem_cons.mp hc with rfl | hc
    · exact .leaf _ _
    · exact (hleft c hc).1
  refine (returns_rightOperand he (op.precedence + 1) _ hroom' hranked).imp fun _ u hu => ?_
  obtain ⟨hranked', ⟨new, hnew, hbinds⟩, hrests⟩ := hu
  have hoperation : Tree.Operation op u.top.built.reverse := by
    rw [hnew, hbuilt, List.reverse_append, List.reverse_cons, List.append_assoc, List.singleton_append]
    exact .intro hkind (fun c hc => (hleft c (List.mem_reverse.mp hc)).2) fun c hc => hbinds c (List.mem_reverse.mp hc)
  refine ⟨fun c hc => ?_, hrests.congr (s := u) rfl rfl⟩
  rw [List.mem_singleton.mp hc]
  refine ⟨.node ⟨fun _ => ⟨op, hoperation⟩, fun hk => (by cases hk)⟩ fun c hc => hranked' c (List.mem_reverse.mp hc), fun _ op' hop' => ?_⟩
  rw [hoperation.operatorOf] at hop'
  cases hop'
  exact Nat.le_refl _

/-- Folding stops where no operator follows that binds tightly enough. -/
theorem returns_binaryRestBody (m : Nat) (k : Kind) (q : Nat) (s : State) (hmq : m ≤ q) (hroom : s.Room r)
    (hrow : ∀ c ∈ s.top.built, c.Ranked ∧ c.Binds q) (hrests : s.Rests (q + 1)) :
    Returns n (binaryRestBody m k) s fun _ t => (∀ c ∈ t.top.built, c.Ranked ∧ c.Binds m) ∧ t.Rests m := by
  refine .bind <| .look rfl fun k' t hpeek hbuilt => ?_
  have hroom' : t.Room r := hroom.follows (look_perform rfl hpeek).1
  obtain ⟨rfl, rfl⟩ := State.of_perform_peek hpeek
  have hkeep : ∀ c ∈ s.looked.top.built, c.Ranked ∧ c.Binds m :=
    fun c hc => (hrow c (hbuilt ▸ hc)).imp id (Tree.Binds.of_le hmq)
  split
  · rename_i hnone
    refine .done ⟨hkeep, fun op hop => ?_⟩
    rw [State.nextKind_skip_looked, hnone] at hop
    cases hop
  · rename_i op hop
    split
    · rename_i hlt
      refine .done ⟨hkeep, fun op' hop' => ?_⟩
      rw [State.nextKind_skip_looked, hop] at hop'
      cases hop'
      exact hlt
    · rename_i hle
      have hlt : op.precedence < q + 1 := hrests op hop
      have hfoldable : ∀ c ∈ s.looked.top.built, c.Ranked ∧ c.Binds op.precedence :=
        fun c hc => (hrow c (hbuilt ▸ hc)).imp id (Tree.Binds.of_le (by omega))
      have hdeeper : s.looked.deeper.Room r :=
        ⟨Nat.le_trans hroom'.levels (Nat.add_le_add_right (Nat.le_succ _) r), hroom'.spent⟩
      refine .of_steady fun hsteady => .nested (fun _ => ?_) (fun hover => ?_) fun _ t ts hunread hrow' => ⟨fun c hc => ?_, ?_⟩
      · refine .bind ((returns_fold he s.looked.deeper (hdeeper) hop hfoldable).follows.imp ?_)
        rintro _ t ⟨hfollows, hrow', hrests'⟩
        refine (he.rest m .binaryOp op.precedence _ t (by omega) ((hdeeper).follows hfollows) hrow' hrests').imp ?_
        exact fun _ u hu => ⟨hu.1, hu.2.congr (s := u) rfl rfl⟩
      · -- Nothing is left to read once the limit was hit, so there is no operator.
        rw [State.nextKind, hroom'.spent hover] at hop
        cases hop
      · rw [hrow'] at hc
        rcases List.mem_cons.mp hc with rfl | hc
        · refine ⟨.node (Tree.orderly_of_isOperation rfl) fun c hc => ?_, fun hk => (by cases hk)⟩
          obtain ⟨token, -, rfl⟩ := List.mem_map.mp hc
          exact .leaf _ _
        · have hdrained : c.Ranked :=
            Fills.drained (G := rankings) (h := 0) (by rw [State.built_skip]; exact fun c hc => (hkeep c hc).1) c hc
          rcases (s.looked.hushes_skip.steady hsteady).mem_drain hc with hoperand | hc
          · exact ⟨hdrained, Tree.binds_of_isOperand m hoperand⟩
          · rw [State.built_skip] at hc
            exact hkeep c hc
      · exact State.rests_of_unread m hunread

end Operators

/-- Operators are read in order, by induction on the bound on nested rules. -/
theorem inOrder_runRule (n : Nat) : InOrder n := by
  induction n with
  | zero =>
    exact ⟨⟨fun ρ _ _ _ s _ _ => .zero ρ s, fun _ _ _ _ _ s _ _ _ _ => .zero _ s⟩, fun _ _ s _ _ => .zero _ s,
      fun _ _ s _ _ => .zero _ s, fun _ _ _ _ s _ _ _ _ => .zero _ s⟩
  | succ n he =>
    have hunary (r : Nat) : Presents rankings (n + 1) r 1 (rule .unary) := presents_unaryBody he
    refine ⟨⟨fun ρ r hρ => ?_, fun m k r h b s _ _ hroom hrow => ?_⟩, hunary, fun m r s => returns_binaryBody he m s,
      fun m k q r s => returns_binaryRestBody he m k q s⟩
    · cases hop : ρ.isOperator with
      | false => exact fills_grammar he.bounded ρ hop
      | true =>
        cases ρ with
        | unary => exact fun h s hroom hrow => (hunary r h s hroom hrow).imp fun _ _ ht => ht.1
        | binary m => exact fun h s hroom hrow => (returns_binaryBody he m s hroom hrow).imp fun _ _ ht => ht.1
        | binaryRest m k => cases hρ
        | _ => cases hop
    · have hrow' : ∀ c ∈ s.top.built, c.Ranked ∧ c.Binds (max m 8) :=
        fun c hc => (hrow c hc).imp id (Tree.binds_of_isOperand _)
      refine (returns_binaryRestBody he m k (max m 8) s (Nat.le_max_left _ _) hroom hrow' (s.rests_top (by omega))).imp ?_
      exact fun _ _ ht c hc => (ht.1 c hc).1

end Parser

end Remap
