import Remap.Proofs.Parser.Fills

/-!
# How deep a tree can be

Nesting is counted while a source is read, and reading stops at a limit. The count does not bound the depth of the tree in
proportion: when a group ends, its level is given back, and the operators that follow may use it once more to nest the group
deeper. So the depth is bounded by the square of the limit, and towers of groups with operators after each come close to that.
-/

namespace Remap

namespace Tree

mutual
/-- The number of nodes above each leaf of a tree, from left to right. -/
def depths : Tree → List Nat
  | .leaf _ _ => [0]
  | .node _ cs => (depthsOf cs).map (· + 1)
/-- The number of nodes above each leaf of a row of trees. -/
def depthsOf : List Tree → List Nat
  | [] => []
  | t :: ts => depths t ++ depthsOf ts
end

mutual
/-- No leaf is deeper than the height of a tree. -/
theorem le_height_of_mem_depths {d : Nat} : (t : Tree) → d ∈ t.depths → d ≤ t.height
  | .leaf _ _, h => by
    rw [depths, List.mem_singleton] at h
    rw [h]
    exact Nat.zero_le _
  | .node _ cs, h => by
    rw [depths, List.mem_map] at h
    obtain ⟨e, he, rfl⟩ := h
    exact Nat.succ_le_succ (le_heightOf_of_mem_depthsOf cs he)
theorem le_heightOf_of_mem_depthsOf {d : Nat} : (ts : List Tree) → d ∈ depthsOf ts → d ≤ heightOf ts
  | [], h => absurd h List.not_mem_nil
  | t :: ts, h => by
    rw [depthsOf, List.mem_append] at h
    rcases h with h | h
    · exact Nat.le_trans (le_height_of_mem_depths t h) (Nat.le_max_left _ _)
    · exact Nat.le_trans (le_heightOf_of_mem_depthsOf ts h) (Nat.le_max_right _ _)
end

/-- A row is as high as its highest tree. -/
theorem heightOf_le {b : Nat} {ts : List Tree} (h : ∀ t ∈ ts, t.height ≤ b) : heightOf ts ≤ b := by
  induction ts with
  | nil => exact Nat.zero_le b
  | cons t ts ih =>
    exact Nat.max_le.mpr ⟨h t List.mem_cons_self, ih fun u hu => h u (List.mem_cons_of_mem t hu)⟩

end Tree

namespace Parser

/-- Trees no higher than a bound. -/
def heights : Grading where
  holds b t := t.height ≤ b
  leaf _ _ _ := Nat.zero_le _
  mono hle h := Nat.le_trans h hle
  node _ h := Nat.succ_le_succ (Tree.heightOf_le h)

theorem heights_node {b : Nat} (k : Kind) (cs : List Tree) (h : ∀ c ∈ cs, heights.holds b c) : heights.holds (b + 1) (.node k cs) :=
  Nat.succ_le_succ (Tree.heightOf_le h)

/-- Folding operators onto a row raises it by as many levels as are left, whatever the row holds. -/
def Folds (n : Nat) : Prop :=
  ∀ m k r h b, h + r ≤ b → tallest r ≤ b → Raises heights n r h b (rule (.binaryRest m k))

section Operators

variable {n r : Nat} (he : Bounded heights n)

include he

theorem height_unaryBody : Fills heights n r (tallestOperand r) unaryBody := by
  have hone : 1 ≤ tallestOperand r := by cases r <;> simp only [tallestOperand] <;> omega
  refine .bind (fills_newlines he) fun _ => .bind (fills_peekIs _) fun _ => .ite (.nested hone ?_) (presents_term he).fills
  rintro i rfl
  have hle := tallestOperand_add_le i
  refine (Fills.node_of (heights_node .unaryOp) (.bind (.flat rfl) fun _ => .bind (fills_newlines he) fun _ =>
    .bind (he.rule .unary i rfl) fun _ => .done _)).le ?_
  show tallestOperand i + 1 ≤ tallest i + 4
  omega

theorem height_binaryBody (hf : Folds n) (m : Nat) : Fills heights n r (tallest r) (binaryBody m) :=
  .marked <| .bind ((he.rule .unary r rfl).raises (Nat.zero_le _) (Nat.le_refl _)) fun lhs =>
    hf m lhs r (tallestOperand r) (tallest r) (tallestOperand_add_le r) (Nat.le_refl _)

/-- One fold uses up a level and raises the row by one, or to one above its right operand. -/
theorem height_binaryRestBody (hf : Folds n) (m : Nat) (k : Kind) {h b : Nat} (hb : h + r ≤ b) (ht : tallest r ≤ b) :
    Raises heights n r h b (binaryRestBody m k) := by
  have htwo := two_le_tallest r
  refine .bind ((Fills.flat (b := 0) rfl).raises (Nat.le_refl h) (Nat.zero_le h)) fun k' => ?_
  split
  · exact .done (by omega) _
  · rename_i op _
    refine .ite (.done (by omega) _) (.nested (by omega) (by omega) ?_)
    rintro i rfl
    simp only [tallest] at ht
    refine .bind (.wrapped_of (b := max h (tallest i)) (heights_node .binaryOp) ?_) fun _ =>
      hf m .binaryOp i _ b (by omega) (by omega)
    have hright : Fills heights n i (tallest i) (do advance; newlines; let _ ← rule (.binary (op.precedence + 1))) :=
      .bind (.flat rfl) fun _ => .bind (fills_newlines he) fun _ => .bind (he.rule (.binary (op.precedence + 1)) i rfl) fun _ => .done _
    exact hright h

end Operators

/-- The heights that rules reach, by induction on the bound on nested rules. -/
theorem heights_runRule (n : Nat) : Bounded heights n ∧ Folds n := by
  induction n with
  | zero =>
    have hfolds : Folds 0 := fun _ _ _ _ _ _ _ s _ _ => .zero _ s
    exact ⟨⟨fun ρ _ _ _ s _ _ => .zero ρ s, fun _ _ _ _ _ s _ _ _ _ => .zero _ s⟩, hfolds⟩
  | succ n ih =>
    obtain ⟨he, hf⟩ := ih
    have hf' : Folds (n + 1) := fun m k r h b hb ht => height_binaryRestBody he hf m k hb ht
    refine ⟨⟨fun ρ r hρ => ?_, fun m k r h b s hb ht hroom hrow => hf' m k r h b hb ht s hroom fun c hc => (hrow c hc).1⟩, hf'⟩
    cases hop : ρ.isOperator with
    | false => exact fills_grammar he ρ hop
    | true =>
      cases ρ with
      | unary => exact height_unaryBody he
      | binary m => exact height_binaryBody he hf m
      | binaryRest m k => cases hρ
      | _ => cases hop

/-- The bound grows with the square of the levels. -/
theorem two_mul_tallest (r : Nat) : 2 * tallest r = r * r + 11 * r + 4 := by
  induction r with
  | zero => rfl
  | succ r ih =>
    have hsquare : (r + 1) * (r + 1) = r * r + 2 * r + 1 := by rw [Nat.add_mul, Nat.mul_add]; omega
    rw [tallest, hsquare]
    omega

end Parser

/-- However a source is parsed, the depth of every leaf of its tree is bounded by the square of the limit on nesting. -/
theorem parse_depths_le (o : Options) (source : Text) (p : Parsed) (h : parse o source = .ok p) (d : Nat) (hd : d ∈ p.tree.depths) :
    2 * d ≤ o.limit * o.limit + 11 * o.limit + 6 := by
  have hheight : p.tree.height ≤ Parser.tallest o.limit + 1 :=
    Parser.holds_of_parse (G := Parser.heights) (fun n => (Parser.heights_runRule n).1) h
  have hdepth : d ≤ p.tree.height := Tree.le_height_of_mem_depths p.tree hd
  have htallest := Parser.two_mul_tallest o.limit
  omega

/-- A number in so many groups, with one operator after the innermost group and one more after each group around it. -/
def tower : Nat → Text
  | 0 => ['1']
  | n + 1 => '(' :: tower n ++ ')' :: (List.replicate (n + 1) ['+', '1']).flatten

/-- Two groups fill four levels of nesting. -/
theorem parse_depths_le_tower :
    ∃ p d, parse { limit := 4 } (tower 2) = .ok p ∧ p.diagnostics = [] ∧ d ∈ p.tree.depths ∧ 6 < d ∧ 2 * d ≤ 4 * 4 + 11 * 4 + 6 := by
  have hok : (parse { limit := 4 } (tower 2)).toOption.any (fun p => p.diagnostics.isEmpty && p.tree.depths.any (6 < ·)) = true := by
    decide +kernel
  cases hp : parse { limit := 4 } (tower 2) with
  | error f =>
    rw [hp] at hok
    cases hok
  | ok p =>
    rw [hp] at hok
    simp only [Except.toOption, Option.any_some, Bool.and_eq_true, List.isEmpty_iff, List.any_eq_true, decide_eq_true_eq] at hok
    obtain ⟨hclean, d, hd, hdeep⟩ := hok
    exact ⟨p, d, rfl, hclean, hd, hdeep, parse_depths_le { limit := 4 } (tower 2) p hp d hd⟩

/-- Sixteen groups fit under a limit of eighteen, and their tree is more than eight times as deep as the limit allows levels. -/
theorem parse_tower_deep :
    ∃ p d, parse { limit := 18 } (tower 16) = .ok p ∧ p.diagnostics = [] ∧ d ∈ p.tree.depths ∧ 8 * (18 + 1) < d := by
  have hok : (parse { limit := 18 } (tower 16)).toOption.any
      (fun p => p.diagnostics.isEmpty && p.tree.depths.any (8 * (18 + 1) < ·)) = true := by decide +kernel
  cases hp : parse { limit := 18 } (tower 16) with
  | error f =>
    rw [hp] at hok
    cases hok
  | ok p =>
    rw [hp] at hok
    simp only [Except.toOption, Option.any_some, Bool.and_eq_true, List.isEmpty_iff, List.any_eq_true, decide_eq_true_eq] at hok
    obtain ⟨hclean, d, hd, hdeep⟩ := hok
    exact ⟨p, d, rfl, hclean, hd, hdeep⟩

end Remap
