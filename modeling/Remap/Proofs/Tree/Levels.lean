import Remap.Proofs.Tree.Dump

/-!
# Dumps cut nothing off

A dump goes down a number of layers. Every expression inside another one is of lesser height, so from as many layers on as the
expression is high its dump does not depend on their number.
-/

namespace Remap

namespace Node

variable {n m : Node}

/-- How many nodes there are on a way down from a placed tree. -/
def height (n : Node) : Nat := n.tree.height

theorem height_of_mem_elements (h : m ∈ n.elements) : m.height < n.height := by
  have hmem : m.tree ∈ n.tree.children := by
    rw [← map_tree_placeAll n.start n.tree.children]
    exact List.mem_map_of_mem h
  unfold height
  cases hn : n.tree with
  | leaf k t =>
    rw [hn] at hmem
    cases hmem
  | node k cs =>
    rw [hn] at hmem
    rw [Tree.height]
    exact Nat.lt_succ_of_le (Tree.height_le_heightOf hmem)

theorem height_of_mem_nodes (h : m ∈ n.nodes) : m.height < n.height := height_of_mem_elements (List.mem_filter.mp h).1

theorem height_of_mem_exprs (h : m ∈ n.exprs) : m.height < n.height := height_of_mem_nodes (List.mem_filter.mp h).1

theorem height_of_node? {k : Kind} (h : m ∈ n.node? k) : m.height < n.height := height_of_mem_nodes (List.mem_of_find?_eq_some h)

theorem height_of_exprAfter? {k : Kind} (h : m ∈ n.exprAfter? k) : m.height < n.height :=
  height_of_mem_elements ((List.dropWhile_sublist _).subset (List.mem_of_find?_eq_some h))

end Node

namespace Dump

open Node

variable {go go' : Nat → Node → List Text} {spans : Bool} {depth : Nat}

theorem elim_congr {β : Type} {o : Option Node} {c : β} {f g : Node → β} (h : ∀ m ∈ o, f m = g m) : o.elim c f = o.elim c g := by
  cases o with
  | none => rfl
  | some m => exact h m rfl

theorem flatMap_congr {α β : Type} {xs : List α} {f g : α → List β} (h : ∀ x ∈ xs, f x = g x) : xs.flatMap f = xs.flatMap g := by
  rw [List.flatMap_def, List.flatMap_def, List.map_congr_left h]

section Layer

variable {n : Node} (h : ∀ d (m : Node), m.height < n.height → go d m = go' d m)

include h

theorem statements_levels (depth : Nat) {m : Node} (hm : m.height ≤ n.height) :
    statements go spans depth m = statements go' spans depth m := by
  refine flatMap_congr fun c hc => ?_
  rw [h depth c (Nat.lt_of_lt_of_le (height_of_mem_nodes hc) hm)]

theorem clause_levels (depth : Nat) {m : Node} (hm : m.height < n.height) : clause go spans depth m = clause go' spans depth m := by
  unfold clause
  rw [statements_levels h (depth + 1) (Nat.le_of_lt hm)]

theorem target_levels (depth : Nat) {m : Node} (hm : m.height < n.height) : target go spans depth m = target go' spans depth m := by
  unfold target
  rw [h depth m hm]

theorem assignee_levels (depth : Nat) : assignee go spans depth n.assignee? = assignee go' spans depth n.assignee? := by
  unfold assignee?
  split
  · rfl
  · rename_i first hfirst
    have hheight := height_of_mem_nodes (List.mem_of_mem_head? hfirst)
    split
    · split
      · rename_i ok err rest hpair
        have hmem {m : Node} (hm : m ∈ ok :: err :: rest) : m.height < n.height := by
          rw [← hpair] at hm
          exact Nat.lt_trans (height_of_mem_nodes (List.mem_filter.mp hm).1) hheight
        rw [assignee, assignee, target_levels h (depth + 1) (hmem List.mem_cons_self),
          target_levels h (depth + 1) (hmem (List.mem_cons_of_mem _ List.mem_cons_self))]
      · rfl
    · split
      · exact target_levels h depth hheight
      · rfl

theorem arguments_levels (depth : Nat) : n.arguments.flatMap (argument go spans depth) = n.arguments.flatMap (argument go' spans depth) := by
  rw [arguments_eq]
  cases hlist : n.node? .argumentList with
  | none => rfl
  | some list =>
    refine flatMap_congr fun a ha => ?_
    obtain ⟨e, he, harg⟩ := List.mem_filterMap.mp ha
    have hheight : e.height < n.height := Nat.lt_trans (height_of_mem_nodes he) (height_of_node? hlist)
    simp only [argumentOf?] at harg
    split at harg
    · cases harg
      exact congrArg (_ :: ·) (elim_congr fun m hm => h (depth + 1) m (Nat.lt_trans (height_of_exprAfter? hm) hheight))
    · split at harg <;> cases harg
      exact h depth e hheight

theorem closure_levels (depth : Nat) : n.closure?.elim [] (closure go spans depth) = n.closure?.elim [] (closure go' spans depth) := by
  rw [closure?_eq]
  cases hclosure : n.node? .closure with
  | none => rfl
  | some c =>
    exact congrArg (_ :: ·) (elim_congr fun m hm => h (depth + 1) m (Nat.lt_trans (height_of_node? hm) (height_of_node? hclosure)))

theorem entries_levels (depth : Nat) : n.entries.flatMap (entry go spans depth) = n.entries.flatMap (entry go' spans depth) := by
  refine flatMap_congr fun e he => ?_
  obtain ⟨c, hc, rfl⟩ := List.mem_map.mp he
  have hheight := height_of_mem_nodes (List.mem_filter.mp hc).1
  exact congrArg (_ :: ·) (elim_congr fun m hm => h (depth + 1) m (Nat.lt_trans (height_of_exprAfter? hm) hheight))

/-- One layer shows only what is of lesser height. -/
theorem layer_levels (depth : Nat) : layer go spans depth n = layer go' spans depth n := by
  have hexpr {o : Option Node} (ho : ∀ m ∈ o, m.height < n.height) : o.elim [] (go (depth + 1)) = o.elim [] (go' (depth + 1)) :=
    elim_congr fun m hm => h (depth + 1) m (ho m hm)
  have hfirst : ∀ m ∈ n.exprs.head?, m.height < n.height := fun m hm => height_of_mem_exprs (List.mem_of_mem_head? hm)
  unfold layer expr?
  by_cases hleaf : n.isLeaf = true
  · rw [if_pos hleaf]
  rw [if_neg hleaf]
  cases hk : n.kind <;> try rfl
  case ifStatement =>
    exact congrArg (_ :: ·) (flatMap_congr fun c hc => clause_levels h (depth + 1) (height_of_mem_nodes hc))
  case abortStatement | returnStatement | unaryOp | group => exact congrArg (_ :: ·) (hexpr hfirst)
  case assignment =>
    have hvalue : ∀ m ∈ n.assignOperator?.bind fun o => n.exprAfter? o.kind, m.height < n.height := by
      intro m hm
      obtain ⟨o, -, ho⟩ := Option.bind_eq_some_iff.mp hm
      exact height_of_exprAfter? ho
    simp only [assignee_levels h (depth + 1), hexpr hvalue]
  case binaryOp =>
    have hlhs : ∀ m ∈ n.lhs?, m.height < n.height := fun m hm =>
      height_of_mem_nodes (List.mem_of_mem_head? (Option.eq_some_of_filter_eq_some hm))
    have hrhs : ∀ m ∈ n.rhs?, m.height < n.height := by
      intro m hm
      unfold rhs? at hm
      split at hm
      · exact height_of_exprAfter? hm
      · cases hm
    simp only [hexpr hlhs, hexpr hrhs]
  case query =>
    have hroot : ∀ e, n.queryRoot? = some (.value e) → e.height < n.height := by
      intro e he
      unfold queryRoot? at he
      split at he
      · cases he
      · rename_i first hfirst
        have hheight := height_of_mem_elements (List.mem_of_find?_eq_some hfirst)
        split at he
        · split at he <;> cases he
        · split at he <;> cases he
          exact hheight
    cases hquery : n.queryRoot? with
    | none => rfl
    | some root =>
      cases root with
      | value e => exact congrArg (_ ++ ·) (h (depth + 1) e (hroot e hquery))
      | event => rfl
      | metadata => rfl
  case functionCall => simp only [arguments_levels h (depth + 1), closure_levels h (depth + 1)]
  case array => exact congrArg (_ :: ·) (flatMap_congr fun c hc => h (depth + 1) c (height_of_mem_exprs hc))
  case object => exact congrArg (_ :: ·) (entries_levels h (depth + 1))
  case block => exact congrArg (_ :: ·) (statements_levels h (depth + 1) (Nat.le_refl _))

end Layer

/-- From as many layers on as an expression is high, its dump does not depend on their number. -/
theorem expr_levels {levels : Nat} {n : Node} (hlevels : n.height ≤ levels) (depth : Nat) :
    expr levels spans depth n = expr n.height spans depth n := by
  induction levels using Nat.strongRecOn generalizing n depth with
  | ind levels ih =>
    cases levels with
    | zero => rw [Nat.le_zero.mp hlevels]
    | succ levels =>
      cases hheight : n.height with
      | zero =>
        have hleaf : n.isExpr = false := by
          unfold height at hheight
          unfold isExpr isLeaf
          cases hn : n.tree with
          | leaf k t => rfl
          | node k cs =>
            rw [hn, Tree.height] at hheight
            cases hheight
        exact layer_of_not_isExpr hleaf
      | succ height =>
        have hle : height ≤ levels := by omega
        refine layer_levels (fun d m hm => ?_) depth
        have hm' : m.height ≤ height := by omega
        rw [ih levels (Nat.lt_succ_self _) (Nat.le_trans hm' hle), ih height (Nat.lt_succ_of_le hle) hm']

end Dump

end Remap
