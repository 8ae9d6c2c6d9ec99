import Remap.Program
import Remap.Proofs.Tree.Bare

/-!
# Dumps of bare trees

Without spans, a dump of the typed view shows the same for all trees with one bare form.
-/

namespace Remap

/-- The kinds of expressions. -/
theorem Kind.isExpr_cases {k : Kind} (h : k.isExpr = true) :
    k = .ifStatement ∨ k = .abortStatement ∨ k = .returnStatement ∨ k = .assignment ∨ k = .binaryOp ∨ k = .unaryOp ∨ k = .query ∨
      k = .functionCall ∨ k = .array ∨ k = .object ∨ k = .block ∨ k = .group ∨ k = .ident ∨ k = .stringLit ∨ k = .rawStringLit ∨
      k = .integerLit ∨ k = .floatLit ∨ k = .booleanLit ∨ k = .nullLit ∨ k = .regexLit ∨ k = .timestampLit := by
  unfold isExpr at h
  split at h <;> simp at h ⊢

namespace Dump

open Node

/-- Without spans the line of a node does not depend on where the node stands. -/
theorem nodeLine_false (depth : Nat) (t : Text) (n : Node) : nodeLine false depth t n = line depth t := by
  rw [nodeLine, spanIf, if_neg Bool.false_ne_true, List.append_nil]

theorem head_congr_append {depth : Nat} {t u : Text} {n m : Node} {xs ys xs' ys' : List Text} (ht : t = u) (h : xs = ys)
    (h' : xs' = ys') : [nodeLine false depth t n] ++ xs ++ xs' = [nodeLine false depth u m] ++ ys ++ ys' := by
  rw [nodeLine_false, nodeLine_false, ht, h, h']

theorem head_congr {depth : Nat} {t u : Text} {n m : Node} {xs ys : List Text} (ht : t = u) (h : xs = ys) :
    [nodeLine false depth t n] ++ xs = [nodeLine false depth u m] ++ ys := by
  rw [nodeLine_false, nodeLine_false, ht, h]

/-- The argument that a child of an argument list is. -/
def argumentOf? (a : Node) : Option Argument :=
  if a.kind = .namedArgument then
    some (.named a ((a.leaf? fun k => k = .id || k.isKeyword).map (·.text)) (a.exprAfter? .colon))
  else if a.isExpr then some (.positional a)
  else none

/-- The names of the parameters of a closure. -/
def parametersOf (c : Node) : List Text :=
  (c.node? .closureParams).elim [] fun ps => (ps.leaves.filter fun l => l.kind = .id || l.kind = .underscore).map (·.text)

/-- The closure that a node is. -/
def closureOf (c : Node) : Closure := { node := c, parameters := parametersOf c, body := c.node? .block }

variable {go : Nat → Node → List Text} (hgo : ∀ depth, Respects (go depth))

include hgo

theorem respects_statements (depth : Nat) : Respects (statements go false depth) := by
  refine respects_flatMap_nodes fun a b h => ?_
  simp only [nodeLine_false]
  rw [respects_kind a b h, respects_isExpr a b h, hgo depth a b h]

theorem respects_clause (depth : Nat) : Respects (clause go false depth) := by
  intro a b h
  simp only [clause, nodeLine_false]
  rw [respects_kind a b h, respects_statements hgo (depth + 1) a b h]

theorem respects_target (depth : Nat) : Respects (target go false depth) := by
  intro a b h
  simp only [target, nodeLine_false]
  rw [respects_kind a b h, hgo depth a b h]

theorem assignee_congr (depth : Nat) {n m : Node} (h : n.core = m.core) :
    assignee go false depth n.assignee? = assignee go false depth m.assignee? := by
  rcases assignee?_cases h with ⟨hn, hm⟩ | ⟨a, b, hn, hm, hab⟩ | ⟨a, a', b, b', hn, hm, hab, hab'⟩
  · rw [hn, hm]
  · rw [hn, hm, assignee, assignee, respects_target hgo depth a b hab]
  · rw [hn, hm, assignee, assignee, respects_target hgo (depth + 1) a b hab, respects_target hgo (depth + 1) a' b' hab']

omit hgo in
/-- The arguments of a call are those its argument list holds. -/
theorem arguments_eq (n : Node) : n.arguments = (n.node? .argumentList).elim [] fun list => list.nodes.filterMap argumentOf? := by
  unfold arguments
  cases n.node? .argumentList <;> rfl

theorem respects_argumentOf? (depth : Nat) : Respects fun a => (argumentOf? a).map (argument go false depth) := by
  intro a b h
  have hname : (a.leaf? fun k => k = .id || k.isKeyword).map (·.text) = (b.leaf? fun k => k = .id || k.isKeyword).map (·.text) := by
    refine respects_text_leaf? (fun k hk => ?_) a b h
    rcases Kind.blank_cases (.inl hk) with rfl | rfl | rfl | rfl <;> rfl
  have hvalue : (a.exprAfter? .colon).elim [] (go (depth + 1)) = (b.exprAfter? .colon).elim [] (go (depth + 1)) :=
    respects_elim_exprAfter? rfl (hgo (depth + 1)) a b h
  dsimp only [argumentOf?]
  rw [respects_kind a b h, respects_isExpr a b h, hname]
  split
  · exact congrArg some (head_congr (n := a) (m := b) rfl hvalue)
  · split
    · exact congrArg some (hgo depth a b h)
    · rfl

theorem respects_arguments (depth : Nat) : Respects fun n => n.arguments.flatMap (argument go false depth) := by
  have hlist : Respects fun list : Node => (list.nodes.filterMap argumentOf?).flatMap (argument go false depth) := by
    intro n m h
    dsimp only
    rw [List.flatMap_def, List.flatMap_def, List.map_filterMap, List.map_filterMap]
    exact congrArg List.flatten ((respects_argumentOf? hgo depth).filterMap (by rw [map_core_nodes, map_core_nodes, h]))
  have hargs (n : Node) : n.arguments.flatMap (argument go false depth) =
      (n.node? .argumentList).elim [] fun list => (list.nodes.filterMap argumentOf?).flatMap (argument go false depth) := by
    rw [arguments_eq]
    cases n.node? .argumentList <;> rfl
  intro n m h
  dsimp only
  rw [hargs, hargs]
  exact respects_elim_node? .argumentList hlist n m h

omit hgo in
theorem closure?_eq (n : Node) : n.closure? = (n.node? .closure).map closureOf := by
  unfold closure?
  congr 1
  funext c
  unfold closureOf parametersOf
  cases c.node? .closureParams <;> rfl

theorem respects_closureOf (depth : Nat) : Respects fun c => closure go false depth (closureOf c) := by
  have hparameters : Respects fun ps : Node => (ps.leaves.filter fun l => l.kind = .id || l.kind = .underscore).map (·.text) := by
    refine respects_texts (p := fun k => k = .id || k = .underscore) fun k hk => ?_
    rcases Kind.blank_cases (.inl hk) with rfl | rfl | rfl | rfl <;> rfl
  intro a b h
  have hnames : parametersOf a = parametersOf b := respects_elim_node? .closureParams hparameters a b h
  have hbody : (a.node? .block).elim [] (go (depth + 1)) = (b.node? .block).elim [] (go (depth + 1)) :=
    respects_elim_node? .block (hgo (depth + 1)) a b h
  refine head_congr (n := a) (m := b) ?_ hbody
  rw [closureOf, closureOf, hnames]

/-- The closure of a call. -/
theorem respects_closure (depth : Nat) : Respects fun n => n.closure?.elim [] (closure go false depth) := by
  intro n m h
  have hclosure := respects_elim_node? .closure (c := []) (respects_closureOf hgo depth) n m h
  dsimp only
  rw [closure?_eq, closure?_eq, Option.elim_map, Option.elim_map]
  exact hclosure

theorem respects_entries (depth : Nat) : Respects fun n => n.entries.flatMap (entry go false depth) := by
  intro n m h
  have hone : Respects fun e : Node =>
      entry go false depth { node := e, key := (e.node? .stringLit).map (·.stringText), value := e.exprAfter? .colon } := by
    intro a b h
    have hkey : (a.node? .stringLit).map stringText = (b.node? .stringLit).map stringText :=
      respects_map_node? .stringLit respects_stringText a b h
    have hvalue : (a.exprAfter? .colon).elim [] (go (depth + 1)) = (b.exprAfter? .colon).elim [] (go (depth + 1)) :=
      respects_elim_exprAfter? rfl (hgo (depth + 1)) a b h
    dsimp only
    rw [hkey]
    exact head_congr (n := a) (m := b) rfl hvalue
  dsimp only
  rw [entries, entries, List.flatMap_map, List.flatMap_map]
  exact respects_flatMap_nodesOf .entry hone n m h

omit hgo in
theorem literal_congr {l l' : Literal} (depth : Nat) {n m : Node} (h : l = l') : literal false depth n l = literal false depth m l' := by
  unfold literal
  rw [h, nodeLine_false, nodeLine_false]

omit hgo in
theorem layer_of_not_isExpr {spans : Bool} {depth : Nat} {n : Node} (h : n.isExpr = false) : layer go spans depth n = [] := by
  have hnone : n.expr? = none := by
    unfold expr?
    split
    · rfl
    · rename_i hleaf
      have hkind : n.kind.isExpr = false := by simpa [isExpr, hleaf] using h
      unfold Kind.isExpr at hkind
      split at hkind
      case h_22 => split <;> first | rfl | contradiction
      all_goals cases hkind
  unfold layer
  rw [hnone]

/-- One layer of an expression is shown alike. -/
theorem respects_layer (depth : Nat) : Respects (layer go false depth) := by
  intro n m h
  cases hexpr : m.isExpr with
  | false => rw [layer_of_not_isExpr hexpr, layer_of_not_isExpr ((respects_isExpr n m h).trans hexpr)]
  | true =>
    have hleaf : m.isLeaf = false := isLeaf_of_isExpr hexpr
    have hkind : m.kind.isExpr = true := by
      rw [isExpr, hleaf] at hexpr
      exact hexpr
    unfold layer expr?
    rw [respects_isLeaf n m h, respects_kind n m h, hleaf]
    rcases Kind.isExpr_cases hkind with hk | hk | hk | hk | hk | hk | hk | hk | hk | hk | hk | hk | hk | hk | hk | hk | hk | hk | hk | hk | hk
    · rw [hk]
      exact head_congr rfl (respects_flatMap_nodes (respects_clause hgo (depth + 1)) n m h)
    · rw [hk]
      exact head_congr rfl (respects_elim_exprs (hgo (depth + 1)) n m h)
    · rw [hk]
      exact head_congr rfl (respects_elim_exprs (hgo (depth + 1)) n m h)
    · rw [hk]
      have hoperator := respects_assignOperator? n m h
      have hvalue : (m.assignOperator?.bind fun o => n.exprAfter? o.kind).elim [] (go (depth + 1)) =
          (m.assignOperator?.bind fun o => m.exprAfter? o.kind).elim [] (go (depth + 1)) := by
        cases m.assignOperator? with
        | none => rfl
        | some o =>
          refine respects_elim_exprAfter? (k := o.kind) ?_ (hgo (depth + 1)) n m h
          cases o <;> rfl
      rw [hoperator]
      refine head_congr_append rfl (assignee_congr hgo (depth + 1) h) hvalue
    · rw [hk]
      have hoperator : (n.binaryOperator?.map fun o => (o.1, o.2.kind)) = m.binaryOperator?.map fun o => (o.1, o.2.kind) :=
        respects_binaryOperator? n m h
      have hsymbol (n : Node) : ((n.binaryOperator?.map fun x => (x.1, x.2.span)).map fun x => x.1.symbol) =
          (n.binaryOperator?.map fun o => (o.1, o.2.kind)).map fun x => x.1.symbol := by
        cases n.binaryOperator? <;> rfl
      have hlhs : n.lhs?.elim [] (go (depth + 1)) = m.lhs?.elim [] (go (depth + 1)) := (hgo (depth + 1)).elim (respects_lhs? n m h)
      have hrhs : n.rhs?.elim [] (go (depth + 1)) = m.rhs?.elim [] (go (depth + 1)) := (hgo (depth + 1)).elim (respects_rhs? n m h)
      refine head_congr_append ?_ hlhs hrhs
      rw [hsymbol, hsymbol, hoperator]
    · rw [hk]
      exact head_congr rfl (respects_elim_exprs (hgo (depth + 1)) n m h)
    · rw [hk]
      have hsegments : (n.node? .path).elim [] segments = (m.node? .path).elim [] segments :=
        respects_elim_node? .path respects_segments n m h
      dsimp only
      rw [hsegments]
      rcases queryRoot?_cases h with ⟨hroot, hnone⟩ | ⟨a, b, hn, hm, hab⟩
      · rw [hroot]
        cases hm : m.queryRoot? with
        | none => exact head_congr rfl rfl
        | some root =>
          cases root with
          | value e => exact absurd hm (hnone e)
          | event => exact head_congr rfl rfl
          | metadata => exact head_congr rfl rfl
      · rw [hn, hm]
        exact head_congr rfl (hgo (depth + 1) a b hab)
    · rw [hk]
      have hname : n.leafText? .id = m.leafText? .id := respects_leafText? rfl n m h
      have hbang : (n.leaf? (· = .bang)).isSome = (m.leaf? (· = .bang)).isSome :=
        respects_isSome_leaf? (decide_eq_false_of_trivia rfl) n m h
      have harguments := respects_arguments hgo (depth + 1) n m h
      have hclosure := respects_closure hgo (depth + 1) n m h
      exact head_congr_append (by rw [hname, hbang]) harguments hclosure
    · rw [hk]
      exact head_congr rfl (respects_flatMap_exprs (hgo (depth + 1)) n m h)
    · rw [hk]
      exact head_congr rfl (respects_entries hgo (depth + 1) n m h)
    · rw [hk]
      exact head_congr rfl (respects_statements hgo (depth + 1) n m h)
    · rw [hk]
      exact head_congr rfl (respects_elim_exprs (hgo (depth + 1)) n m h)
    · rw [hk]
      have hname : n.leafText? .id = m.leafText? .id := respects_leafText? rfl n m h
      exact head_congr (by rw [hname]) (rfl : ([] : List Text) = [])
    · rw [hk]
      exact literal_congr depth (by rw [respects_stringParts n m h, respects_isTerminated n m h])
    · rw [hk]
      have htext : n.leafText? .rawString = m.leafText? .rawString := respects_leafText? rfl n m h
      exact literal_congr depth (by rw [htext])
    · rw [hk]
      exact literal_congr depth (by rw [respects_integer? n m h, respects_literalText n m h])
    · rw [hk]
      exact literal_congr depth (by rw [respects_literalText n m h])
    · rw [hk]
      have htrue : (n.leaf? (· = .kwTrue)).isSome = (m.leaf? (· = .kwTrue)).isSome :=
        respects_isSome_leaf? (decide_eq_false_of_trivia rfl) n m h
      exact literal_congr depth (by rw [htrue])
    · rw [hk]
      exact literal_congr depth rfl
    · rw [hk]
      have htext : n.leafText? .regex = m.leafText? .regex := respects_leafText? rfl n m h
      exact literal_congr depth (by rw [htext])
    · rw [hk]
      have htext : n.leafText? .timestamp = m.leafText? .timestamp := respects_leafText? rfl n m h
      exact literal_congr depth (by rw [htext])

omit hgo in
theorem respects_expr (levels depth : Nat) : Respects (expr levels false depth) := by
  induction levels generalizing depth with
  | zero => exact fun _ _ _ => rfl
  | succ levels ih => exact respects_layer ih depth

omit hgo in
/-- A dump without spans shows the bare form of a tree. -/
theorem program_congr {t u : Tree} (h : t.bare = u.bare) : program false t = program false u := by
  have hheight : t.height = u.height := by rw [← Tree.height_bare, h, Tree.height_bare]
  have hstatements := respects_statements (respects_expr t.height) 1 ⟨0, t⟩ ⟨0, u⟩ h
  dsimp only [program]
  rw [hstatements, hheight, nodeLine_false, nodeLine_false]

end Dump

namespace Parsed

/-- Trees with one bare form have one dump without spans. -/
theorem dump_congr {p q : Parsed} (h : p.tree.bare = q.tree.bare) : p.dump false = q.dump false := by
  rw [dump, dump, Dump.program_congr h]

end Parsed

end Remap
