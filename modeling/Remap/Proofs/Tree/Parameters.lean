import Remap.Expr
import Remap.Parser.Action
import Remap.Proofs.Parser.Forest

/-!
# Parameters of closures

All trees within a tree, from left to right with what is around them first; the parameters of a closure; and those among them that
repeat an earlier name. The parser collects the names that it has seen as they come up (`repeatedParameters`). A parameter repeats a
name exactly if an earlier one has it, and the first of these is the one that it is compared with.
-/

namespace Remap

mutual
/-- Every tree within a tree that begins at an offset. -/
def Tree.descendants : Nat → Tree → List Node
  | offset, .leaf k t => [⟨offset, .leaf k t⟩]
  | offset, .node k cs => ⟨offset, .node k cs⟩ :: Tree.descendantsOf offset cs
/-- Every tree within a row of trees that begins at an offset. -/
def Tree.descendantsOf : Nat → List Tree → List Node
  | _, [] => []
  | offset, t :: ts => Tree.descendants offset t ++ Tree.descendantsOf (offset + t.bytes) ts
end

theorem Tree.descendantsOf_append (offset : Nat) (ts us : List Tree) :
    descendantsOf offset (ts ++ us) = descendantsOf offset ts ++ descendantsOf (offset + bytesOf ts) us := by
  induction ts generalizing offset with
  | nil => rfl
  | cons t ts ih => simp only [List.cons_append, descendantsOf, bytesOf, ih, Nat.add_assoc, List.append_assoc]

namespace Node

/-- The tree and every tree within it. -/
def descendants (n : Node) : List Node := n.tree.descendants n.start

/-- Whether the tree is a closure. -/
def isClosure (n : Node) : Bool := !n.isLeaf && n.kind = .closure

/-- The names in a parameter list, `_` among them. -/
def names (n : Node) : List Node := n.leaves.filter fun l => l.kind = .id || l.kind = .underscore

/-- The parameters of a closure, `_` among them. -/
def parameters (n : Node) : List Node :=
  match n.node? .closureParams with
  | some list => list.names
  | none => []

/-- The parameters that the view of a call has are the names of these. -/
theorem parameters_closure? {n : Node} {c : Closure} (h : n.closure? = some c) : c.parameters = c.node.parameters.map (·.text) := by
  unfold closure? at h
  obtain ⟨m, -, rfl⟩ := Option.map_eq_some_iff.mp h
  simp only [parameters]
  cases m.node? .closureParams <;> rfl

end Node

/-- A parameter with its place in a row, unless it is `_` or the first of its name; and the first of its name. -/
def repetition? (ps : List Node) (x : Node × Nat) : Option (Node × Node) :=
  if x.1.text = ['_'] then none else ((ps.take x.2).find? (·.text = x.1.text)).map (x.1, ·)

/-- Each parameter of a row that is not `_` and has the name of an earlier one, with the first of that name. -/
def repetitions (ps : List Node) : List (Node × Node) := ps.zipIdx.filterMap (repetition? ps)

theorem repetition?_at (before after : List Node) {q : Node} (hq : q.text ≠ ['_']) :
    repetition? (before ++ q :: after) (q, before.length) = (before.find? (·.text = q.text)).map (q, ·) := by
  simp only [repetition?, if_neg hq, List.take_left]

/-- What is reported about a parameter that repeats the name of an earlier one. -/
def Diagnostic.repeats (q first : Node) : Diagnostic :=
  { problem := .duplicateClosureParam, span := q.span, detail := some (.quote q.text), related := [⟨first.span, .firstDefined⟩] }

/-- What is to be reported about the parameters of a closure. -/
def Node.complaints (n : Node) : List Diagnostic :=
  if n.isClosure then (repetitions n.parameters).map fun (q, first) => .repeats q first else []

/-! ## How the parser finds them -/

open Parser (parametersOf repeatedParameters)

/-- The names that the parser collects are those in the list that are not `_`. -/
theorem parametersOf_eq (offset : Nat) (cs : List Tree) :
    parametersOf offset cs = ((Node.names ⟨offset, .node .closureParams cs⟩).filter (·.kind = .id)).map fun n => (n.text, n.span) := by
  simp only [Node.names, Node.leaves, Node.elements, Tree.children]
  induction cs generalizing offset with
  | nil => rfl
  | cons c cs ih =>
    cases c with
    | leaf k t =>
      by_cases hk : k = .id
      · simp [parametersOf, Node.placeAll, Node.isLeaf, Node.kind, Tree.kind, hk, ih, Node.text, Tree.text, Node.span, Tree.bytes]
      · by_cases hk' : k = .underscore <;> simp [parametersOf, Node.placeAll, Node.isLeaf, Node.kind, Tree.kind, hk, hk', ih, Tree.bytes]
    | node k ds => simp [parametersOf, Node.placeAll, Node.isLeaf, ih]

/-- What the parser finds in a row of parameters, when it comes to those behind some others. Of these it knows the first of every
name. -/
theorem repeatedParameters_eq (before : List Node) {after : List Node} {seen : List (Text × Span)}
    (hnames : ∀ q ∈ after, q.kind = .id ↔ q.text ≠ ['_'])
    (hseen : ∀ name, name ≠ ['_'] → seen.lookup name = (before.find? (·.text = name)).map (·.span)) :
    (repeatedParameters seen ((after.filter (·.kind = .id)).map fun n => (n.text, n.span))) =
      ((after.zipIdx before.length).filterMap (repetition? (before ++ after))).map fun (q, first) => (q.text, q.span, first.span) := by
  induction after generalizing before seen with
  | nil => rfl
  | cons q after ih =>
    have hrest {seen' : List (Text × Span)}
        (hseen' : ∀ name, name ≠ ['_'] → seen'.lookup name = ((before ++ [q]).find? (·.text = name)).map (·.span)) :=
      ih (before ++ [q]) (fun r hr => hnames r (List.mem_cons_of_mem _ hr)) hseen'
    simp only [List.length_append, List.length_singleton, List.append_assoc, List.singleton_append] at hrest
    have hfind (name : Text) : (before ++ [q]).find? (·.text = name) =
        (before.find? (·.text = name)).or (if q.text = name then some q else none) := by
      rw [List.find?_append]
      by_cases hq : q.text = name <;> simp [hq]
    rw [List.zipIdx_cons]
    by_cases hq : q.text = ['_']
    · have hk : q.kind ≠ .id := fun hk => (hnames q List.mem_cons_self).mp hk hq
      rw [List.filter_cons_of_neg (by simpa using hk), List.filterMap_cons_none (by simp [repetition?, hq])]
      refine hrest fun name hname => ?_
      rw [hseen name hname, hfind, if_neg (hq ▸ Ne.symm hname), Option.or_none]
    · have hk : q.kind = .id := (hnames q List.mem_cons_self).mpr hq
      have hfound := repetition?_at before after hq
      rw [List.filter_cons_of_pos (by simpa using hk), List.map_cons, repeatedParameters, hseen _ hq]
      cases hfirst : before.find? (·.text = q.text) with
      | some first =>
        rw [List.filterMap_cons_some (hfound.trans (by rw [hfirst]; rfl)), List.map_cons]
        refine congrArg _ (hrest fun name hname => ?_)
        rw [hseen name hname, hfind]
        by_cases hsame : q.text = name
        · rw [← hsame, hfirst, Option.some_or]
        · rw [if_neg hsame, Option.or_none]
      | none =>
        rw [List.filterMap_cons_none (hfound.trans (by rw [hfirst]; rfl))]
        refine hrest fun name hname => ?_
        rw [List.lookup_append, hseen name hname, hfind]
        by_cases hsame : q.text = name
        · rw [← hsame, hfirst, if_pos rfl]
          simp
        · have hother : (name == q.text) = false := beq_eq_false_iff_ne.mpr (Ne.symm hsame)
          rw [if_neg hsame, Option.or_none, List.lookup_cons, hother]
          cases before.find? (·.text = name) <;> rfl

/-- A leaf that is a name is not `_`, and the kind of `_` is for that alone. -/
def Tree.WellNamed : Tree → Prop
  | .leaf .id t => t ≠ ['_']
  | .leaf .underscore t => t = ['_']
  | _ => True

/-- What the parser finds in a parameter list. -/
theorem repeatedParameters_list {offset : Nat} {cs : List Tree} (h : ∀ c ∈ cs, c.WellNamed) :
    repeatedParameters [] (parametersOf offset cs) =
      (repetitions (Node.names ⟨offset, .node .closureParams cs⟩)).map fun (q, first) => (q.text, q.span, first.span) := by
  rw [parametersOf_eq]
  refine repeatedParameters_eq [] (fun q hq => ?_) fun _ _ => rfl
  obtain ⟨hleaf, hkind⟩ := List.mem_filter.mp hq
  obtain ⟨helement, hleaf⟩ := List.mem_filter.mp hleaf
  have hmem : q.tree ∈ cs := Node.tree_mem_children helement
  obtain ⟨start, tree⟩ := q
  cases tree with
  | node k ds => cases hleaf
  | leaf k t =>
    have hkinds : k = .id ∨ k = .underscore := ((Bool.or_eq_true _ _).mp hkind).imp of_decide_eq_true of_decide_eq_true
    rcases hkinds with rfl | rfl
    · exact iff_of_true rfl (h _ hmem)
    · exact iff_of_false nofun fun hne => hne (h _ hmem)

/-- What the parser reports about a parameter list that begins at an offset. -/
def Parser.listProblems (offset : Nat) (cs : List Tree) : List Diagnostic :=
  (repeatedParameters [] (parametersOf offset cs)).map fun (name, span, first) =>
    { problem := .duplicateClosureParam, span, detail := some (.quote name), related := [⟨first, .firstDefined⟩] }

/-- What is to be reported about a closure is what the parser finds in its parameter list. -/
theorem complaints_closure {start : Nat} {lead cs rest : List Tree} (hlead : ∀ c ∈ lead, ∃ k t, c = .leaf k t) (h : ∀ c ∈ cs, c.WellNamed) :
    Node.complaints ⟨start, .node .closure (lead ++ .node .closureParams cs :: rest)⟩ =
      Parser.listProblems (start + Tree.bytesOf lead) cs := by
  have hlist : Node.node? ⟨start, .node .closure (lead ++ .node .closureParams cs :: rest)⟩ .closureParams =
      some ⟨start + Tree.bytesOf lead, .node .closureParams cs⟩ := by
    have hskip : ∀ m ∈ Node.placeAll start lead, ¬ (!m.isLeaf) = true := by
      intro m hm
      obtain ⟨k, t, hleaf⟩ := hlead m.tree (by rw [← Node.map_tree_placeAll start lead]; exact List.mem_map_of_mem hm)
      simp [Node.isLeaf, hleaf]
    rw [Node.node?, Node.nodes, Node.elements, Tree.children, Node.placeAll_append, List.filter_append,
      List.filter_eq_nil_iff.mpr hskip]
    rfl
  have hclosure : Node.isClosure ⟨start, .node .closure (lead ++ .node .closureParams cs :: rest)⟩ = true := rfl
  rw [Node.complaints, if_pos hclosure, Node.parameters, hlist, Parser.listProblems, repeatedParameters_list h, List.map_map]
  rfl

end Remap
