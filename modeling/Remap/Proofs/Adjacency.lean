import Remap.Program
import Remap.Proofs.Parser.Paths

/-!
# What a path is made of touches

In the tree of every source that is parsed, with diagnostics or without, the segments of a path touch what is before them, and
so do the names in them; and no term is touched by a path segment that is not part of its path. A term that took in a newline
at its own end, such as a call whose closure lacks its block, may be followed by a dot: the newline keeps the two apart.
-/

namespace Remap

/-- Every node in the tree of a source is joined to what touches it, and to nothing else. -/
theorem parse_adjacent {o : Options} {source : Text} {p : Parsed} (h : parse o source = .ok p)
    {xs ys : List (Kind × Text)} {k : Kind} {cs : List Tree} (hn : p.tree.Amid xs (.node k cs) ys) :
    Tree.Adjacent xs k cs ys := by
  obtain ⟨t, hjoined, hbuilt⟩ := Parser.Returns.of_parse h fun n => Parser.joined_program _ o.limit o.fuel n
  cases (hjoined p.tree hbuilt).amid hn with
  | node hadjacent _ => exact hadjacent

/-- A quoted name after a dot, and a path on the next line. -/
theorem parse_adjacent_quoted :
    ∃ p xs cs ys, parse {} "a.\"b\"\n.c".toList = .ok p ∧ p.tree.Amid xs (.node .fieldSegment cs) ys ∧
      cs.any Tree.isName = true ∧ Tree.Adjacent xs .fieldSegment cs ys := by
  have hshape : (parse {} "a.\"b\"\n.c".toList).toOption.any (fun p =>
      p.tree.children.head?.any fun query => query.children.getLast?.any fun path => path.children.head?.any fun segment =>
        segment.kind = .fieldSegment && segment.children.any Tree.isName) = true := by decide +kernel
  cases hp : parse {} "a.\"b\"\n.c".toList with
  | error f => rw [hp] at hshape; cases hshape
  | ok p =>
    rw [hp] at hshape
    simp only [Except.toOption, Option.any_some] at hshape
    obtain ⟨query, hquery, hshape⟩ := (Option.any_eq_true _ _).mp hshape
    obtain ⟨path, hpath, hshape⟩ := (Option.any_eq_true _ _).mp hshape
    obtain ⟨segment, hsegment, hshape⟩ := (Option.any_eq_true _ _).mp hshape
    obtain ⟨_, hquery⟩ := List.head?_eq_some_iff.mp hquery
    obtain ⟨_, hpath⟩ := List.getLast?_eq_some_iff.mp hpath
    obtain ⟨_, hsegment⟩ := List.head?_eq_some_iff.mp hsegment
    have hroot : p.tree.Amid [] p.tree [] := .root
    have hamid := ((hroot.of_children (hquery.trans (List.nil_append _).symm)).of_children hpath).of_children
      (hsegment.trans (List.nil_append _).symm)
    cases segment with
    | leaf k text => simp [Tree.children] at hshape
    | node k cs =>
      obtain ⟨hkind, hname⟩ := Bool.and_eq_true_iff.mp hshape
      obtain rfl : k = .fieldSegment := of_decide_eq_true hkind
      exact ⟨p, _, cs, _, rfl, hamid, hname, parse_adjacent hp hamid⟩

/-- A term may be followed by a dot at once, after the newline that it took in itself: a call whose closure lacks its block. -/
theorem call_before_dot :
    ¬ ∀ (source : Text) (p : Parsed), parse {} source = .ok p → (∀ t ∈ (scan source false).tokens, t.kind ≠ .garbage) →
      ∀ xs k ls c rs ys, p.tree.Amid xs (.node k (ls ++ c :: rs)) ys → c.canContinue = true →
        ¬ (k = .query ∧ ∀ l ∈ ls, l.isLeaf = true) → beginsWith Kind.startsSegment (Tree.leavesOf rs ++ ys) = false := by
  intro hall
  have hclean : ∀ t ∈ (scan "f() -> |x|\n.b".toList false).tokens, t.kind ≠ .garbage := by decide +kernel
  have hshape : (parse {} "f() -> |x|\n.b".toList).toOption.any (fun p =>
      p.tree.kind = .program && p.tree.children.head?.any Tree.canContinue &&
        beginsWith Kind.startsSegment (Tree.leavesOf p.tree.children.tail)) = true := by decide +kernel
  cases hp : parse {} "f() -> |x|\n.b".toList with
  | error f => rw [hp] at hshape; cases hshape
  | ok p =>
    rw [hp] at hshape
    simp only [Except.toOption, Option.any_some, Bool.and_eq_true, decide_eq_true_eq] at hshape
    obtain ⟨⟨hkind, hfirst⟩, hdot⟩ := hshape
    obtain ⟨call, hcall, hcontinue⟩ := (Option.any_eq_true _ _).mp hfirst
    obtain ⟨rest, hchildren⟩ := List.head?_eq_some_iff.mp hcall
    have hroot : p.tree.Amid [] (.node .program ([] ++ call :: rest)) [] := by
      have htree : p.tree = .node .program (call :: rest) := by
        cases htree : p.tree with
        | leaf k text => simp [htree, Tree.children] at hchildren
        | node k cs =>
          rw [htree] at hkind hchildren
          rw [show k = .program from hkind, show cs = call :: rest from hchildren]
      rw [List.nil_append, ← htree]
      exact .root
    have hfalse := hall _ p hp hclean _ _ _ _ _ _ hroot hcontinue fun hquery => by cases hquery.1
    rw [hchildren, List.tail_cons] at hdot
    rw [List.append_nil, hdot] at hfalse
    cases hfalse

end Remap
