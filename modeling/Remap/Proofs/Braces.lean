import Remap.Proofs.Lossless
import Remap.Proofs.Parser.Braces
import Remap.Proofs.Token.Braces

/-!
# Objects and blocks

Where a brace opens a term, its node is an object exactly if the brace is closed at once or a string and a colon follow, blanks apart.
What follows is read off the lexemes of the source: the look ahead pairs the quotes of strings, whatever templates and escapes are in
them, and it does not go beyond the line of a string that is left open.
-/

namespace Remap

open Tree (leavesOf)

theorem told_of_parse {o : Options} {source : Text} {p : Parsed} (h : parse o source = .ok p) :
    p.tree.kind = .program ∧ p.tree.Told [] := by
  obtain ⟨t, ht, hbuilt⟩ := Parser.Returns.of_parse h (Parser.told_program _ _ _)
  exact ht _ hbuilt

/-- The leaves of a tree, from the node on that is amid some of them. -/
theorem Tree.Amid.leaves {root t : Tree} {xs ys : List (Kind × Text)} (h : root.Amid xs t ys) : root.leaves = xs ++ t.leaves ++ ys := by
  induction h with
  | root => simp
  | child _ ih => simp [ih, Tree.leaves, Tree.leavesOf_append, leavesOf]

/-- The lexemes of a source spell out the leaves of its tree. -/
theorem pieces_of_parse {o : Options} {source : Text} {p : Parsed} (h : parse o source = .ok p) :
    (Lexeme.ofText source).flatMap Lexeme.pieces = p.tree.leaves := by
  rw [leaves_of_parse h]
  exact (Token.map_piece_place 0 none _).symm

/-- A source that is parsed, whatever the options. Its tree is a program. Each object in it, and each block that is not the branch of
an `if` statement or the body of a closure, begins with a brace that is a lexeme of the source; and it is an object exactly if, trivia
and newlines apart, the lexemes behind that brace begin with a closing brace, or with a string that is closed and then a colon. -/
theorem parse_braces {o : Options} {source : Text} {p : Parsed} (hp : parse o source = .ok p) :
    p.tree.kind = .program ∧
    ∀ {xs : List (Kind × Text)} {k : Kind} {ls : List Tree} {j : Kind} {cs rs : List Tree} {ys : List (Kind × Text)},
      p.tree.Amid xs (.node k (ls ++ .node j cs :: rs)) ys → (j = .object ∨ j = .block ∧ k ≠ .ifStatement ∧ k ≠ .closure) →
      ∃ before text after more, Lexeme.ofText source = before ++ ⟨.braceOpen, text⟩ :: after ∧ cs = .leaf .braceOpen text :: more ∧
        before.flatMap Lexeme.pieces = xs ++ leavesOf ls ∧ after.flatMap Lexeme.pieces = leavesOf more ++ (leavesOf rs ++ ys) ∧
        (j = .object ↔ Lexeme.BeginsObject after) := by
  obtain ⟨hprogram, htold⟩ := told_of_parse hp
  refine ⟨hprogram, fun {xs k ls j cs rs ys} hamid hj => ?_⟩
  have hbraced : Tree.Braced (.node j cs) (leavesOf rs ++ ys) := by
    cases htold.amid hamid with
    | node braced =>
      refine braced ls _ rs rfl ?_
      rcases hj with rfl | ⟨rfl, hif, hclosure⟩
      · rfl
      · have howns : k.ownsBlocks = false := by cases k <;> first | rfl | contradiction
        rw [howns]
        rfl
  obtain ⟨text, more, ts, rfl, hts, hobject⟩ := hbraced
  have hleaves := pieces_of_parse hp
  have hsplit : p.tree.leaves = (xs ++ leavesOf ls) ++ (.braceOpen, text) :: (leavesOf more ++ (leavesOf rs ++ ys)) := by
    rw [hamid.leaves]
    simp [Tree.leaves, Tree.leavesOf_append, leavesOf]
  rw [hsplit] at hleaves
  obtain ⟨before, after, hlexemes, hbefore, hafter⟩ := Lexeme.exists_brace hleaves
  refine ⟨before, text, after, more, hlexemes, rfl, hbefore, hafter, hobject.trans ?_⟩
  have hmem {l : Lexeme} (h : l ∈ after) : l ∈ Lexeme.ofText source := by
    rw [hlexemes]
    exact List.mem_append_right _ (List.mem_cons_of_mem _ h)
  refine Lexeme.isObject_iff (fun l hl => Lexeme.genuine_of_mem_ofText (hmem hl)) (fun us l vs h hopen => ?_) (hts.trans hafter.symm)
  have hplace : Lexeme.ofText source = (before ++ ⟨.braceOpen, text⟩ :: us) ++ l :: vs := by
    rw [hlexemes, h, List.append_assoc]
    rfl
  exact Lexeme.newline_of_isUnclosed hplace (by rw [hopen]; rfl)

/-- An object whose key holds an escaped quote, a template and a colon; its value begins with a brace and a string as well, but is a block,
as no colon follows that string. -/
theorem parse_braces_nested :
    ∃ p xs ls cs rs ys before text after, parse {} "\x7b \"\\\" \x7b\x7bx\x7d\x7d:\" : \x7b \"v\" \x7d \x7d".toList = .ok p ∧
      p.tree.Amid xs (.node .entry (ls ++ .node .block cs :: rs)) ys ∧
      Lexeme.ofText "\x7b \"\\\" \x7b\x7bx\x7d\x7d:\" : \x7b \"v\" \x7d \x7d".toList = before ++ ⟨.braceOpen, text⟩ :: after ∧
      ¬ Lexeme.BeginsObject after := by
  have hok : (parse {} "\x7b \"\\\" \x7b\x7bx\x7d\x7d:\" : \x7b \"v\" \x7d \x7d".toList).toOption.any (fun p => p.tree.children.any fun object =>
      object.kind = .object && object.children.any fun entry => entry.kind = .entry && entry.children.any fun block =>
        block.kind = .block && !block.isLeaf) = true := by decide +kernel
  obtain ⟨p, hp, htest⟩ := exists_of_any_parse hok
  simp only [List.any_eq_true, Bool.and_eq_true, decide_eq_true_eq, Bool.not_eq_true'] at htest
  obtain ⟨object, hobject, -, entry, hentry, hkind, block, hblock, hblockKind, hleaf⟩ := htest
  obtain ⟨ls₁, rs₁, hobject⟩ := List.append_of_mem hobject
  obtain ⟨ls₂, rs₂, hentry⟩ := List.append_of_mem hentry
  obtain ⟨ls₃, rs₃, hblock⟩ := List.append_of_mem hblock
  have hroot : p.tree.Amid [] p.tree [] := .root
  have hamid := (hroot.of_children hobject).of_children hentry
  cases entry with
  | leaf k text => simp [Tree.children] at hblock
  | node k es =>
  cases block with
  | leaf k text => cases hleaf
  | node j cs =>
  obtain rfl : k = .entry := hkind
  obtain rfl : j = .block := hblockKind
  obtain rfl : es = ls₃ ++ .node .block cs :: rs₃ := hblock
  obtain ⟨before, text, after, more, hlexemes, -, -, -, hiff⟩ := (parse_braces hp).2 hamid (.inr ⟨rfl, by decide, by decide⟩)
  exact ⟨p, _, ls₃, cs, rs₃, _, before, text, after, hp, hamid, hlexemes, mt hiff.mpr (by decide)⟩

end Remap
