import Remap.Proofs.Completeness
import Remap.Proofs.Lossless
import Remap.Proofs.Parser.Terse
import Remap.Proofs.Scanning
import Remap.Proofs.Token.Numerals

/-!
# Integers are read exactly

An integer literal or an index writes a number of any size. Its value is that number where the number has 64 bits, and missing where
it does not; no digits are misread, whatever the source, and however malformed the number.

The scanner complains about a number that does not have 64 bits. It has to guess the sign, though: the magnitude of the least integer
is let pass right after a minus sign, and that sign may turn out to be one of subtraction.
-/

namespace Remap

/-- The integer that a node writes with the digits of one of its tokens: negative if the node has a sign. -/
def Node.signed (n : Node) (t : Text) : Int :=
  if n.leaves.any (·.kind = .minus) then -(Literal.number t : Int) else Literal.number t

namespace Node

variable {n l : Node}

/-- A node that has a sign has a leaf of one. -/
theorem isSome_minus (n : Node) : (n.leaf? (· = .minus)).isSome = n.leaves.any (·.kind = .minus) := by
  rw [leaf?, List.isSome_find?]

/-- The value of a node with one integer token. -/
theorem integer?_eq_inRange? (htext : n.leafText? .integer = some l.text) (hnumeral : Literal.IsNumeral l.text) :
    n.integer? = Literal.inRange? (n.signed l.text) := by
  rw [integer?, htext]
  simp only [Literal.integer?_eq hnumeral, isSome_minus, signed]

theorem expr?_integerLit (hk : n.kind = .integerLit) (hleaf : n.isLeaf = false) :
    n.expr? = some (.literal (.integer n.integer? n.literalText)) := by
  simp only [expr?, hleaf, hk]
  rfl

theorem segment?_indexSegment (hk : n.kind = .indexSegment) : n.segment? = some (.index n.integer?) := by
  simp only [segment?, hk]

/-- A leaf among the children, as a piece of the source. -/
theorem leaves_of_isLeaf (h : l.isLeaf = true) : l.tree.leaves = [(l.kind, l.text)] := by
  obtain ⟨start, tree⟩ := l
  cases tree with
  | leaf k t => rfl
  | node k cs => cases h

/-- The leaves of a node are those of its children. -/
theorem leaves_of_elements (hleaf : n.isLeaf = false) : n.tree.leaves = n.elements.flatMap (·.tree.leaves) := by
  have hrow (offset : Nat) (cs : List Tree) : Tree.leavesOf cs = (placeAll offset cs).flatMap (·.tree.leaves) := by
    induction cs generalizing offset with
    | nil => rfl
    | cons c cs ih => rw [Tree.leavesOf, ih (offset + c.bytes), placeAll, List.flatMap_cons]
  obtain ⟨start, tree⟩ := n
  cases tree with
  | leaf k t => cases hleaf
  | node k cs => exact hrow start cs

end Node

section Tokens

variable {o : Options} {source : Text} {p : Parsed} (h : parse o source = .ok p)

include h

/-- A node of a parsed source begins with a token, and the token before that stops where the node begins. -/
theorem tokens_of_within {n : Node} (hn : p.root.Within n) {x : Kind × Text} {more : List (Kind × Text)}
    (hleaves : n.tree.leaves = x :: more) :
    ∃ ts t us, (scan source o.checkPatterns).tokens = ts ++ t :: us ∧ t.piece = x ∧ (more <+: us.map Token.piece) ∧
      ∀ m ∈ ts.getLast?, m.stop = n.start := by
  obtain ⟨before, after, hroot, hstart⟩ := hn.exists_leaves
  have hpieces : (scan source o.checkPatterns).tokens.map Token.piece = before ++ x :: (more ++ after) := by
    rw [← leaves_of_parse h, show p.tree.leaves = p.root.tree.leaves from rfl, hroot, hleaves, List.cons_append]
  have htokens : (scan source o.checkPatterns).tokens = Token.place 0 none (before ++ x :: (more ++ after)) := by
    rw [← hpieces, scan, Token.map_piece_place]
  obtain ⟨previous, hplace⟩ := Token.place_append_spelled before (x :: (more ++ after)) 0 none
  rw [htokens, hplace]
  refine ⟨_, _, _, rfl, rfl, ?_, fun m hm => ?_⟩
  · rw [Token.map_piece_place]
    exact List.prefix_append more after
  · rw [Token.stop_of_last_place hm, hstart]
    rfl

/-- A leaf within the tree of a parsed source is a token of it. -/
theorem mem_tokens_of_leaf {n l : Node} (hn : p.root.Within n) (hl : l ∈ n.leaves) :
    ∃ t ∈ (scan source o.checkPatterns).tokens, t.kind = l.kind ∧ t.text = l.text := by
  obtain ⟨hmem, hleaf⟩ := List.mem_filter.mp hl
  obtain ⟨ts, t, us, htokens, hpiece, -⟩ := tokens_of_within h (.child hn hmem) (Node.leaves_of_isLeaf hleaf)
  exact ⟨t, by rw [htokens]; exact List.mem_append_right _ List.mem_cons_self, (Prod.mk.inj hpiece).1, (Prod.mk.inj hpiece).2⟩

/-- Where a number is to be read, the one integer token is read, exactly if the number has 64 bits. -/
theorem integer?_of_parse {n l : Node} (hn : p.root.Within n) (hk : n.kind = .integerLit ∨ n.kind = .indexSegment) (hl : l ∈ n.leaves)
    (hinteger : l.kind = .integer) : n.integer? = Literal.inRange? (n.signed l.text) := by
  have hleaf : n.isLeaf = false := Node.isLeaf_of_mem_elements (List.mem_filter.mp hl).1
  have hbrief := brief_of_parse h hn hleaf
  obtain ⟨t, ht, hkind, htext⟩ := mem_tokens_of_leaf h hn hl
  have hnumeral : Literal.IsNumeral l.text := htext ▸ isNumeral_of_mem_scan ht (hkind.trans hinteger)
  exact Node.integer?_eq_inRange? (Node.leafText?_integer hbrief hk hl hinteger) hnumeral

/-- Where nothing is reported, an integer has 64 bits: without the sign before it, or together with the sign. -/
theorem isSome_of_clean (hclean : p.diagnostics = []) {ts us : List Token} {t : Token}
    (htokens : (scan source o.checkPatterns).tokens = ts ++ t :: us) (hinteger : t.kind = .integer) :
    (Literal.integer? (ts.getLast?.elim false fun m => decide (m.kind = .minus)) t.text).isSome = true := by
  have htidy := tidy_scan (silent_of_parse h hclean).1
  rw [htokens] at htidy
  exact htidy.isSome_integer_of_split hinteger

/-- An integer literal without a sign has its value, unless it is the magnitude of the least integer after a minus sign. -/
theorem integer?_unsigned (hclean : p.diagnostics = []) {n l : Node} (hn : p.root.Within n) (hk : n.kind = .integerLit)
    (hrow : n.elements = [l]) (hleaf : l.isLeaf = true) (hinteger : l.kind = .integer) (hstart : l.start = n.start) :
    n.integer? = some (n.signed l.text) ∨ n.integer? = none ∧ n.signed l.text = 2 ^ 63 ∧
      ∃ m ∈ (scan source o.checkPatterns).tokens, m.kind = .minus ∧ m.stop = n.start := by
  have hmem : l ∈ n.elements := hrow ▸ List.mem_singleton_self l
  have hl : l ∈ n.leaves := List.mem_filter.mpr ⟨hmem, hleaf⟩
  have hsigned : n.signed l.text = Literal.number l.text := by simp [Node.signed, Node.leaves, hrow, hinteger]
  rw [integer?_of_parse h hn (.inl hk) hl hinteger]
  obtain ⟨ts, t, us, htokens, hpiece, -, hbefore⟩ := tokens_of_within h (.child hn hmem) (Node.leaves_of_isLeaf hleaf)
  obtain ⟨hkind, htext⟩ := Prod.mk.inj hpiece
  have hsome := isSome_of_clean h hclean htokens (hkind.trans hinteger)
  have hnumeral := isNumeral_of_mem_scan (htokens ▸ List.mem_append_right _ List.mem_cons_self) (hkind.trans hinteger)
  rw [Literal.integer?_eq hnumeral, htext] at hsome
  cases hlast : ts.getLast? with
  | none =>
    rw [hlast] at hsome
    exact .inl (Literal.inRange?_eq_some (hsigned ▸ hsome))
  | some m =>
    rw [hlast, Option.elim_some] at hsome
    by_cases hminus : m.kind = .minus
    · rw [if_pos (decide_eq_true hminus), Literal.isSome_inRange?] at hsome
      rw [hsigned]
      by_cases hleast : (Literal.number l.text : Int) = 2 ^ 63
      · refine .inr ⟨if_neg (by omega), hleast, m, ?_, hminus, hstart ▸ hbefore m hlast⟩
        rw [htokens]
        exact List.mem_append_left _ (List.mem_of_getLast? hlast)
      · exact .inl (if_pos (by omega))
    · rw [if_neg (by simpa using hminus)] at hsome
      exact .inl (Literal.inRange?_eq_some (hsigned ▸ hsome))

/-- An integer literal with a sign has its value. -/
theorem integer?_signed (hclean : p.diagnostics = []) {n m l : Node} (hn : p.root.Within n) (hk : n.kind = .integerLit)
    (hrow : n.elements = [m, l]) (hm : m.isLeaf = true) (hminus : m.kind = .minus) (hleaf : l.isLeaf = true)
    (hinteger : l.kind = .integer) : n.integer? = some (n.signed l.text) := by
  have hl : l ∈ n.leaves := List.mem_filter.mpr ⟨by rw [hrow]; exact List.mem_cons_of_mem _ (List.mem_singleton_self l), hleaf⟩
  have hsigned : n.signed l.text = -(Literal.number l.text : Int) := by simp [Node.signed, Node.leaves, hrow, hm, hminus]
  rw [integer?_of_parse h hn (.inl hk) hl hinteger]
  have hleaves : n.tree.leaves = (m.kind, m.text) :: [(l.kind, l.text)] := by
    rw [Node.leaves_of_elements (Node.isLeaf_of_mem_elements (List.mem_filter.mp hl).1), hrow]
    simp only [List.flatMap_cons, Node.leaves_of_isLeaf hm, Node.leaves_of_isLeaf hleaf]
    rfl
  obtain ⟨ts, t, us, htokens, hpiece, ⟨rest, hrest⟩, -⟩ := tokens_of_within h hn hleaves
  obtain ⟨u, us, rfl, hu, -⟩ := List.map_eq_cons_iff.mp hrest.symm
  obtain ⟨hkind, htext⟩ := Prod.mk.inj hu
  have hsplit : (scan source o.checkPatterns).tokens = (ts ++ [t]) ++ u :: us := by
    rw [htokens, List.append_assoc]
    rfl
  have hsome := isSome_of_clean h hclean hsplit (hkind.trans hinteger)
  have hnumeral := isNumeral_of_mem_scan (hsplit ▸ List.mem_append_right _ List.mem_cons_self) (hkind.trans hinteger)
  have hsign : t.kind = .minus := (Prod.mk.inj hpiece).1.trans hminus
  rw [Literal.integer?_eq hnumeral, htext, List.getLast?_concat, Option.elim_some, if_pos (decide_eq_true hsign)] at hsome
  exact Literal.inRange?_eq_some (hsigned ▸ hsome)

end Tokens

/-- However a source is parsed, reports or not: where an integer literal or an index holds an integer token, its value is the number
that the digits write, negative if it has a sign, exactly where that is a signed integer of 64 bits; elsewhere it has none. -/
theorem parse_integers (o : Options) (source : Text) (p : Parsed) (h : parse o source = .ok p) (n : Node) (hn : p.root.Within n)
    (hk : n.kind = .integerLit ∨ n.kind = .indexSegment) (l : Node) (hl : l ∈ n.leaves) (hinteger : l.kind = .integer) :
    (n.kind = .integerLit → n.expr? = some (.literal (.integer (Literal.inRange? (n.signed l.text)) n.literalText))) ∧
      (n.kind = .indexSegment → n.segment? = some (.index (Literal.inRange? (n.signed l.text)))) := by
  have hleaf : n.isLeaf = false := Node.isLeaf_of_mem_elements (List.mem_filter.mp hl).1
  have hvalue := integer?_of_parse h hn hk hl hinteger
  exact ⟨fun hliteral => hvalue ▸ Node.expr?_integerLit hliteral hleaf, fun hindex => hvalue ▸ Node.segment?_indexSegment hindex⟩

/-- An index with leading zeros and a separator that is the least integer. -/
theorem parse_integers_index :
    ∃ p n, parse {} ".a[-0_9223372036854775808]".toList = .ok p ∧ p.root.Within n ∧ n.kind = .indexSegment ∧
      n.segment? = some (.index (some (-9223372036854775808))) := by
  have hok : (parse {} ".a[-0_9223372036854775808]".toList).toOption.any (fun p => p.statements.any fun s => s.nodes.any fun q =>
      q.nodes.any fun n => n.kind = .indexSegment && n.leaves.any (·.kind = .minus) &&
        n.leaves.any fun l => l.kind = .integer && l.text = "0_9223372036854775808".toList) = true := by decide +kernel
  obtain ⟨p, hp, htest⟩ := exists_of_any_parse hok
  simp only [List.any_eq_true, Bool.and_eq_true, decide_eq_true_eq] at htest
  obtain ⟨s, hs, q, hq, n, hn, ⟨hkind, hsign⟩, l, hl, hinteger, htext⟩ := htest
  have hwithin : p.root.Within n := .child (.child (.child .root (List.mem_filter.mp (List.mem_filter.mp hs).1).1)
    (List.mem_filter.mp hq).1) (List.mem_filter.mp hn).1
  refine ⟨p, n, hp, hwithin, hkind, ?_⟩
  have hvalue := (parse_integers {} _ p hp n hwithin (.inr hkind) l hl hinteger).2 hkind
  have hsigned : n.signed l.text = -9223372036854775808 := by
    rw [Node.signed, if_pos (List.any_eq_true.mpr (by simpa using hsign)), htext]
    decide +kernel
  rw [hvalue, hsigned]
  decide +kernel

/-- In a source that parses without diagnostics, an integer literal has one integer token. Its value is the number that this token
writes, negative if the literal has a sign; or else that number is the magnitude of the least integer, and the minus sign right
before the literal is not its own. -/
theorem parse_represents (o : Options) (source : Text) (p : Parsed) (h : parse o source = .ok p) (hclean : p.diagnostics = []) (n : Node)
    (hn : p.root.Within n) (hk : n.kind = .integerLit) (hleaf : n.isLeaf = false) :
    ∃ l, n.leaves.filter (·.kind = .integer) = [l] ∧
      (n.expr? = some (.literal (.integer (some (n.signed l.text)) n.literalText)) ∨
        n.expr? = some (.literal (.integer none n.literalText)) ∧ n.signed l.text = 2 ^ 63 ∧
          ∃ m ∈ (scan source o.checkPatterns).tokens, m.kind = .minus ∧ m.stop = n.start) := by
  have hbrief := brief_of_parse h hn hleaf
  have hliteral : Tree.OneToken .integerLit n.tree.children := hk ▸ hbrief.literal (by rw [hk]; exact List.cons_ne_nil _ _)
  rcases hliteral.integer with ⟨t, hcs⟩ | ⟨sign, t, hcs⟩
  · have hrow : n.elements = [⟨n.start, .leaf .integer t⟩] := by
      rw [Node.elements, hcs]
      rfl
    refine ⟨_, by rw [Node.leaves, hrow]; rfl, ?_⟩
    rw [Node.expr?_integerLit hk hleaf]
    rcases integer?_unsigned h hclean hn hk hrow rfl rfl rfl with hvalue | ⟨hvalue, hleast⟩
    · exact .inl (by rw [hvalue])
    · exact .inr ⟨by rw [hvalue], hleast⟩
  · have hrow : n.elements = [⟨n.start, .leaf .minus sign⟩, ⟨n.start + sign.bytes, .leaf .integer t⟩] := by
      rw [Node.elements, hcs]
      rfl
    refine ⟨_, by rw [Node.leaves, hrow]; rfl, .inl ?_⟩
    rw [Node.expr?_integerLit hk hleaf, integer?_signed h hclean hn hk hrow rfl rfl rfl rfl]

/-- The least integer. -/
theorem parse_represents_least :
    ∃ p n, parse {} "-9223372036854775808".toList = .ok p ∧ p.diagnostics = [] ∧ p.root.Within n ∧
      n.expr? = some (.literal (.integer (some (-9223372036854775808)) "-9223372036854775808".toList)) := by
  have hok : (parse {} "-9223372036854775808".toList).toOption.any (fun p => p.diagnostics.isEmpty && p.root.elements.any fun n =>
      n.kind = .integerLit && !n.isLeaf && n.literalText = "-9223372036854775808".toList && n.leaves.any (·.kind = .minus) &&
        (n.leaves.filter (·.kind = .integer)).all fun l => l.text = "9223372036854775808".toList) = true := by decide +kernel
  obtain ⟨p, hp, htest⟩ := exists_of_any_parse hok
  simp only [Bool.and_eq_true, List.isEmpty_iff, List.any_eq_true, List.all_eq_true, decide_eq_true_eq, Bool.not_eq_true'] at htest
  obtain ⟨hclean, n, hn, ⟨⟨⟨hkind, hleaf⟩, htext⟩, hsign⟩, hdigits⟩ := htest
  have hwithin : p.root.Within n := .child .root hn
  obtain ⟨l, hl, hvalue⟩ := parse_represents {} _ p hp hclean n hwithin hkind hleaf
  have hsigned : n.signed l.text = -9223372036854775808 := by
    rw [Node.signed, if_pos (List.any_eq_true.mpr (by simpa using hsign)), hdigits l (hl ▸ List.mem_singleton_self l)]
    decide +kernel
  rw [hsigned, htext] at hvalue
  exact ⟨p, n, hp, hclean, hwithin, hvalue.resolve_right fun h => absurd h.2.1 (by decide)⟩

/-- The scanner takes a minus sign for one of the number after it; the parser takes it for one of subtraction if an operand stands
before it. Then the magnitude of the least integer passes, and has no value. -/
theorem parse_subtracted_minimum :
    ¬ ∀ (source : Text) (p : Parsed), parse {} source = .ok p → p.diagnostics = [] → ∀ n, p.root.Within n → n.kind = .integerLit →
      n.isLeaf = false → ∃ l ∈ n.leaves, n.expr? = some (.literal (.integer (some (n.signed l.text)) n.literalText)) := by
  intro hall
  have hok : (parse {} "1-9223372036854775808".toList).toOption.any (fun p => p.diagnostics.isEmpty && p.root.elements.any fun e =>
      e.elements.any fun n => n.kind = .integerLit && !n.isLeaf && n.integer? = none) = true := by decide +kernel
  obtain ⟨p, hp, htest⟩ := exists_of_any_parse hok
  simp only [Bool.and_eq_true, List.isEmpty_iff, List.any_eq_true, decide_eq_true_eq, Bool.not_eq_true'] at htest
  obtain ⟨hclean, e, he, n, hn, ⟨hkind, hleaf⟩, hnone⟩ := htest
  obtain ⟨l, -, hvalue⟩ := hall _ p hp hclean n (.child (.child .root he) hn) hkind hleaf
  rw [Node.expr?_integerLit hkind hleaf, hnone] at hvalue
  cases hvalue

end Remap
