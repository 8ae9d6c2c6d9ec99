import Remap.Proofs.Parser.Reads.Programs

/-!
# Phrases are read as they were written

A phrase that is written out and parsed comes back. Nothing is reported, and the one statement of the program is the phrase, if
there is room for as many levels of nesting as the phrase has expressions, and one more.
-/

namespace Remap

namespace Parser

open Phrase

variable {e : Phrase}

theorem endsSolid_segments (path : List Segment) : EndsSolid (path.flatMap segmentPieces) := by
  induction path with
  | nil => exact fun _ hp => by cases hp
  | cons x path ih =>
    refine .append ?_ ih
    cases x with
    | field name quoted => exact .append_right [_] (List.cons_ne_nil _ _) (.single (solid_fieldKind _).1)
    | index value => exact .append_right (_ :: _) (List.cons_ne_nil _ _) (.single (by decide))

theorem endsSolid_path (path : List Segment) : EndsSolid (pathPieces path) := by
  unfold pathPieces
  split
  · exact .cons (solid_fieldKind _).1 (endsSolid_segments _)
  · exact endsSolid_segments _

/-- A phrase ends with no blank. -/
theorem endsSolid_pieces (he : e.Proper) : EndsSolid e.pieces := by
  induction he with
  | integer _ => exact .append_right _ (List.cons_ne_nil _ _) (.single (by decide))
  | boolean value => cases value <;> exact .single (by decide)
  | event _ | metadata _ => exact .cons (by decide) (endsSolid_path _)
  | internal _ _ _ _ ih => exact .append ih (endsSolid_segments _)
  | group _ _ | array _ _ => exact .append_right (_ :: _) (List.cons_ne_nil _ _) (.single (by decide))
  | call fallible _ _ _ =>
    refine .append_right [_] (fun h => by cases (List.append_eq_nil_iff.mp h).2) ?_
    exact .append_right _ (List.cons_ne_nil _ _) (.append_right (_ :: _) (List.cons_ne_nil _ _) (.single (by decide)))
  | negation _ _ ih => exact .cons (by decide) ih
  | @binary op lhs rhs _ hr _ _ _ ihr =>
    obtain ⟨k, x, ps, hps, -⟩ := exists_first_piece hr
    have hne : rhs.pieces ≠ [] := by
      rw [hps]
      exact List.cons_ne_nil _ _
    exact .append_right _ (List.cons_ne_nil _ _) (.append_right [_, _, _] hne ihr)
  | ident _ | null => exact .single (by decide)

/-- The tree of a program that is a phrase. -/
theorem parseTokens_phrase {tokens : List Token} (limit : Nat) (he : e.Proper) (htokens : Placed false e.pieces tokens)
    (hlimit : e.size + 1 ≤ limit) : ∃ cs t, t.Spells e ∧ Tree.solid cs = [t] ∧
      parseTokens tokens limit none = .ok ⟨.node .program cs, [], false⟩ := by
  have hfirst := arithmeticFirst_firstKind he []
  rw [List.append_nil] at hfirst
  refine parseTokens_single htokens hfirst (endsSolid_pieces he) hlimit fun l t ht => ?_
  rw [← List.append_nil e.pieces] at ht
  exact ((readable he).assignment (Nat.le_refl _) (.inr rfl) ht).imp fun _ _ h => h.2

end Parser

/-- A phrase that is written out and parsed without bound on the tokens, and with room for twice as many levels of nesting as it
has expressions and two more, comes back: nothing is reported, and the only statement of the program is the phrase. -/
theorem parse_text (o : Options) (e : Phrase) (he : e.Proper) (hfuel : o.fuel = none) (hlimit : 2 * e.size + 2 ≤ o.limit) :
    ∃ p, parse o e.text = .ok p ∧ p.diagnostics = [] ∧ p.phrases = [some e] := by
  obtain ⟨htokens, hdiagnostics⟩ := scan_spelled (Phrase.severable_pieces he) o.checkPatterns
  have hplaced : Parser.Placed false e.pieces (Token.place 0 none e.pieces) := Parser.placed_place 0 none e.pieces
  obtain ⟨cs, t, ht, hcs, hparse⟩ := Parser.parseTokens_phrase o.limit he hplaced (by omega)
  refine ⟨⟨.node .program cs, []⟩, ?_, rfl, ?_⟩
  · simp only [parse, Phrase.text, htokens, hdiagnostics, hfuel, hparse]
    simp [Diagnostics.sortByPosition, Diagnostics.locate]
  · have hexprs := (Node.mk 0 (.node .program cs)).map_tree_exprs
    rw [show Tree.solid (Node.mk 0 (.node .program cs)).tree.children = [t] from hcs, List.filter_cons_of_pos (Phrase.isExpr_of_spells ht),
      List.filter_nil] at hexprs
    obtain ⟨start, hstart⟩ := Node.exists_of_map_singleton hexprs
    have hmem : t ∈ cs := (List.mem_filter.mp (hcs ▸ List.mem_singleton_self t)).1
    have hheight : t.height ≤ (Tree.node .program cs).height := by
      rw [Tree.height]
      exact Nat.le_trans (Tree.height_le_heightOf hmem) (Nat.le_succ _)
    show (Node.mk 0 (.node .program cs)).exprs.map _ = _
    rw [hstart, List.map_singleton, ht.read start _ hheight]

/-- The product of a negation and a call, added to a path. -/
theorem parse_text_sum :
    ∃ p, parse {} ['.', 'b', '[', '0', ']', ' ', '+', ' ', '!', 'a', ' ', '*', ' ', 'f', '!', '(', '-', '1', ')'] = .ok p ∧
      p.diagnostics = [] ∧
      p.phrases = [some (.binary .add (.event [.field (some ['b']) false, .index (some 0)])
        (.binary .multiply (.negation (.ident ['a'])) (.call ['f'] true [.integer (-1)])))] := by
  have hevent : (Phrase.event [.field (some ['b']) false, .index (some 0)]).Proper := by
    refine .event fun x hx => ?_
    rcases List.mem_cons.mp hx with rfl | hx
    · exact .field rfl
    · rw [List.mem_singleton.mp hx]
      exact .index (by decide)
  have hcall : (Phrase.call ['f'] true [.integer (-1)]).Proper := by
    refine .call true (by decide) fun e he => ?_
    rw [List.mem_singleton.mp he]
    exact .integer (by decide)
  have hproduct : (Phrase.binary .multiply (.negation (.ident ['a'])) (.call ['f'] true [.integer (-1)])).Proper :=
    .binary (.negation (.ident (by decide)) rfl) hcall (fun _ ho => by cases ho) fun _ ho => by cases ho
  have hsum : (Phrase.binary .add (.event [.field (some ['b']) false, .index (some 0)])
      (.binary .multiply (.negation (.ident ['a'])) (.call ['f'] true [.integer (-1)]))).Proper := by
    refine .binary hevent hproduct (fun _ ho => by cases ho) fun o ho => ?_
    cases ho
    decide
  have htext : (Phrase.binary .add (.event [.field (some ['b']) false, .index (some 0)])
      (.binary .multiply (.negation (.ident ['a'])) (.call ['f'] true [.integer (-1)]))).text =
      ['.', 'b', '[', '0', ']', ' ', '+', ' ', '!', 'a', ' ', '*', ' ', 'f', '!', '(', '-', '1', ')'] := by decide +kernel
  rw [← htext]
  exact parse_text {} _ hsum rfl (by decide +kernel)

end Remap
