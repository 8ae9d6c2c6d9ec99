import Remap.Proofs.Parser.Reads
import Remap.Proofs.Token.Strings
import Remap.Proofs.Tree.Strings

/-!
# Reading strings

Inside a string no blank is passed over: every token is consumed as it stands. So the routines for strings end right before what
comes next, and what was added to the row stands for what the pieces stand for.
-/

namespace Remap.Parser

open Tree (SpellsParts SpellsString)

variable {α : Type} {n m : Nat} {s : State} {b : Bool} {r : List Tree} {ps qs : List (Kind × Text)}

/-! ## Raw tokens -/

/-- Looking at the very next token. -/
theorem Returns.of_peekRaw {f : Kind → Routine α} {Q : α → State → Prop} (h : s.Before m b ps r)
    (hf : ∀ t, t.Before m b ps r → Returns n (f (firstKind ps)) t Q) : Returns n (Parser.peekRaw >>= f) s Q := by
  refine Returns.bind <| .look rfl fun k t hpeek _ => ?_
  simp only [Action.perform, Parser.look] at hpeek
  split at hpeek <;> cases hpeek
  rw [State.nextKind_of_next h.unread.next]
  exact hf _ ⟨⟨h.row, h.room, h.reports⟩, h.unread⟩

/-- Consuming a blank adds nothing to the row. -/
theorem Returns.of_blank {x : Text} {Q : Unit → State → Prop} (h : s.Before m b ((.whitespace, x) :: ps) r)
    (hQ : ∀ t, t.Before m false ps r → Q () t) : Returns n Parser.advance s Q := by
  refine .of_steady fun hsteady => .flat rfl fun _ t hadvance _ => ?_
  obtain ⟨token, rest, hunread, hk, -, -, hrest⟩ := h.unread.uncons
  rw [State.perform_advance hunread] at hadvance
  cases hadvance
  have hsolid : Tree.solid [token.leaf] = [] := List.filter_cons_of_neg (by simp [Token.leaf, Tree.isBlank, hk, Kind.isTrivia])
  refine hQ _ ⟨⟨?_, h.room, h.reports⟩, hrest⟩
  rw [hsteady.row_consumed, hsolid, List.append_nil, h.row]

/-! ## Templates -/

/-- The blanks in a template, if there are any. -/
theorem templateParts_pad {pad : Text} {Q : Unit → State → Prop}
    (h : s.Before m b ((if pad.isEmpty then [] else [(Kind.whitespace, pad)]) ++ ps) r)
    (hmore : ∀ l c t, t.Before m c ps r → Returns l (rule .templateParts) t Q) : Returns n (rule .templateParts) s Q := by
  split at h
  · exact hmore n b s h
  · exact .of_rule fun l => .of_peekRaw h fun t ht => .bind <| .of_blank ht fun t ht => hmore l _ t ht

/-- The inside of a template. -/
theorem templateParts_returns {lead name trail x : Text}
    (h : s.Before m b ((if lead.isEmpty then [] else [(Kind.whitespace, lead)]) ++ ((.id, name) ::
      ((if trail.isEmpty then [] else [(Kind.whitespace, trail)]) ++ (.templateClose, x) :: qs))) r) :
    Returns n (rule .templateParts) s fun _ t => ∃ c, t.Before m c ((.templateClose, x) :: qs) (r ++ [.leaf .id name]) := by
  refine templateParts_pad h fun l c t ht => .of_rule fun l => .of_peekRaw ht fun t ht => ?_
  refine .bind <| Reads.of_advance ht (by decide) fun t ht => templateParts_pad ht fun l c t ht => ?_
  exact .of_rule fun l => .of_peekRaw ht fun t ht => .done ⟨c, ht⟩

/-- A template. -/
theorem template_returns {lead name trail : Text} (h : s.Before m b ((Fragment.template lead name trail).pieces ++ qs) r) :
    Returns n template s fun _ t => ∃ cs, (∀ start, (Node.mk start (.node .template cs)).leafText? .id = some name) ∧
      t.Before m true qs (r ++ [.node .template cs]) := by
  simp only [Fragment.pieces, List.append_assoc, List.cons_append, List.nil_append] at h
  refine Reads.of_node m h fun t ht => .bind <| Reads.of_advance ht (by decide) fun t ht => ?_
  refine .bind <| (templateParts_returns ht).imp fun _ t ht => ?_
  obtain ⟨c, ht⟩ := ht
  refine .of_peekRaw ht fun t ht => Returns.bind (f := pure) <| Reads.of_advance ht (by decide) fun t ht => .done ⟨_, ht.toClear, ?_⟩
  intro u cs hunread hclear hcs
  refine ⟨cs, fun start => ?_, hclear, hunread ▸ ht.unread⟩
  rw [Node.leafText?_eq _ (by decide)]
  exact congrArg (fun ts => Option.map Tree.text (List.find? _ ts)) hcs

/-! ## Strings -/

/-- The inside of a string with its closing quote. -/
theorem stringParts_returns {parts : List StringPart} {x : Text} (hps : StringPart.Pieces ps parts)
    (h : s.Before m b (ps ++ (.doubleQuote, x) :: qs) r) :
    Returns n (rule .stringParts) s fun _ t =>
      ∃ ts, SpellsParts ts parts ∧ t.Before m true qs (r ++ (ts ++ [.leaf .doubleQuote x])) := by
  induction hps generalizing n s b r with
  | nil =>
    exact .of_rule fun l => .of_peekRaw h fun t ht => Returns.bind (f := pure) <| Reads.of_advance ht (by decide) fun t ht =>
      .done ⟨[], .nil, ht⟩
  | text t _ ih =>
    refine .of_rule fun l => .of_peekRaw h fun u hu => .bind <| Reads.of_advance hu (by decide) fun u hu => ?_
    refine (ih hu).imp fun _ v ⟨ts, hts, hv⟩ => ⟨_, .text t hts, ?_⟩
    rwa [List.append_assoc] at hv
  | escape t _ ih =>
    refine .of_rule fun l => .of_peekRaw h fun u hu => .bind <| Reads.of_advance hu (by decide) fun u hu => ?_
    refine (ih hu).imp fun _ v ⟨ts, hts, hv⟩ => ⟨_, .escape t hts, ?_⟩
    rwa [List.append_assoc] at hv
  | template lead name trail _ ih =>
    rw [List.append_assoc] at h
    refine .of_rule fun l => .of_peekRaw h fun t ht => .bind <| (template_returns ht).imp fun _ t ⟨cs, hcs, ht⟩ => ?_
    refine (ih ht).imp fun _ v ⟨ts, hts, hv⟩ => ⟨_, .template hts hcs, ?_⟩
    rwa [List.append_assoc] at hv

/-- A string literal. -/
theorem reads_string {parts : List StringPart} {q e : Text} (hps : StringPart.Pieces ps parts)
    (h : s.Before m b ((.doubleQuote, q) :: (ps ++ (.doubleQuote, e) :: qs)) r) :
    Reads n string s m qs fun k r' => k = .stringLit ∧ ∃ cs, SpellsString cs parts ∧ r' = r ++ [.node .stringLit cs] := by
  refine .node h fun t ht => .require ht.faces (sharp_cons (by decide) _ _) rfl fun t ht => .advance ht (by decide) fun t ht => ?_
  refine Returns.bind <| (stringParts_returns hps ht).imp fun _ t ⟨ts, hts, ht⟩ => ?_
  exact Reads.done ht.faces fun cs hcs => ⟨rfl, cs, ⟨q, e, ts, hcs, hts⟩, rfl⟩

end Remap.Parser
