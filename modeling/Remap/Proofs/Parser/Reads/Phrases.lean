import Remap.Proofs.Parser.Reads.Terms

/-!
# Reading phrases

The routines of the grammar, where what is ahead is a phrase as it is written. Terms are read by their first token. Operators are
folded one at a time: what is left to read after an operand is the rest of the chain, one level of nesting deeper for each
operator that was folded.
-/

namespace Remap

open Remap.Parser

namespace Phrase

/-! ## The pieces of a phrase -/

/-- The phrases that are neither negations nor operations. -/
def isTerm : Phrase → Bool
  | .negation _ | .binary _ _ _ => false
  | _ => true

theorem isTerm_of_isRoot {e : Phrase} (h : e.isRoot = true) : e.isTerm = true := by
  cases e with
  | negation _ | binary _ _ _ => cases h
  | _ => rfl

/-- A phrase begins with a token that may begin an operator expression; a term does not begin with `!`. -/
theorem exists_first_piece {e : Phrase} (he : e.Proper) : ∃ k x ps, e.pieces = (k, x) :: ps ∧
    KindSet.arithmeticFirst.contains k = true ∧ (e.isTerm = true → k ≠ .bang) := by
  induction he with
  | integer hi =>
    rw [pieces, integerPieces]
    split
    · exact ⟨_, _, _, rfl, rfl, fun _ => by decide⟩
    · exact ⟨_, _, _, rfl, rfl, fun _ => by decide⟩
  | boolean value =>
    cases value with
    | true => exact ⟨_, _, _, rfl, rfl, fun _ => by decide⟩
    | false => exact ⟨_, _, _, rfl, rfl, fun _ => by decide⟩
  | @internal root path _ hr _ _ ih =>
    obtain ⟨k, x, ps, hps, hk, hbang⟩ := ih
    exact ⟨k, x, ps ++ path.flatMap segmentPieces, by rw [pieces, hps]; rfl, hk, fun _ => hbang (isTerm_of_isRoot hr)⟩
  | negation _ _ _ => exact ⟨_, _, _, rfl, rfl, fun h => by cases h⟩
  | binary _ _ _ _ ihl _ =>
    obtain ⟨k, x, ps, hps, hk, -⟩ := ihl
    exact ⟨k, x, _, by rw [pieces, hps]; rfl, hk, fun h => by cases h⟩
  | ident _ | null | event _ | metadata _ | group _ _ | array _ _ | call _ _ _ _ => exact ⟨_, _, _, rfl, rfl, fun _ => by decide⟩

/-- What comes first in a path that starts from a value. -/
theorem exists_segment_piece {path : List Segment} (hne : path ≠ []) :
    ∃ k x ps, path.flatMap segmentPieces = (k, x) :: ps ∧ (k = .dot ∨ k = .bracketOpen) := by
  cases path with
  | nil => exact absurd rfl hne
  | cons y path =>
    cases y with
    | field name quoted => exact ⟨_, _, _, rfl, .inl rfl⟩
    | index value => exact ⟨_, _, _, rfl, .inr rfl⟩

theorem firstKind_pieces {e : Phrase} (he : e.Proper) (qs : List (Kind × Text)) :
    firstKind (e.pieces ++ qs) = firstKind e.pieces := by
  obtain ⟨k, x, ps, hps, -⟩ := exists_first_piece he
  rw [hps]
  rfl

/-- A word that a phrase begins with has no colon after it, unless the phrase has one after it. -/
theorem unnamed {e : Phrase} (he : e.Proper) {qs : List (Kind × Text)} (hqs : aheadKind qs ≠ .colon)
    (hword : firstKind e.pieces = .id ∨ (firstKind e.pieces).isKeyword = true) : aheadKind (e.pieces ++ qs).tail ≠ .colon := by
  induction he generalizing qs with
  | ident _ => exact hqs
  | null => exact hqs
  | boolean value =>
    cases value with
    | true => exact hqs
    | false => exact hqs
  | integer _ =>
    rw [pieces, integerPieces] at hword
    split at hword
    · rcases hword with h | h <;> cases h
    · rcases hword with h | h <;> cases h
  | @internal root path hroot _ hne _ ih =>
    obtain ⟨k, x, ps, hps, hk⟩ := exists_segment_piece hne
    have hahead : aheadKind (path.flatMap segmentPieces ++ qs) ≠ .colon := by
      rw [hps]
      rcases hk with rfl | rfl
      · exact fun h => by cases h
      · exact fun h => by cases h
    rw [pieces, firstKind_pieces hroot] at hword
    rw [pieces, List.append_assoc]
    exact ih hahead hword
  | call fallible _ _ _ =>
    cases fallible with
    | true => exact fun h => by cases h
    | false => exact fun h => by cases h
  | @binary op lhs _ hl _ _ _ ihl _ =>
    rw [pieces, firstKind_pieces hl] at hword
    rw [pieces, List.append_assoc]
    refine ihl ?_ hword
    cases op <;> exact fun h => by cases h
  | event _ | metadata _ | group _ _ | array _ _ | negation _ _ _ => rcases hword with h | h <;> cases h

theorem solid_of_arithmeticFirst {k : Kind} (h : KindSet.arithmeticFirst.contains k = true) : Solid k := by
  revert h
  cases k <;> decide

theorem sharp_pieces {e : Phrase} (he : e.Proper) (qs : List (Kind × Text)) : Sharp (e.pieces ++ qs) := by
  obtain ⟨k, x, ps, hps, hk, -⟩ := exists_first_piece he
  rw [hps]
  exact solid_of_arithmeticFirst hk

theorem size_pos (e : Phrase) : 1 ≤ e.size := by
  cases e <;> simp only [size] <;> omega

end Phrase

namespace Parser

open Phrase

variable {n m : Nat} {s : State} {b : Bool} {r : List Tree} {qs : List (Kind × Text)}

/-! ## Terms -/

/-- The routine for a term that begins with a token of a kind, without the path after it. -/
def termFrom : Kind → Routine Kind
  | .dot | .percent => externalQuery
  | .integer | .float | .minus | .doubleQuote | .rawString | .regex | .timestamp | .kwTrue | .kwFalse | .kwNull => literal
  | .parenOpen => group
  | .bracketOpen => array
  | .braceOpen => objectOrBlock
  | .id => identOrCall
  | _ => do
    missingOperand
    return .error

theorem term_eq : term = nested (marked (peek >>= fun k => termFrom k >>= continuePath)) := by
  unfold term
  congr 3
  funext k
  -- No path is looked for after a missing operand, which is no root either.
  cases k <;> first | rfl | exact (Routine.bind_assoc missingOperand (fun _ => .done .error) continuePath).symm

/-- A term without a path after it. -/
theorem reads_term {ps : List (Kind × Text)} {k₀ : Kind} {R : Tree → Prop} (hps : Sharp ps) (hqs : isFence (aheadKind qs) = true)
    (h : s.Before (m + 1) b ps r)
    (hterm : ∀ t, t.Before m b ps [] → Reads n (termFrom (firstKind ps)) t m qs (YieldsTree k₀ R [])) :
    Reads n term s (m + 1) qs (YieldsTree k₀ R r) := by
  rw [term_eq]
  refine .nested h fun t ht => .marked ht.faces fun t ht => .peek ht hps fun t ht => ?_
  refine .bind (hterm t ht) fun k r' t ⟨hk, tree, htree, hr'⟩ ht => ?_
  have hdone {u : State} (hu : u.Faces m true qs r') : Reads n (pure k) u m qs fun a xs => YieldsTree k₀ R r a (r ++ xs) :=
    .done hu ⟨hk, tree, htree, by rw [hr']; rfl⟩
  unfold continuePath
  split
  · exact atSegment_stop ht hqs fun t ht => hdone ht
  · exact hdone ht

theorem reads_phrase_term {e : Phrase} (he : e.Proper) (hqs : isFence (aheadKind qs) = true) (h : s.Before (m + 1) b (e.pieces ++ qs) r)
    (hterm : ∀ t, t.Before m b (e.pieces ++ qs) [] → Reads n (termFrom (firstKind e.pieces)) t m qs (Yields e [])) :
    Reads n term s (m + 1) qs (Yields e r) := by
  refine reads_term (sharp_pieces he qs) hqs h fun t ht => ?_
  rw [firstKind_pieces he]
  exact hterm t ht

/-- A path that starts from a root. -/
theorem reads_internal {root : Phrase} {path : List Segment} (hroot : root.Proper) (hr : root.isRoot = true) (hne : path ≠ [])
    (hpath : ∀ x ∈ path, Plain x) (hqs : isFence (aheadKind qs) = true)
    (h : s.Before (m + 1) b (root.pieces ++ (path.flatMap segmentPieces ++ qs)) r)
    (hterm : ∀ t, t.Before m b (root.pieces ++ (path.flatMap segmentPieces ++ qs)) [] →
      Reads n (termFrom (firstKind root.pieces)) t m (path.flatMap segmentPieces ++ qs) (Yields root [])) :
    Reads n term s (m + 1) qs (Yields (.internal root path) r) := by
  rw [term_eq]
  refine .nested h fun t ht => .marked ht.faces fun t ht => .peek ht (sharp_pieces hroot _) fun t ht => ?_
  rw [firstKind_pieces hroot]
  refine .bind (hterm t ht) fun k r' t ⟨hk, tree, htree, hr'⟩ ht => ?_
  obtain ⟨d, x, ds, hds, hd⟩ := exists_segment_piece hne
  have hcan : canRoot k = true := by
    rw [hk]
    cases root with
    | ident _ | call _ _ _ | group _ | array _ => rfl
    | _ => cases hr
  have hfaces := ht
  rw [hds] at hfaces
  unfold continuePath
  rw [if_pos hcan]
  refine atSegment_go hfaces hd fun t ht => ?_
  have hsegments : t.Before m true (path.flatMap segmentPieces ++ qs) r' := by
    rw [hds]
    exact ht
  have hwrapped : Reads n (wrapped .query (node .path (rule .pathSegments))) t m qs fun _ xs =>
      ∃ tree, tree.Spells (.internal root path) ∧ xs = [tree] := by
    refine .wrapped hsegments fun t ht => .node ht fun t ht => ?_
    refine (reads_pathSegments hpath hqs ht.faces).imp fun _ xs ⟨ts, hts, hxs⟩ cs hcs ds hds => ⟨_, ?_, rfl⟩
    rw [hr'] at hds
    refine spells_internal hds htree (.path ?_)
    rw [hcs, hxs]
    exact hts
  exact .bind hwrapped fun _ xs t ⟨tree, htree, hxs⟩ ht => .done ht ⟨rfl, tree, htree, by rw [hxs]⟩

/-! ## Names and calls -/

/-- What may come after a phrase or after the root of a path. -/
def isEdge (k : Kind) : Bool := isFence k || k == .dot || k == .bracketOpen

theorem isEdge_spec {k : Kind} (h : isEdge k = true) : k ≠ .newline ∧ k ≠ .parenOpen ∧ k ≠ .bang ∧ k ≠ .arrow := by
  revert h
  cases k <;> decide

theorem startsWith_eq {k : Kind} {ps : List (Kind × Text)} {ts : List Token} (h : Placed b ps ts) (hk : k ≠ .error) :
    Lookahead.startsWith k (Lookahead.significant false ts) = decide (aheadKind ps = k) := by
  have hnext := h.next_ahead
  simp only [Lookahead.startsWith, Lookahead.significant, Bool.false_and, Bool.or_false]
  cases hhead : (ts.dropWhile fun t => t.kind.isTrivia).head? with
  | none =>
    have hnone : Kind.error = aheadKind ps := by simpa [Next, hhead] using hnext
    simp [← hnone, hk.symm]
  | some t =>
    have hsome : t.kind = aheadKind ps := by simpa [Next, hhead] using hnext
    simp [hsome]

theorem not_startsCall {name : Text} (hqs : isEdge (aheadKind qs) = true) {ts : List Token} (h : Placed b ((.id, name) :: qs) ts) :
    Lookahead.startsCall.holds ts = false := by
  obtain ⟨-, hparen, hbang, -⟩ := isEdge_spec hqs
  obtain ⟨t, rest, rfl, -, -, -, hrest⟩ := h.uncons
  have hparen : Lookahead.startsWith .parenOpen (Lookahead.significant false rest) = false := by
    rw [startsWith_eq hrest (by decide)]
    exact decide_eq_false hparen
  show Lookahead.isCall rest = false
  cases rest with
  | nil => rfl
  | cons u rest =>
    have hfirst : u.kind = firstKind qs := hrest.next
    have hu : u.kind ≠ .bang := fun hu => by
      have hsharp : Sharp qs := by
        rw [Sharp, ← hfirst, hu]
        decide
      rw [hsharp.aheadKind, ← hfirst] at hbang
      exact hbang hu
    simp only [Lookahead.isCall, hu, decide_false, Bool.false_and, Bool.false_eq_true, if_false]
    exact hparen

theorem startsCall {name : Text} {fallible : Bool} {o : Text} {ts : List Token}
    (h : Placed b ((.id, name) :: ((if fallible then [(.bang, ['!'])] else []) ++ (.parenOpen, o) :: qs)) ts) :
    Lookahead.startsCall.holds ts = true := by
  obtain ⟨t, rest, rfl, -, -, -, hrest⟩ := h.uncons
  show Lookahead.isCall rest = true
  cases fallible with
  | false =>
    have hparen := startsWith_eq (k := .parenOpen) hrest (by decide)
    have hrest : Placed true ((.parenOpen, o) :: qs) rest := hrest
    obtain ⟨u, rest, rfl, hu, -⟩ := hrest.uncons
    simp only [Lookahead.isCall, hu, reduceCtorEq, decide_false, Bool.false_and, Bool.false_eq_true, if_false]
    exact hparen
  | true =>
    have hrest : Placed true ((.bang, ['!']) :: (.parenOpen, o) :: qs) rest := hrest
    obtain ⟨u, rest, rfl, hu, -, himmediate, hrest⟩ := hrest.uncons
    have himmediate : u.immediate = true := himmediate
    simp only [Lookahead.isCall, hu, himmediate, decide_true, Bool.true_and, if_true]
    exact startsWith_eq hrest (by decide)

theorem reads_ident {name : Text} (hqs : isEdge (aheadKind qs) = true) (h : s.Before m b ((.id, name) :: qs) r) :
    Reads n identOrCall s m qs (Yields (.ident name) r) := by
  refine .require h.faces (sharp_cons (by decide) _ _) rfl fun t ht => .ahead ht (fun ts => not_startsCall hqs) ?_
  exact .node ht fun t ht => .advance ht (by decide) fun t ht => .done ht.faces fun cs hcs => ⟨rfl, _, spells_ident hcs, rfl⟩

/-! ## Operations -/

/-- How a phrase is read. -/
structure Readable (e : Phrase) : Prop where
  proper : e.Proper
  /-- What a path may start from is read up to the path. -/
  root (hroot : e.isRoot = true) {n m : Nat} {s : State} {b : Bool} {qs : List (Kind × Text)} (hroom : e.size ≤ m + 1)
    (hqs : isEdge (aheadKind qs) = true) (h : s.Before m b (e.pieces ++ qs) []) :
    Reads n (termFrom (firstKind e.pieces)) s m qs (Yields e [])
  /-- An operand is read up to what comes after it. -/
  unary (hop : e.operator? = none) {n m : Nat} {s : State} {b : Bool} {qs : List (Kind × Text)} {r : List Tree} (hroom : e.size ≤ m)
    (hqs : isFence (aheadKind qs) = true) (h : s.Faces m b (e.pieces ++ qs) r) : Reads n (rule .unary) s m qs (Yields e r)
  /-- A chain of operators is folded up to a weaker one. What is left of the chain is read in less room. -/
  climb {n m min : Nat} {s : State} {b : Bool} {qs qs' : List (Kind × Text)} {X : Kind → List Tree → Prop}
    (hmin : ∀ o ∈ e.operator?, min ≤ o.precedence) (hroom : e.size ≤ m) (hqs : isFence (aheadKind qs) = true)
    (hweaker : ∀ o ∈ BinaryOperator.ofKind? (aheadKind qs), ∀ o' ∈ e.operator?, o.precedence ≤ o'.precedence)
    (h : s.Faces m b (e.pieces ++ qs) [])
    (hrest : ∀ (l m' : Nat) (t : State) (tree : Tree), tree.Spells e → m + 1 ≤ m' + e.size → t.Faces m' true qs [tree] →
      Reads l (rule (.binaryRest min e.kind)) t m' qs' X) :
    Reads n (rule .unary >>= fun k => rule (.binaryRest min k)) s m qs' X

/-- An operand is a chain without operators. -/
theorem Readable.of_operand {e : Phrase} (he : e.Proper)
    (hroot : ∀ {n m : Nat} {s : State} {b : Bool} {qs : List (Kind × Text)}, e.isRoot = true → e.size ≤ m + 1 →
      isEdge (aheadKind qs) = true → s.Before m b (e.pieces ++ qs) [] → Reads n (termFrom (firstKind e.pieces)) s m qs (Yields e []))
    (hunary : ∀ {n m : Nat} {s : State} {b : Bool} {qs : List (Kind × Text)} {r : List Tree}, e.size ≤ m →
      isFence (aheadKind qs) = true → s.Faces m b (e.pieces ++ qs) r → Reads n (rule .unary) s m qs (Yields e r)) :
    Readable e := by
  refine ⟨he, fun h => hroot h, fun _ => hunary, fun _ hroom hqs _ h hrest => ?_⟩
  refine .bind (hunary hroom hqs h) fun k r t ⟨hk, tree, htree, hr⟩ ht => ?_
  have hsize := e.size_pos
  rw [hk]
  rw [hr] at ht
  exact hrest _ _ t tree htree (by omega) ht

/-- The operators of at least a precedence end before a weaker one. -/
theorem reads_binaryRest_stop {min : Nat} {k : Kind} {X : Kind → List Tree → Prop} (hqs : isFence (aheadKind qs) = true)
    (hweaker : ∀ o ∈ BinaryOperator.ofKind? (aheadKind qs), o.precedence < min) (h : s.Faces m true qs r) (hX : X k r) :
    Reads n (rule (.binaryRest min k)) s m qs X := by
  refine .rule fun l => .peekPast h (isFence_spec hqs).1.2 fun t ht => ?_
  split
  · exact .done ht hX
  · rename_i op hop
    rw [if_pos (hweaker op hop)]
    exact .done ht hX

/-- An operator expression. -/
theorem Readable.binary {e : Phrase} (he : Readable e) {min : Nat} (hmin : ∀ o ∈ e.operator?, min ≤ o.precedence)
    (hroom : e.size ≤ m) (hqs : isFence (aheadKind qs) = true)
    (hweaker : ∀ o ∈ BinaryOperator.ofKind? (aheadKind qs), o.precedence < min) (h : s.Faces m b (e.pieces ++ qs) r) :
    Reads n (rule (.binary min)) s m qs (Yields e r) := by
  refine .rule fun l => .marked h fun t ht => he.climb hmin hroom hqs (fun o ho o' ho' => ?_) ht fun l m' t tree htree hm ht => ?_
  · exact Nat.le_trans (Nat.le_of_lt (hweaker o ho)) (hmin o' ho')
  · exact reads_binaryRest_stop hqs hweaker ht ⟨rfl, tree, htree, rfl⟩

/-- An operator and its right operand are folded onto the left operand. -/
theorem Readable.of_binary {op : BinaryOperator} {lhs rhs : Phrase} (he : (Phrase.binary op lhs rhs).Proper) (hl : Readable lhs)
    (hr : Readable rhs) (hleft : ∀ o ∈ lhs.operator?, op.precedence ≤ o.precedence)
    (hright : ∀ o ∈ rhs.operator?, op.precedence < o.precedence) : Readable (.binary op lhs rhs) := by
  refine ⟨he, fun h => (by cases h), fun h => (by cases h), fun {n m min s b qs qs' X} hmin hroom hqs hweaker h hrest => ?_⟩
  obtain ⟨hop, hsolid⟩ := operatorPiece_spec op
  have hmin : min ≤ op.precedence := hmin op rfl
  have hweaker : ∀ o ∈ BinaryOperator.ofKind? (aheadKind qs), o.precedence < op.precedence + 1 := fun o ho =>
    Nat.lt_succ_of_le (hweaker o ho op rfl)
  rw [size] at hroom hrest
  have hpieces : (Phrase.binary op lhs rhs).pieces ++ qs =
      lhs.pieces ++ (blank :: operatorPiece op :: blank :: (rhs.pieces ++ qs)) := by
    rw [pieces, List.append_assoc]
    rfl
  have hahead : aheadKind (blank :: operatorPiece op :: blank :: (rhs.pieces ++ qs)) = (operatorPiece op).1 :=
    (sharp_cons hsolid (operatorPiece op).2 (blank :: (rhs.pieces ++ qs))).aheadKind
  rw [hpieces] at h
  refine hl.climb (fun o ho => Nat.le_trans hmin (hleft o ho)) (by omega) ?_ (fun o ho o' ho' => ?_) h fun l m' t x hx hm ht => ?_
  · rw [hahead, isFence, hop, Option.isSome_some, Bool.or_true]
  · rw [hahead, hop] at ho
    cases ho
    exact hleft o' ho'
  · obtain ⟨m', rfl⟩ : ∃ l, m' = l + 1 := ⟨m' - 1, by omega⟩
    refine .rule fun l => .peek ht.blank hsolid fun t ht => ?_
    rw [show BinaryOperator.ofKind? (firstKind (operatorPiece op :: blank :: (rhs.pieces ++ qs))) = some op from hop]
    dsimp only
    rw [if_neg (Nat.not_lt_of_le hmin)]
    refine .nested ht fun t ht => ?_
    have hfold : Reads l (wrapped .binaryOp do advance; newlines; let _ ← rule (.binary (op.precedence + 1))) t m' qs fun _ xs =>
        ∃ tree, tree.Spells (.binary op lhs rhs) ∧ xs = [tree] := by
      refine .wrapped ht fun t ht => .advance ht hsolid fun t ht => .newlines ht.faces.blank (sharp_pieces hr.proper qs) fun t ht => ?_
      refine .bind (hr.binary (fun o ho => hright o ho) (by omega) hqs hweaker ht.faces) fun k r' t h ht => ?_
      obtain ⟨-, y, hy, hr'⟩ := h
      exact .done ht fun cs hcs => ⟨_, spells_binary (hcs.trans hr') hx hy, rfl⟩
    refine .bind hfold fun _ xs t h ht => ?_
    obtain ⟨tree, htree, rfl⟩ := h
    exact hrest _ _ t tree htree (by omega) ht

/-! ## Groups and lists -/

theorem arithmeticFirst_firstKind {e : Phrase} (he : e.Proper) (qs : List (Kind × Text)) :
    KindSet.arithmeticFirst.contains (firstKind (e.pieces ++ qs)) = true := by
  obtain ⟨k, x, ps, hps, hk, -⟩ := exists_first_piece he
  rw [hps]
  exact hk

/-- What comes before the end or a closing parenthesis is no target, so an operator expression there is all there is. -/
theorem reads_assignment {ps : List (Kind × Text)} {k₀ : Kind} {R : Tree → Prop}
    (hps : KindSet.arithmeticFirst.contains (firstKind ps) = true) (hk : k₀ ≠ .noop)
    (hqs : aheadKind qs = .parenClose ∨ aheadKind qs = .error) (h : s.Faces m b ps r)
    (hbinary : ∀ l t, t.Faces m b ps [] → Reads l (rule (.binary 0)) t m qs (YieldsTree k₀ R [])) :
    Reads n (rule .assignment) s m qs (YieldsTree k₀ R r) := by
  obtain ⟨hnewline, hassign, hcomma⟩ : aheadKind qs ≠ .newline ∧ KindSet.assignOperators.contains (aheadKind qs) = false ∧
      aheadKind qs ≠ .comma := by
    rcases hqs with hqs | hqs <;> rw [hqs] <;> decide
  have hunderscore : (firstKind ps == .underscore) = false := by
    refine beq_eq_false_iff_ne.mpr fun hk => ?_
    rw [hk] at hps
    cases hps
  have htarget {l : Nat} {t : State} (ht : t.Faces m b ps []) : Reads l target t m qs (YieldsTree k₀ R []) := by
    refine .peekIs ht (solid_of_arithmeticFirst hps) fun t ht => ?_
    rw [hunderscore]
    exact hbinary l t ht.faces
  refine .rule fun l => .marked h fun t ht => .bind (htarget ht) fun k r' t ⟨hkind, tree, htree, hr'⟩ ht => ?_
  refine .peekPast ht hnewline fun t ht => ?_
  rw [if_neg (by rw [hassign]; decide), if_neg hcomma, if_neg (hkind ▸ hk)]
  exact .done ht ⟨hkind, tree, htree, by rw [hr']; rfl⟩

theorem Readable.assignment {e : Phrase} (he : Readable e) (hroom : e.size ≤ m)
    (hqs : aheadKind qs = .parenClose ∨ aheadKind qs = .error) (h : s.Faces m b (e.pieces ++ qs) r) :
    Reads n (rule .assignment) s m qs (Yields e r) := by
  obtain ⟨hfence, hnone⟩ : isFence (aheadKind qs) = true ∧ BinaryOperator.ofKind? (aheadKind qs) = none := by
    rcases hqs with hqs | hqs <;> rw [hqs] <;> decide
  have hnoop : e.kind ≠ .noop := by cases e <;> exact fun h => by cases h
  refine reads_assignment (arithmeticFirst_firstKind he.proper qs) hnoop hqs h fun l t ht => ?_
  exact he.binary (fun _ _ => Nat.zero_le _) hroom hfence (fun o ho => by rw [hnone] at ho; cases ho) ht

theorem Readable.group {e : Phrase} (he : Readable e) (hroom : e.size ≤ m) {o c : Text}
    (h : s.Before m b ((.parenOpen, o) :: (e.pieces ++ (.parenClose, c) :: qs)) r) :
    Reads n group s m qs (Yields (.group e) r) := by
  have hinner {t : State} (ht : t.Before m true (e.pieces ++ (.parenClose, c) :: qs) [.leaf .parenOpen o]) :
      Reads n (separating false do
        let k ← peek
        if KindSet.arithmeticFirst.contains k || k = .underscore then
          let _ ← rule .assignment
        else reportFound .expectedExpression none
        close .parenClose) t m qs fun _ xs => ∃ tree, tree.Spells e ∧ xs = [.leaf .parenOpen o, tree, .leaf .parenClose c] := by
    refine .separating ht fun t ht => .peek ht.faces (sharp_pieces he.proper _) fun t ht => ?_
    rw [arithmeticFirst_firstKind he.proper]
    refine .bind (he.assignment hroom (.inl rfl) ht.faces) fun k xs t ⟨_, tree, htree, hxs⟩ ht => ?_
    refine (Reads.close ht (by decide)).imp fun _ ys hys => ⟨tree, htree, ?_⟩
    rw [hys, hxs]
    rfl
  refine .node h fun t ht => .pushDelimiter ht.faces (sharp_cons (by decide) _ _) fun t ht => .advance ht (by decide) fun t ht => ?_
  refine .bind (hinner ht) fun _ xs t ⟨tree, htree, hxs⟩ ht => .done ht fun cs hcs => ?_
  exact ⟨rfl, _, spells_group (hcs.trans hxs) htree, rfl⟩

/-- The lists whose items are phrases. -/
def ofPhrases : ItemList → Bool
  | .elements | .arguments => true
  | .entries | .parameters => false

/-- What comes after an item is no part of it. -/
theorem isFence_item {list : ItemList} (hlist : ofPhrases list = true) {k : Kind} (hk : k = .comma ∨ k = list.closer) :
    isFence k = true ∧ BinaryOperator.ofKind? k = none := by
  rcases hk with rfl | rfl
  · decide
  · revert hlist
    cases list <;> decide

theorem Readable.element {e : Phrase} (he : Readable e) (hroom : e.size ≤ m)
    (hqs : isFence (aheadKind qs) = true ∧ BinaryOperator.ofKind? (aheadKind qs) = none) (h : s.Faces m b (e.pieces ++ qs) r) :
    Reads n element s m qs fun found r' => found = true ∧ ∃ t, t.Spells e ∧ r' = r ++ [t] := by
  refine .peek h (sharp_pieces he.proper qs) fun t ht => ?_
  rw [arithmeticFirst_firstKind he.proper]
  refine .bind (he.binary (fun _ _ => Nat.zero_le _) hroom hqs.1 (fun o ho => ?_) ht.faces) fun k r' t ⟨_, hr'⟩ ht => .done ht ⟨rfl, hr'⟩
  rw [hqs.2] at ho
  cases ho

/-- The name of an argument has a colon after it. -/
theorem not_namesArgument {e : Phrase} (he : e.Proper) (hqs : aheadKind qs ≠ .colon)
    (hword : firstKind e.pieces = .id ∨ (firstKind e.pieces).isKeyword = true) {ts : List Token} (h : Placed b (e.pieces ++ qs) ts) :
    Lookahead.namesArgument.holds ts = false := by
  have hcolon := unnamed he hqs hword
  obtain ⟨k, x, ps, hps, -⟩ := exists_first_piece he
  rw [hps, List.cons_append] at h hcolon
  obtain ⟨t, rest, rfl, -, -, -, hrest⟩ := h.uncons
  show Lookahead.startsWith .colon (Lookahead.significant false rest) = false
  rw [startsWith_eq hrest (by decide)]
  exact decide_eq_false hcolon

theorem Readable.item {e : Phrase} (he : Readable e) {list : ItemList} (hlist : ofPhrases list = true) (hroom : e.size ≤ m)
    (hqs : aheadKind qs = .comma ∨ aheadKind qs = list.closer) (h : s.Faces m b (e.pieces ++ qs) r) :
    Reads n (item list) s m qs fun found r' => found = true ∧ ∃ t, t.Spells e ∧ r' = r ++ [t] := by
  have hfence := isFence_item hlist hqs
  cases list with
  | elements => exact he.element hroom hfence h
  | arguments =>
    refine .peek h (sharp_pieces he.proper qs) fun t ht => ?_
    rw [firstKind_pieces he.proper]
    split
    · rename_i hword
      rw [Bool.or_eq_true, decide_eq_true_iff] at hword
      obtain ⟨-, -, -, -, -, -, -, hcolon, -⟩ := isFence_spec hfence.1
      exact .ahead ht (fun ts => not_namesArgument he.proper hcolon hword) (he.element hroom hfence ht.faces)
    · exact he.element hroom hfence ht.faces
  | _ => cases hlist

theorem closer_spec {list : ItemList} (hlist : ofPhrases list = true) :
    Solid list.closer ∧ list.closer ≠ .comma ∧ KindSet.arithmeticFirst.contains list.closer = false := by
  revert hlist
  cases list <;> decide

/-- One item of a list, and what comes after it. -/
theorem Readable.items {e : Phrase} (he : Readable e) {list : ItemList} (hlist : ofPhrases list = true) (hroom : e.size ≤ m)
    {ps : List (Kind × Text)} {X : Unit → List Tree → Prop} (hsharp : Sharp ps) (hps : firstKind ps = .comma ∨ firstKind ps = list.closer)
    (h : s.Faces m b (e.pieces ++ ps) r)
    (hmore : ∀ (l : Nat) (t : State) (tree : Tree), tree.Spells e → t.Before m true ps (r ++ [tree]) →
      Reads l (eat .comma >>= fun found => if found then rule (.items list) else pure ()) t m qs X) :
    Reads n (rule (.items list)) s m qs X := by
  have hpieces := sharp_pieces he.proper ps
  have hne : e.pieces ++ ps ≠ [] := by
    obtain ⟨k, x, ps', hps', -⟩ := exists_first_piece he.proper
    rw [hps']
    exact List.cons_ne_nil _ _
  have hcloser : (firstKind (e.pieces ++ ps) == list.closer) = false := by
    refine beq_eq_false_iff_ne.mpr fun hk => ?_
    have hfirst := arithmeticFirst_firstKind he.proper ps
    rw [hk, (closer_spec hlist).2.2] at hfirst
    cases hfirst
  refine .rule fun l => .newlines h hpieces fun t ht => .stopped ht hne <| .peekIs ht.faces hpieces fun t ht => ?_
  rw [hcloser]
  refine .bind (he.item hlist hroom (hsharp.aheadKind ▸ hps) ht.faces) fun found r' t ⟨hfound, tree, htree, hr'⟩ ht => ?_
  rw [hfound]
  rw [hr'] at ht
  exact .newlines ht hsharp fun t ht => hmore l t tree htree ht

/-- A row of items, up to what closes the list. -/
theorem reads_items {list : ItemList} (hlist : ofPhrases list = true) {c : Text} {e : Phrase} {es ds : List Phrase}
    (hes : ∀ x ∈ e :: es, Readable x) (hroom : sizeOfAll (e :: es) ≤ m) (hr : SpellsItems r ds)
    (h : s.Faces m b (piecesOf (e :: es) ++ (list.closer, c) :: qs) r) :
    Reads n (rule (.items list)) s m ((list.closer, c) :: qs) fun _ r' => SpellsItems r' (ds ++ e :: es) := by
  obtain ⟨hsolid, hcomma, -⟩ := closer_spec hlist
  induction es generalizing n s b r e ds with
  | nil =>
    rw [piecesOf, morePieces, List.append_nil] at h
    rw [sizeOfAll, sizeOfAll] at hroom
    refine (hes e List.mem_cons_self).items hlist hroom (sharp_cons hsolid _ _) (.inr rfl) h fun l t tree htree ht => ?_
    rw [eat_bind]
    refine .peek ht.faces hsolid fun t ht => ?_
    rw [if_neg (by simpa [firstKind] using hcomma)]
    exact .done ht.faces (hr.append (.single htree))
  | cons e' es ih =>
    rw [piecesOf, List.append_assoc] at h
    rw [sizeOfAll] at hroom
    refine (hes e List.mem_cons_self).items hlist (by omega) (sharp_cons (by decide) _ _) (.inl rfl) h fun l t tree htree ht => ?_
    rw [eat_bind]
    refine .peek ht.faces (sharp_cons (by decide) _ _) fun t ht => .advance ht (by decide) fun t ht => ?_
    have hrow : SpellsItems (r ++ [tree] ++ [.leaf .comma [',']]) (ds ++ [e] ++ []) := (hr.append (.single htree)).append .leaf
    refine (ih (fun x hx => hes x (List.mem_cons_of_mem _ hx)) (by omega) hrow ht.faces.blank).imp fun _ r' hr' => ?_
    simpa using hr'

/-- A list between its delimiters. -/
theorem reads_delimited {list : ItemList} (hlist : ofPhrases list = true) {opener : Kind} (hopener : Solid opener) {o c : Text}
    {es : List Phrase} (hes : ∀ x ∈ es, Readable x) (hroom : sizeOfAll es ≤ m)
    (h : s.Before m b ((opener, o) :: (piecesOf es ++ (list.closer, c) :: qs)) []) :
    Reads n (delimited opener list) s m qs fun _ r' => SpellsItems r' es := by
  obtain ⟨hsolid, -⟩ := closer_spec hlist
  have hitems {t : State} (ht : t.Before m true (piecesOf es ++ (list.closer, c) :: qs) [.leaf opener o]) :
      Reads n (rule (.items list)) t m ((list.closer, c) :: qs) fun _ r' => SpellsItems r' es := by
    cases es with
    | nil =>
      refine .rule fun l => .newlines ht.faces hsolid fun t ht => .stopped ht (List.cons_ne_nil _ _) ?_
      refine .peekIs ht.faces hsolid fun t ht => ?_
      rw [show (firstKind (piecesOf [] ++ (list.closer, c) :: qs) == list.closer) = true from beq_self_eq_true list.closer]
      exact .done ht.faces .leaf
    | cons e es => exact reads_items hlist hes hroom .leaf ht.faces
  refine .pushDelimiter h.faces hopener fun t ht => .advance ht hopener fun t ht => .separating ht fun t ht => ?_
  refine .bind (hitems ht) fun _ r' t hr' ht => (Reads.close ht hsolid).imp fun _ xs hxs => ?_
  rw [hxs, ← List.append_nil es]
  exact hr'.append .leaf

theorem reads_array {es : List Phrase} {o c : Text} (hes : ∀ x ∈ es, Readable x) (hroom : sizeOfAll es ≤ m)
    (h : s.Before m b ((.bracketOpen, o) :: (piecesOf es ++ (.bracketClose, c) :: qs)) r) :
    Reads n array s m qs (Yields (.array es) r) := by
  have hlist {t : State} (ht : t.Before m b ((.bracketOpen, o) :: (piecesOf es ++ (ItemList.elements.closer, c) :: qs)) []) :=
    reads_delimited (n := n) rfl (by decide) hes hroom ht
  refine .node h fun t ht => .bind (hlist ht) fun _ r' t hr' ht => ?_
  exact .done ht fun cs hcs => ⟨rfl, _, spells_array (hcs ▸ hr'), rfl⟩

theorem reads_argumentList {es : List Phrase} {o c : Text} (hes : ∀ x ∈ es, Readable x) (hroom : sizeOfAll es ≤ m)
    (h : s.Before m b ((.parenOpen, o) :: (piecesOf es ++ (.parenClose, c) :: qs)) r) :
    Reads n argumentList s m qs fun _ r' => ∃ as, SpellsItems (Tree.solid as) es ∧ r' = r ++ [.node .argumentList as] := by
  refine .node h fun t ht => .require ht.faces (sharp_cons (by decide) _ _) rfl fun t ht => ?_
  have ht : t.Before m b ((.parenOpen, o) :: (piecesOf es ++ (ItemList.arguments.closer, c) :: qs)) [] := ht
  refine (reads_delimited rfl (by decide) hes hroom ht).imp fun _ r' hr' cs hcs => ⟨cs, ?_, rfl⟩
  rw [hcs]
  exact hr'

theorem reads_call {name o c : Text} {fallible : Bool} {es : List Phrase} (hes : ∀ x ∈ es, Readable x) (hroom : sizeOfAll es ≤ m)
    (hqs : isEdge (aheadKind qs) = true)
    (h : s.Before m b ((.id, name) :: ((if fallible then [(.bang, ['!'])] else []) ++
      (.parenOpen, o) :: (piecesOf es ++ (.parenClose, c) :: qs))) r) :
    Reads n identOrCall s m qs (Yields (.call name fallible es) r) := by
  obtain ⟨hnewline, -, -, harrow⟩ := isEdge_spec hqs
  have harguments {t : State}
      (ht : t.Before m true ((.parenOpen, o) :: (piecesOf es ++ (.parenClose, c) :: qs))
        (.leaf .id name :: (if fallible then [.leaf .bang ['!']] else []))) :
      Reads n (do
        argumentList
        if ← peekIs .arrow then closure
        return .functionCall) t m qs fun k r' => ∀ cs, Tree.solid cs = r' →
          Yields (.call name fallible es) r k (r ++ [.node .functionCall cs]) := by
    refine .bind (reads_argumentList hes hroom ht) fun _ r' t ⟨as, has, hr'⟩ ht => .peekIsPast ht hnewline fun t ht => ?_
    rw [beq_eq_false_iff_ne.mpr harrow]
    exact .done ht fun cs hcs => ⟨rfl, _, spells_call (hcs.trans hr') has, rfl⟩
  refine .require h.faces (sharp_cons (by decide) _ _) rfl fun t ht => .ahead ht (fun ts => startsCall) ?_
  refine .node ht fun t ht => .advance ht (by decide) fun t ht => ?_
  rw [eat_bind]
  cases fallible with
  | false => exact .peek ht.faces (sharp_cons (by decide) _ _) fun t ht => harguments ht
  | true =>
    exact .peek ht.faces (sharp_cons (by decide) _ _) fun t ht => .advance ht (by decide) fun t ht => harguments ht

/-- A term is an operand. -/
theorem reads_unary {ps : List (Kind × Text)} {X : Kind → List Tree → Prop} (hps : Sharp ps) (hbang : firstKind ps ≠ .bang)
    (h : s.Faces m b ps r) (hreads : ∀ l t, t.Before m b ps r → Reads l term t m qs X) : Reads n (rule .unary) s m qs X := by
  refine .rule fun l => .newlines h hps fun t ht => .peekIs ht.faces hps fun t ht => ?_
  rw [beq_eq_false_iff_ne.mpr hbang]
  exact hreads l t ht

theorem reads_unary_term {e : Phrase} (he : e.Proper) (hterm : e.isTerm = true) (h : s.Faces m b (e.pieces ++ qs) r)
    (hreads : ∀ l t, t.Before m b (e.pieces ++ qs) r → Reads l term t m qs (Yields e r)) : Reads n (rule .unary) s m qs (Yields e r) := by
  obtain ⟨k, x, ps, hps, -, hbang⟩ := exists_first_piece he
  refine reads_unary (sharp_pieces he qs) ?_ h hreads
  rw [hps]
  exact hbang hterm

/-- A `!` and its operand. -/
theorem Readable.of_negation {e : Phrase} (he : Readable e) (hop : e.operator? = none) : Readable (.negation e) := by
  refine .of_operand (.negation he.proper hop) (fun h => (by cases h)) fun {n m s b qs r} hroom hqs h => ?_
  rw [size] at hroom
  obtain ⟨m, rfl⟩ : ∃ l, m = l + 1 := ⟨m - 1, by omega⟩
  have hsharp : Sharp ((.bang, ['!']) :: (e.pieces ++ qs)) := sharp_cons (by decide) _ _
  refine .rule fun l => .newlines h hsharp fun t ht => .peekIs ht.faces hsharp fun t ht => .nested ht fun t ht => .node ht fun t ht => ?_
  refine .advance ht (by decide) fun t ht => .newlines ht.faces (sharp_pieces he.proper qs) fun t ht => ?_
  refine .bind (he.unary hop (by omega) hqs ht.faces) fun k r' t ⟨_, tree, htree, hr'⟩ ht => .done ht fun cs hcs => ?_
  exact ⟨rfl, _, spells_negation (hcs.trans hr') htree, rfl⟩

/-- A term that no path starts from. -/
theorem Readable.of_term {e : Phrase} (he : e.Proper) (hterm : e.isTerm = true) (hroot : e.isRoot = false)
    (h : ∀ {n m : Nat} {s : State} {b : Bool} {qs : List (Kind × Text)}, isFence (aheadKind qs) = true → s.Before m b (e.pieces ++ qs) [] →
      Reads n (termFrom (firstKind e.pieces)) s m qs (Yields e [])) : Readable e := by
  refine .of_operand he (fun hr => (by cases hroot.symm.trans hr)) fun hroom hqs hfaces => ?_
  refine reads_unary_term he hterm hfaces fun l t ht => ?_
  obtain ⟨m, rfl⟩ := Nat.exists_eq_add_of_le' (Nat.le_trans e.size_pos hroom)
  exact reads_phrase_term he hqs ht fun t ht => h hqs ht

theorem isEdge_of_isFence {k : Kind} (h : isFence k = true) : isEdge k = true := by
  rw [isEdge, h]
  rfl

/-- A term that a path may start from. -/
theorem Readable.of_root {e : Phrase} (he : e.Proper) (hroot : e.isRoot = true)
    (h : ∀ {n m : Nat} {s : State} {b : Bool} {qs : List (Kind × Text)}, e.size ≤ m + 1 → isEdge (aheadKind qs) = true →
      s.Before m b (e.pieces ++ qs) [] → Reads n (termFrom (firstKind e.pieces)) s m qs (Yields e [])) : Readable e := by
  refine .of_operand he (fun _ => h) fun hroom hqs hfaces => reads_unary_term he (isTerm_of_isRoot hroot) hfaces fun l t ht => ?_
  obtain ⟨m, rfl⟩ := Nat.exists_eq_add_of_le' (Nat.le_trans e.size_pos hroom)
  exact reads_phrase_term he hqs ht fun t ht => h hroom (isEdge_of_isFence hqs) ht

/-- What a path starts from, and the path. -/
theorem Readable.of_internal {root : Phrase} {path : List Segment} (he : Readable root) (hr : root.isRoot = true) (hne : path ≠ [])
    (hpath : ∀ x ∈ path, Plain x) : Readable (.internal root path) := by
  have hproper : (Phrase.internal root path).Proper := .internal he.proper hr hne hpath
  refine .of_operand hproper (fun h => (by cases h)) fun {n m s b qs r} hroom hqs h => reads_unary_term hproper rfl h fun l t ht => ?_
  rw [size] at hroom
  obtain ⟨m, rfl⟩ := Nat.exists_eq_add_of_le' (Nat.le_trans (Nat.le_add_left 1 _) hroom)
  rw [pieces, List.append_assoc] at ht
  refine reads_internal he.proper hr hne hpath hqs ht fun t ht => he.root hr (by omega) ?_ ht
  obtain ⟨k, x, ps, hps, hk⟩ := exists_segment_piece hne
  rw [hps]
  rcases hk with rfl | rfl <;> rfl

/-- Every phrase that is written as it is read can be read. -/
theorem readable {e : Phrase} (he : e.Proper) : Readable e := by
  induction he with
  | ident hname => exact .of_root (.ident hname) rfl fun _ hqs h => reads_ident hqs h
  | @integer i hi =>
    have hliteral : termFrom (firstKind (Phrase.integer i).pieces) = literal := by
      rw [pieces, integerPieces]
      split <;> rfl
    refine .of_term (.integer hi) rfl rfl fun _ h => ?_
    rw [hliteral]
    exact reads_integer hi h
  | boolean value =>
    have hliteral : termFrom (firstKind (Phrase.boolean value).pieces) = literal := by
      cases value <;> rfl
    refine .of_term (.boolean value) rfl rfl fun _ h => ?_
    rw [hliteral]
    exact reads_boolean value h
  | null => exact .of_term .null rfl rfl fun _ h => reads_null h
  | event hpath =>
    refine .of_term (.event hpath) rfl rfl fun hqs h => ?_
    exact reads_externalQuery (by decide) hpath hqs h rfl fun cs rest hcs hrest => spells_event hcs hrest
  | metadata hpath =>
    refine .of_term (.metadata hpath) rfl rfl fun hqs h => ?_
    exact reads_externalQuery (by decide) hpath hqs h rfl fun cs rest hcs hrest => spells_metadata hcs hrest
  | internal _ hr hne hpath ih => exact .of_internal ih hr hne hpath
  | group hinner ih =>
    refine .of_root (.group hinner) rfl fun hroom _ h => ?_
    rw [size] at hroom
    rw [pieces, List.cons_append, List.append_assoc] at h
    exact ih.group (by omega) h
  | array hes ih =>
    refine .of_root (.array hes) rfl fun hroom _ h => ?_
    rw [size] at hroom
    rw [pieces, List.cons_append, List.append_assoc] at h
    exact reads_array ih (by omega) h
  | call fallible hname hes ih =>
    refine .of_root (.call fallible hname hes) rfl fun hroom hqs h => ?_
    rw [size] at hroom
    rw [pieces, List.cons_append, List.append_assoc, List.cons_append, List.append_assoc] at h
    exact reads_call ih (by omega) hqs h
  | negation _ hop ih => exact ih.of_negation hop
  | binary hl hr hleft hright ihl ihr => exact .of_binary (.binary hl hr hleft hright) ihl ihr hleft hright

end Parser

end Remap
