import Remap.Proofs.Parser.Reads

/-!
# Reading literals and paths

The routines for literals, for paths and for the queries that begin with a root of their own, where what is ahead is written
without quotes. A path ends where what comes next is no segment.
-/

namespace Remap.Parser

open Phrase

variable {n m : Nat} {s : State} {b : Bool} {r : List Tree} {qs : List (Kind × Text)}

/-! ## Literals -/

/-- A tree of which `R` holds was added to the row, for a node of kind `k₀`. -/
def YieldsTree (k₀ : Kind) (R : Tree → Prop) (r : List Tree) (k : Kind) (r' : List Tree) : Prop := k = k₀ ∧ ∃ t, R t ∧ r' = r ++ [t]

/-- A phrase was added to the row. -/
def Yields (e : Phrase) (r : List Tree) (k : Kind) (r' : List Tree) : Prop := k = e.kind ∧ ∃ t, t.Spells e ∧ r' = r ++ [t]

/-- A literal of one token that is no sign. -/
theorem reads_simpleLiteral {R : Tree → Prop} {k₀ k : Kind} {x : Text} (h : s.Before m b ((k, x) :: qs) r) (hk : Solid k)
    (hsign : k ≠ .minus) (hR : ∀ cs, Tree.solid cs = [.leaf k x] → R (.node k₀ cs)) :
    Reads n (simpleLiteral k₀) s m qs (YieldsTree k₀ R r) := by
  refine .node h fun t ht => .peekIs ht.faces hk fun t ht => ?_
  rw [if_neg (by simpa [firstKind] using hsign)]
  exact .advance ht hk fun t ht => .done ht.faces fun cs hcs => ⟨rfl, _, hR cs hcs, rfl⟩

theorem holds_signs {x y : Text} {ts : List Token} (h : Placed b ((.minus, x) :: (.integer, y) :: qs) ts) :
    (Lookahead.signs .integer).holds ts = true := by
  obtain ⟨t, _, rfl, -, -, -, h⟩ := h.uncons
  obtain ⟨u, _, rfl, hu, -, himmediate, -⟩ := h.uncons
  have himmediate : u.immediate = true := himmediate
  simp [Lookahead.holds, hu, himmediate]

theorem reads_integer {i : Int} (hi : Fits i) (h : s.Before m b (integerPieces i ++ qs) r) :
    Reads n literal s m qs (Yields (.integer i) r) := by
  have hspells (cs : List Tree) (hcs : Tree.solid cs = (integerPieces i).map leafOf) := spells_integer hi hcs
  by_cases hneg : i < 0
  · rw [integerPieces, if_pos hneg] at h hspells
    refine .peek h.faces (sharp_cons (by decide) _ _) fun t ht => .ahead ht (fun ts => holds_signs) ?_
    refine .node ht fun t ht => .peekIs ht.faces (sharp_cons (by decide) _ _) fun t ht => .advance ht (by decide) fun t ht => ?_
    exact .advance ht (by decide) fun t ht => .done ht.faces fun cs hcs => ⟨rfl, _, hspells cs hcs, rfl⟩
  · rw [integerPieces, if_neg hneg] at h hspells
    refine .peek h.faces (sharp_cons (by decide) _ _) fun t ht => ?_
    exact reads_simpleLiteral ht (by decide) (by decide) hspells

theorem reads_boolean (value : Bool) (h : s.Before m b ((Phrase.boolean value).pieces ++ qs) r) :
    Reads n literal s m qs (Yields (.boolean value) r) := by
  cases value with
  | true =>
    refine .peek h.faces (sharp_cons (by decide) _ _) fun t ht => ?_
    exact reads_simpleLiteral ht (by decide) (by decide) fun cs hcs => spells_boolean hcs
  | false =>
    refine .peek h.faces (sharp_cons (by decide) _ _) fun t ht => ?_
    exact reads_simpleLiteral ht (by decide) (by decide) fun cs hcs => spells_boolean hcs

theorem reads_null (h : s.Before m b (Phrase.null.pieces ++ qs) r) : Reads n literal s m qs (Yields .null r) := by
  refine .peek h.faces (sharp_cons (by decide) _ _) fun t ht => ?_
  exact reads_simpleLiteral ht (by decide) (by decide) fun cs _ => spells_null

/-! ## Paths -/

/-- A field name is no blank and no quote. -/
theorem solid_fieldKind (name : Text) : Solid (fieldKind name) ∧ fieldKind name ≠ .doubleQuote := by
  have hall : ∀ k ∈ .pathField :: Lexeme.wordKinds, Solid k ∧ k ≠ .doubleQuote := by decide
  exact hall _ (fieldKind_mem name)

/-- A segment was added to the row. -/
def YieldsSegment (x : Segment) (r : List Tree) (_ : Unit) (r' : List Tree) : Prop := ∃ t, t.SpellsSegment x ∧ r' = r ++ [t]

/-- The name of a field, which needs no quotes. -/
theorem reads_fieldName {name : Text} {X : Unit → List Tree → Prop} (h : s.Faces m b (namePiece name :: qs) r)
    (hX : X () (r ++ [leafOf (namePiece name)])) : Reads n fieldName s m qs X := by
  obtain ⟨hsolid, hquote⟩ := solid_fieldKind name
  refine .peekIs h hsolid fun t ht => ?_
  rw [if_neg (by simpa [firstKind, namePiece] using hquote)]
  refine Returns.imp (Reads.of_advance ht hsolid fun t ht => ?_) fun _ _ h => h
  exact ⟨_, hX, ht.faces⟩

theorem reads_fieldSegment {name d : Text} (h : s.Before m b ((.dot, d) :: namePiece name :: qs) r) :
    Reads n fieldSegment s m qs (YieldsSegment (.field (some name) false) r) := by
  obtain ⟨hsolid, -⟩ := solid_fieldKind name
  have hname : (fieldKind name).isFieldName = true := isFieldName_fieldKind name
  refine .node h fun t ht => .require ht.faces (sharp_cons (by decide) _ _) rfl fun t ht => .advance ht (by decide) fun t ht => ?_
  refine .peek ht.faces hsolid fun t ht => ?_
  rw [if_pos (by simp [firstKind, namePiece, hname])]
  refine .touches ht hsolid fun t ht => ?_
  refine reads_fieldName ht.faces fun cs hcs => ⟨_, spellsSegment_field hcs fun t ht => ?_, rfl⟩
  exact ⟨d, List.mem_singleton.mp ht⟩

theorem reads_indexSegment {i : Int} (hi : Fits i) {o c : Text}
    (h : s.Before m b ((.bracketOpen, o) :: (integerPieces i ++ (.bracketClose, c) :: qs)) r) :
    Reads n indexSegment s m qs (YieldsSegment (.index (some i)) r) := by
  have hspells (cs : List Tree) (hcs : Tree.solid cs = .leaf .bracketOpen o :: ((integerPieces i).map leafOf ++ [.leaf .bracketClose c])) :=
    spellsSegment_index hi hcs
  refine .node h fun t ht => .pushDelimiter ht.faces (sharp_cons (by decide) _ _) fun t ht => .advance ht (by decide) fun t ht => ?_
  by_cases hneg : i < 0
  · rw [integerPieces, if_pos hneg] at ht hspells
    refine .newlines ht.faces (sharp_cons (by decide) _ _) fun t ht => .peek ht.faces (sharp_cons (by decide) _ _) fun t ht => ?_
    refine .ahead ht (fun ts => holds_signs) <| .advance ht (by decide) fun t ht => .advance ht (by decide) fun t ht => ?_
    refine .newlines ht.faces (sharp_cons (by decide) _ _) fun t ht => ?_
    exact (Reads.close ht.faces (by decide)).imp fun _ r' hr' cs hcs => ⟨_, hspells cs (hcs.trans hr'), rfl⟩
  · rw [integerPieces, if_neg hneg] at ht hspells
    refine .newlines ht.faces (sharp_cons (by decide) _ _) fun t ht => .peek ht.faces (sharp_cons (by decide) _ _) fun t ht => ?_
    refine .advance ht (by decide) fun t ht => .newlines ht.faces (sharp_cons (by decide) _ _) fun t ht => ?_
    exact (Reads.close ht.faces (by decide)).imp fun _ r' hr' cs hcs => ⟨_, hspells cs (hcs.trans hr'), rfl⟩

/-- What may come after a phrase: the end, a comma, a closing delimiter or an operator. -/
def isFence (k : Kind) : Bool :=
  [.error, .comma, .parenClose, .bracketClose].contains k || (BinaryOperator.ofKind? k).isSome

/-- What comes after a phrase goes on with none of what could be part of it. -/
theorem isFence_spec {k : Kind} (h : isFence k = true) : Solid k ∧ k ≠ .dot ∧ k ≠ .bracketOpen ∧ k ≠ .parenOpen ∧ k ≠ .bang ∧
    k ≠ .arrow ∧ k ≠ .doubleQuote ∧ k ≠ .colon ∧ k.isFieldName = false := by
  revert h
  cases k <;> decide

/-- Segments were added to the row. -/
def YieldsSegments (path : List Segment) (r : List Tree) (_ : Unit) (r' : List Tree) : Prop :=
  ∃ ts, List.Forall₂ Tree.SpellsSegment ts path ∧ r' = r ++ ts

theorem atSegment_stop {α : Type} {f : Bool → Routine α} {X : α → List Tree → Prop} {ps : List (Kind × Text)}
    (h : s.Faces m b ps r) (hps : isFence (aheadKind ps) = true)
    (hf : ∀ t, t.Faces m b ps r → Reads n (f false) t m qs X) : Reads n (atSegment >>= f) s m qs X := by
  obtain ⟨hsolid, hdot, hbracket, -⟩ := isFence_spec hps
  rw [atSegment_bind]
  refine .peekPast h hsolid.2 fun t ht => ?_
  rw [if_neg (by simp [hdot, hbracket])]
  exact hf t ht

theorem atSegment_go {α : Type} {f : Bool → Routine α} {X : α → List Tree → Prop} {k : Kind} {x : Text} {ps : List (Kind × Text)}
    (h : s.Faces m true ((k, x) :: ps) r) (hk : k = .dot ∨ k = .bracketOpen)
    (hf : ∀ t, t.Before m true ((k, x) :: ps) r → Reads n (f true) t m qs X) : Reads n (atSegment >>= f) s m qs X := by
  have hsolid : Solid k := by rcases hk with rfl | rfl <;> decide
  rw [atSegment_bind]
  refine .peek h hsolid fun t ht => ?_
  rw [if_pos (by rcases hk with rfl | rfl <;> rfl)]
  exact .touches ht hsolid hf

theorem atFirstSegment_stop {α : Type} {f : Bool → Routine α} {X : α → List Tree → Prop} {ps : List (Kind × Text)}
    (h : s.Faces m b ps r) (hps : isFence (aheadKind ps) = true)
    (hf : ∀ t, t.Faces m b ps r → Reads n (f false) t m qs X) : Reads n (atFirstSegment >>= f) s m qs X := by
  obtain ⟨hsolid, -, hbracket, -, -, -, hquote, -, hfield⟩ := isFence_spec hps
  rw [atFirstSegment_bind]
  refine .peekPast h hsolid.2 fun t ht => ?_
  rw [if_neg (by simp [hfield, hquote, hbracket])]
  exact hf t ht

theorem atFirstSegment_go {α : Type} {f : Bool → Routine α} {X : α → List Tree → Prop} {k : Kind} {x : Text}
    {ps : List (Kind × Text)} (h : s.Faces m true ((k, x) :: ps) r) (hsolid : Solid k) (hk : k.isFieldName = true ∨ k = .bracketOpen)
    (hf : ∀ t, t.Before m true ((k, x) :: ps) r → Reads n (f true) t m qs X) : Reads n (atFirstSegment >>= f) s m qs X := by
  rw [atFirstSegment_bind]
  refine .peek h hsolid fun t ht => ?_
  have hcond : ((firstKind ((k, x) :: ps)).isFieldName || decide (firstKind ((k, x) :: ps) = .doubleQuote) ||
      decide (firstKind ((k, x) :: ps) = .bracketOpen)) = true := by
    rcases hk with hk | rfl
    · simp [firstKind, hk]
    · rfl
  rw [if_pos hcond]
  exact .touches ht hsolid hf

theorem reads_pathSegments {path : List Segment} (hpath : ∀ x ∈ path, Plain x) (hqs : isFence (aheadKind qs) = true)
    (h : s.Faces m true (path.flatMap segmentPieces ++ qs) r) :
    Reads n (rule .pathSegments) s m qs (YieldsSegments path r) := by
  induction path generalizing n s r with
  | nil => exact .rule fun l => atSegment_stop h hqs fun t ht => .done ht ⟨[], .nil, (List.append_nil r).symm⟩
  | cons x path ih =>
    have hmore {l : Nat} {u : State} {t : Tree} (ht : t.SpellsSegment x)
        (hu : u.Faces m true (path.flatMap segmentPieces ++ qs) (r ++ [t])) :
        Reads l (rule .pathSegments) u m qs (YieldsSegments (x :: path) r) := by
      refine (ih (fun y hy => hpath y (List.mem_cons_of_mem _ hy)) hu).imp fun _ r' h => ?_
      obtain ⟨ts, hts, hr'⟩ := h
      exact ⟨t :: ts, .cons ht hts, by rw [hr', List.append_assoc]; rfl⟩
    cases hpath x List.mem_cons_self with
    | field hname =>
      refine .rule fun l => atSegment_go h (.inl rfl) fun t ht => .peekIs ht.faces (sharp_cons (by decide) _ _) fun t ht => ?_
      refine .bind (reads_fieldSegment ht) fun _ r' t h ht => ?_
      obtain ⟨tree, htree, rfl⟩ := h
      exact hmore htree ht
    | index hi =>
      rw [List.flatMap_cons, segmentPieces, List.append_assoc, List.cons_append, List.append_assoc] at h
      refine .rule fun l => atSegment_go h (.inr rfl) fun t ht => .peekIs ht.faces (sharp_cons (by decide) _ _) fun t ht => ?_
      refine .bind (reads_indexSegment hi ht) fun _ r' t h ht => ?_
      obtain ⟨tree, htree, rfl⟩ := h
      exact hmore htree ht

/-- A path that touches the root of an event or of its metadata. -/
theorem reads_externalPath {path : List Segment} (hne : path ≠ []) (hpath : ∀ y ∈ path, Plain y)
    (hqs : isFence (aheadKind qs) = true) (h : s.Before m true (pathPieces path ++ qs) r) :
    Reads n (node .path do
      if ← peekIs .bracketOpen then indexSegment else node .fieldSegment fieldName
      rule .pathSegments) s m qs fun _ r' => ∃ t, SpellsPath [t] path ∧ r' = r ++ [t] := by
  cases path with
  | nil => exact absurd rfl hne
  | cons y path =>
    have hmore {u : State} (hu : ∃ ty : Tree, ty.SpellsSegment y ∧ u.Faces m true (path.flatMap segmentPieces ++ qs) [ty]) :
        Reads n (rule .pathSegments) u m qs fun _ r' =>
          ∀ cs, Tree.solid cs = r' → ∃ t, SpellsPath [t] (y :: path) ∧ r ++ [.node .path cs] = r ++ [t] := by
      obtain ⟨ty, hty, hu⟩ := hu
      have hrest : ∀ z ∈ path, Plain z := fun z hz => hpath z (List.mem_cons_of_mem _ hz)
      refine (reads_pathSegments hrest hqs hu).imp fun _ r' h cs hcs => ⟨_, .path ?_, rfl⟩
      obtain ⟨ts, hts, hr'⟩ := h
      rw [hcs, hr']
      exact .cons hty hts
    refine .node h fun t ht => ?_
    cases hpath y List.mem_cons_self with
    | @field name hname =>
      obtain ⟨hsolid, -⟩ := solid_fieldKind name
      have hbracket : fieldKind name ≠ .bracketOpen := fun hk => by
        have hfield := isFieldName_fieldKind name
        rw [hk] at hfield
        cases hfield
      have hsegment {t : State} (ht : t.Before m true (namePiece name :: (path.flatMap segmentPieces ++ qs)) []) :
          Reads n (node .fieldSegment fieldName) t m (path.flatMap segmentPieces ++ qs) (YieldsSegment (.field (some name) false) []) :=
        .node ht fun t ht => reads_fieldName ht.faces fun cs hcs => ⟨_, spellsSegment_field hcs fun t ht => absurd ht List.not_mem_nil, rfl⟩
      have hnamed : t.Before m true (namePiece name :: (path.flatMap segmentPieces ++ qs)) [] := ht
      refine .peekIs hnamed.faces hsolid fun t ht => ?_
      rw [if_neg (by simpa [firstKind, namePiece] using hbracket)]
      refine .bind (hsegment ht) fun _ r' t h ht => ?_
      obtain ⟨ty, hty, rfl⟩ := h
      exact hmore ⟨ty, hty, ht⟩
    | @index i hi =>
      have hpieces : pathPieces (.index (some i) :: path) ++ qs =
          (.bracketOpen, ['[']) :: (integerPieces i ++ (.bracketClose, [']']) :: (path.flatMap segmentPieces ++ qs)) := by
        simp [pathPieces, segmentPieces]
      rw [hpieces] at ht
      refine .peekIs ht.faces (sharp_cons (by decide) _ _) fun t ht => ?_
      refine .bind (reads_indexSegment hi ht) fun _ r' t h ht => ?_
      obtain ⟨ty, hty, rfl⟩ := h
      exact hmore ⟨ty, hty, ht⟩

/-- A path of which a first segment comes next. -/
theorem exists_first_segment {path : List Segment} (hne : path ≠ []) (hpath : ∀ y ∈ path, Plain y) (qs : List (Kind × Text)) :
    ∃ k x ps, pathPieces path ++ qs = (k, x) :: ps ∧ Solid k ∧ (k.isFieldName = true ∨ k = .bracketOpen) := by
  cases path with
  | nil => exact absurd rfl hne
  | cons y path =>
    cases hpath y List.mem_cons_self with
    | @field name hname => exact ⟨_, _, _, rfl, (solid_fieldKind name).1, .inl (isFieldName_fieldKind name)⟩
    | index hi => exact ⟨_, _, _, rfl, by decide, .inr rfl⟩

/-- A query that begins with the root of an event or of its metadata. -/
theorem reads_externalQuery {e : Phrase} {k : Kind} {x : Text} {path : List Segment} (hk : Solid k) (hpath : ∀ y ∈ path, Plain y)
    (hqs : isFence (aheadKind qs) = true) (h : s.Before m b ((k, x) :: (pathPieces path ++ qs)) r) (hkind : e.kind = .query)
    (he : ∀ cs rest, Tree.solid cs = .leaf k x :: rest → SpellsPath rest path → (Tree.node .query cs).Spells e) :
    Reads n externalQuery s m qs (Yields e r) := by
  refine .node h fun t ht => .advance ht hk fun t ht => ?_
  by_cases hne : path = []
  · subst hne
    refine atFirstSegment_stop ht.faces hqs fun t ht => atSegment_stop ht hqs fun t ht => ?_
    exact .done ht fun cs hcs => ⟨hkind.symm, _, he cs _ hcs .nil, rfl⟩
  · obtain ⟨k', x', ps, hps, hsolid, hfirst⟩ := exists_first_segment hne hpath qs
    have hfaces := ht.faces
    rw [hps] at hfaces
    refine atFirstSegment_go hfaces hsolid hfirst fun t ht => ?_
    rw [← hps] at ht
    refine .bind (reads_externalPath hne hpath hqs ht) fun _ r' t ⟨tp, htp, hr'⟩ ht => .done ht fun cs hcs => ?_
    exact ⟨hkind.symm, _, he cs [tp] (hcs.trans hr') htp, rfl⟩

end Remap.Parser
