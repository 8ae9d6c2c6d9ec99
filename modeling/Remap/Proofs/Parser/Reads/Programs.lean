import Remap.Proofs.Breakdown
import Remap.Proofs.Parser.Reads.Phrases

/-!
# Reading programs of one statement

Where the tokens are those of one operator expression, and reading it adds one tree to the row, the program holds that tree and
nothing else, and nothing is reported.
-/

namespace Remap.Parser

variable {n m : Nat} {s : State} {b : Bool} {r : List Tree} {ps : List (Kind × Text)} {R : Tree → Prop}

/-! ## Fuel -/

namespace State

/-- There is no bound on the tokens to consume. -/
structure Unbounded (s : State) : Prop where
  fuel : s.fuel = none
  fuelled : s.exhausted = false

theorem Unbounded.skip (h : s.Unbounded) : s.skip.Unbounded := by
  rw [skip_eq]
  exact ⟨h.fuel, h.fuelled⟩

theorem Unbounded.drain (h : s.Unbounded) : s.drain.Unbounded := by
  rw [drain_eq]
  exact ⟨h.fuel, h.fuelled⟩

theorem Unbounded.report (h : s.Unbounded) (d : Diagnostic) : (s.report d).Unbounded := by
  rw [report_eq]
  exact ⟨h.fuel, h.fuelled⟩

end State

theorem unbounded_perform {α : Type} {action : Action α} {s t : State} {a : α} (hs : s.Unbounded)
    (h : action.perform s = .ok (a, t)) : t.Unbounded := by
  have hskip := hs.skip
  cases action with
  | peek =>
    obtain ⟨-, rfl⟩ := State.of_perform_peek h
    exact ⟨hskip.fuel, hskip.fuelled⟩
  | peekRaw =>
    simp only [Action.perform, look] at h
    split at h <;> cases h
    exact ⟨hs.fuel, hs.fuelled⟩
  | advance =>
    obtain ⟨token, rest, hu, rfl⟩ := State.of_perform_advance h
    exact ⟨by simp [State.consumed, hs.fuel], by simp [State.consumed, hs.fuel, hs.fuelled]⟩
  | settle =>
    cases h
    exact hskip.drain
  | openNode k | mark =>
    cases h
    exact ⟨hs.drain.fuel, hs.drain.fuelled⟩
  | closeNode | wrap k | unmark =>
    simp only [Action.perform] at h
    split at h <;> cases h
    exact ⟨hs.fuel, hs.fuelled⟩
  | report p d =>
    cases h
    exact hskip.report _
  | reportUnclosed closer =>
    simp only [Action.perform] at h
    split at h <;> cases h
    · exact hskip
    · exact hskip.report _
  | reportTarget flaw =>
    cases h
    exact hs.report _
  | checkParameters =>
    cases h
    rw [State.reportParameters_eq]
    obtain ⟨reports, lastReport, hfold⟩ := State.foldl_report s.parameterProblems s
    rw [hfold]
    exact ⟨hs.fuel, hs.fuelled⟩
  | enter =>
    simp only [Action.perform] at h
    split at h
    · cases h
      exact hs
    · split at h <;> cases h
      · exact ⟨hs.fuel, hs.fuelled⟩
      · exact ⟨hskip.fuel, hskip.fuelled⟩
  | touches | pushDelimiter k =>
    cases h
    exact ⟨hskip.fuel, hskip.fuelled⟩
  | ahead q | atEnd | stopped | leave | popDelimiter | setSeparating b =>
    cases h
    exact ⟨hs.fuel, hs.fuelled⟩

/-- Where there is no bound on the tokens to consume, no run is stopped by one. -/
theorem respected_unbounded : Respected fun s t => s.Unbounded → t.Unbounded where
  refl _ := id
  trans h h' := h' ∘ h
  perform h hs := unbounded_perform hs h

/-! ## The end of the input -/

/-- The last piece, if there is one, is no blank. -/
def EndsSolid (ps : List (Kind × Text)) : Prop := ∀ p ∈ ps.getLast?, Solid p.1

theorem EndsSolid.single {k : Kind} {x : Text} (h : Solid k) : EndsSolid [(k, x)] := by
  intro q hq
  cases hq
  exact h

theorem EndsSolid.append {ps qs : List (Kind × Text)} (hps : EndsSolid ps) (hqs : EndsSolid qs) : EndsSolid (ps ++ qs) := by
  intro p hp
  rw [List.getLast?_append, Option.mem_def, Option.or_eq_some_iff] at hp
  rcases hp with hp | ⟨-, hp⟩
  · exact hqs p hp
  · exact hps p hp

theorem EndsSolid.cons {k : Kind} {x : Text} {ps : List (Kind × Text)} (h : Solid k) (hps : EndsSolid ps) :
    EndsSolid ((k, x) :: ps) :=
  (EndsSolid.single h).append hps

theorem EndsSolid.append_right {qs : List (Kind × Text)} (ps : List (Kind × Text)) (hne : qs ≠ []) (hqs : EndsSolid qs) :
    EndsSolid (ps ++ qs) := by
  intro p hp
  rw [List.getLast?_append_of_ne_nil _ hne] at hp
  exact hqs p hp

theorem Placed.map_piece {ps : List (Kind × Text)} {ts : List Token} (h : Placed b ps ts) : ts.map Token.piece = ps := by
  induction h with
  | nil => rfl
  | cons _ ih => rw [List.map_cons, ih]

theorem State.Before.last {ps : List (Kind × Text)} (h : s.Before m b ps r) (hps : EndsSolid ps) :
    ∀ t ∈ s.unread.getLast?, Solid t.kind := by
  intro t ht
  refine hps t.piece ?_
  rw [← h.unread.map_piece, List.getLast?_map, Option.mem_def.mp ht]
  rfl

/-- Where the last token is no blank and nothing but blanks is left, nothing is left. -/
theorem Reads.to_end {α : Type} {x : Routine α} {X : α → List Tree → Prop} (h : Reads n x s m [] X)
    (hlast : ∀ t ∈ s.unread.getLast?, Solid t.kind) :
    Returns n x s fun a t => ∃ r, X a r ∧ t.Before m true [] r := by
  intro hs a t hrun hfuel
  obtain ⟨hfollows, r, hX, ht⟩ := h hs a t hrun hfuel
  refine ⟨hfollows, r, hX, ht.toClear, ?_⟩
  obtain ⟨ts, hts, hblank⟩ := ht.unread
  rw [List.map_eq_nil_iff.mp hts.map_piece, List.dropWhile_nil, List.dropWhile_eq_nil_iff] at hblank
  obtain ⟨before, hsuffix⟩ := respected_suffix.run hrun
  cases hlastToken : t.unread.getLast? with
  | none =>
    rw [List.getLast?_eq_none_iff.mp hlastToken]
    exact .nil _
  | some token =>
    have hmem : token ∈ t.unread := List.mem_of_getLast? hlastToken
    have hsolid := hlast token (by rw [← hsuffix, List.getLast?_append, hlastToken]; rfl)
    cases hsolid.1.symm.trans (hblank token hmem)

/-- Where nothing is left, there is nothing more to do. -/
theorem stopped_end {α : Type} {f : Bool → Routine α} {Q : α → State → Prop} (h : s.Before m b [] r) (hf : Returns n (f true) s Q) :
    Returns n (stopped >>= f) s Q := by
  refine Returns.bind <| .look rfl fun a t hstopped _ => ?_
  cases hstopped
  have hunread : s.unread = [] := List.map_eq_nil_iff.mp h.unread.map_piece
  rw [hunread]
  exact hf

/-! ## One statement -/

/-- A tree of which `R` holds was added to the row. -/
def Gains (R : Tree → Prop) (r r' : List Tree) : Prop := ∃ t, R t ∧ r' = r ++ [t]

theorem reads_statement (hps : KindSet.arithmeticFirst.contains (firstKind ps) = true) (h : s.Before (m + 1) b ps r)
    (hassignment : ∀ l t, t.Faces m b ps r → Reads l (rule .assignment) t m [] fun _ => Gains R r) :
    Reads n (rule .statement) s (m + 1) [] fun _ => Gains R r := by
  refine .rule fun l => .nested h fun t ht => .peek ht.faces (Phrase.solid_of_arithmeticFirst hps) fun t ht => ?_
  have hassignment := hassignment l t ht.faces
  generalize firstKind ps = k at hps ⊢
  split
  · cases hps
  · cases hps
  · cases hps
  · exact hassignment

theorem reads_statements (hps : KindSet.arithmeticFirst.contains (firstKind ps) = true) (hends : EndsSolid ps)
    (h : s.Before (m + 1) b ps [])
    (hassignment : ∀ l t, t.Faces m b ps [] → Reads l (rule .assignment) t m [] fun _ => Gains R []) :
    Reads n (rule (.statements none)) s (m + 1) [] fun _ => Gains R [] := by
  have hsharp : Sharp ps := Phrase.solid_of_arithmeticFirst hps
  have hne : ps ≠ [] := by
    rintro rfl
    cases hps
  have hend {l : Nat} {t : State} {tree : Tree} (htree : R tree) (ht : t.Before (m + 1) true [] [tree]) :
      Reads l (rule (.statements none)) t (m + 1) [] fun _ => Gains R [] := by
    refine .rule fun l => .newlines ht.faces ⟨rfl, by decide⟩ fun t ht => stopped_end ht ?_
    exact Reads.done ht.faces ⟨tree, htree, rfl⟩
  obtain ⟨hsemicolon, hcloser, hstatement⟩ : firstKind ps ≠ .semicolon ∧ (firstKind ps).isCloser = false ∧
      KindSet.statementFirst.contains (firstKind ps) = true := by
    generalize firstKind ps = k at hps ⊢
    revert hps
    cases k <;> decide
  refine .rule fun l => .newlines h.faces hsharp fun t ht => .stopped ht hne <| .peek ht.faces hsharp fun t ht => ?_
  rw [if_neg (fun h => by cases h), if_neg hsemicolon, if_neg (by rw [hcloser]; decide), if_pos hstatement]
  refine Returns.bind <| .bind <| ((reads_statement hps ht hassignment).to_end (ht.last hends)).imp fun k t ⟨r', h, ht⟩ => ?_
  obtain ⟨tree, htree, hr'⟩ := h
  rw [hr'] at ht
  exact .bind <| stopped_end ht <| .done <| .done <| hend htree ht

/-- What is held back at the end is placed. -/
theorem reads_settle (h : s.Before m b [] r) : Reads n (act .settle) s m [] fun _ r' => r' = r := by
  refine Returns.of_steady fun hsteady => .flat rfl fun _ t hsettle _ => ?_
  cases hsettle
  have hskip := h.faces.before_skip ⟨rfl, by decide⟩
  have hdrain := Reads.drain_clear hskip.toClear (s.hushes_skip.steady hsteady)
  have hunread : s.skip.drain.unread = [] := by
    rw [State.unread_drain]
    exact List.map_eq_nil_iff.mp hskip.unread.map_piece
  exact ⟨r, rfl, State.Before.faces (b := true) ⟨hdrain, by rw [hunread]; exact .nil true⟩⟩

theorem reads_program (hps : KindSet.arithmeticFirst.contains (firstKind ps) = true) (hends : EndsSolid ps)
    (h : s.Before (m + 1) b ps [])
    (hassignment : ∀ l t, t.Faces m b ps [] → Reads l (rule .assignment) t m [] fun _ => Gains R []) :
    Reads n program s (m + 1) [] fun _ r' => ∃ cs t, R t ∧ Tree.solid cs = [t] ∧ r' = [.node .program cs] := by
  refine .node h fun t ht => ?_
  refine Returns.bind <| ((reads_statements hps hends ht hassignment).to_end (ht.last hends)).imp fun _ t ⟨r', ⟨tree, htree, hr'⟩, ht⟩ => ?_
  exact (reads_settle ht).imp fun _ xs hxs cs hcs => ⟨cs, tree, htree, by rw [hcs, hxs, hr']; rfl, rfl⟩

/-- The tree of a program that is one operator expression. -/
theorem parseTokens_single {tokens : List Token} {limit : Nat} (htokens : Placed b ps tokens)
    (hps : KindSet.arithmeticFirst.contains (firstKind ps) = true) (hends : EndsSolid ps) (hlimit : m + 1 ≤ limit)
    (hassignment : ∀ l t, t.Faces m b ps [] → Reads l (rule .assignment) t m [] fun _ => Gains R []) :
    ∃ cs t, R t ∧ Tree.solid cs = [t] ∧ parseTokens tokens limit none = .ok ⟨.node .program cs, [], false⟩ := by
  have hstart : (State.start tokens limit none).Before (m + 1) b ps [] := by
    refine ⟨⟨rfl, ?_, rfl⟩, htokens⟩
    show 0 + (m + 1) ≤ limit
    omega
  have hsteady : (State.start tokens limit none).Steady := ⟨fun _ => ⟨rfl, rfl⟩, fun _ ht => absurd ht List.not_mem_nil⟩
  obtain ⟨r, hr, -⟩ | ⟨-, hfalls⟩ := parseTokens_cases tokens limit none
  · obtain ⟨t, hrun, hfinish⟩ := parseTokens_eq_ok.mp hr
    have hholds := State.holds_of_finish hfinish
    have hunbounded := respected_unbounded.run hrun ⟨rfl, rfl⟩
    obtain ⟨-, row, ⟨cs, tree, htree, hcs, hrow⟩, ht⟩ :=
      reads_program hps hends hstart hassignment hsteady () t hrun hunbounded.fuelled
    have hsolid : Tree.solid [r.tree] = [.node .program cs] := by
      rw [← hrow, ← ht.row, State.row, hholds.built]
      rfl
    have htree' : r.tree = .node .program cs := by
      have hmem : Tree.node .program cs ∈ Tree.solid [r.tree] := by
        rw [hsolid]
        exact List.mem_singleton_self _
      exact (List.mem_singleton.mp (List.mem_filter.mp hmem).1).symm
    have hdiagnostics : r.diagnostics = [] := by
      rw [hholds.reports, ht.reports]
      rfl
    refine ⟨cs, tree, htree, hcs, hr.trans ?_⟩
    rw [← htree', ← hdiagnostics, ← hunbounded.fuelled, ← hholds.exhausted]
  · obtain ⟨t, ht, hblank⟩ := hfalls.getLast
    obtain ⟨htrivia, hnewline⟩ := hstart.last hends t ht
    rcases hblank with hblank | hblank
    · cases htrivia.symm.trans hblank
    · exact absurd hblank hnewline

/-- Where a term is all there is, it is what is assigned. -/
theorem reads_assignment_term {k₀ : Kind} (hps : KindSet.arithmeticFirst.contains (firstKind ps) = true) (hbang : firstKind ps ≠ .bang)
    (hk : k₀ ≠ .noop) (h : s.Faces (m + 1) b ps r)
    (hterm : ∀ l t, t.Before m b ps [] → Reads l (termFrom (firstKind ps)) t m [] (YieldsTree k₀ R [])) :
    Reads n (rule .assignment) s (m + 1) [] (YieldsTree k₀ R r) := by
  have hsharp : Sharp ps := Phrase.solid_of_arithmeticFirst hps
  have hunary {l : Nat} {t : State} (ht : t.Faces (m + 1) b ps []) : Reads l (rule .unary) t (m + 1) [] (YieldsTree k₀ R []) :=
    reads_unary hsharp hbang ht fun l t ht => reads_term hsharp rfl ht fun t ht => hterm l t ht
  refine reads_assignment hps hk (.inr rfl) h fun l t ht => .rule fun l => .marked ht fun t ht => ?_
  refine .bind (hunary ht) fun k r' t hyields ht => reads_binaryRest_stop rfl (fun o ho => by cases ho) ht ?_
  exact hyields

end Remap.Parser

open Remap.Parser (Placed firstKind EndsSolid Reads Gains YieldsTree)

namespace Remap

variable {m : Nat} {ps : List (Kind × Text)} {R : Tree → Prop} {o : Options} {source : Text}

/-- A source of which the pieces are one operator expression is a valid program of one statement. -/
theorem parse_single (htokens : (scan source o.checkPatterns).tokens = Token.place 0 none ps)
    (hdiagnostics : (scan source o.checkPatterns).diagnostics = []) (hfuel : o.fuel = none) (hlimit : m + 1 ≤ o.limit)
    (hps : KindSet.arithmeticFirst.contains (firstKind ps) = true) (hends : EndsSolid ps) (hexpr : ∀ t, R t → t.isExpr = true)
    (hassignment : ∀ l t, t.Faces m false ps [] → Reads l (Parser.rule .assignment) t m [] fun _ => Gains R []) :
    ∃ p n, parse o source = .ok p ∧ p.diagnostics = [] ∧ p.statements = [n] ∧ R n.tree := by
  have hplaced : Placed false ps (Token.place 0 none ps) := Parser.placed_place 0 none ps
  obtain ⟨cs, t, ht, hcs, hparse⟩ := Parser.parseTokens_single hplaced hps hends hlimit hassignment
  have hexprs := (Node.mk 0 (.node .program cs)).map_tree_exprs
  rw [show Tree.solid (Node.mk 0 (.node .program cs)).tree.children = [t] from hcs, List.filter_cons_of_pos (hexpr t ht),
    List.filter_nil] at hexprs
  obtain ⟨start, hstart⟩ := Node.exists_of_map_singleton hexprs
  refine ⟨⟨.node .program cs, []⟩, ⟨start, t⟩, ?_, rfl, hstart, ht⟩
  simp only [parse, htokens, hdiagnostics, hfuel, hparse]
  simp [Diagnostics.sortByPosition, Diagnostics.locate]

/-- A source of which the pieces are one term is a valid program of one statement. -/
theorem parse_term {k₀ : Kind} (htokens : (scan source o.checkPatterns).tokens = Token.place 0 none ps)
    (hdiagnostics : (scan source o.checkPatterns).diagnostics = []) (hfuel : o.fuel = none) (hlimit : 2 ≤ o.limit)
    (hps : KindSet.arithmeticFirst.contains (firstKind ps) = true) (hbang : firstKind ps ≠ .bang) (hends : EndsSolid ps)
    (hk : k₀ ≠ .noop) (hexpr : ∀ t, R t → t.isExpr = true)
    (hterm : ∀ l t, t.Before 0 false ps [] → Reads l (Parser.termFrom (firstKind ps)) t 0 [] (YieldsTree k₀ R [])) :
    ∃ p n, parse o source = .ok p ∧ p.diagnostics = [] ∧ p.statements = [n] ∧ R n.tree :=
  parse_single htokens hdiagnostics hfuel hlimit hps hends hexpr fun _ _ ht =>
    (Parser.reads_assignment_term hps hbang hk ht hterm).imp fun _ _ h => h.2

end Remap
