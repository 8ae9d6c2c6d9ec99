import Remap.Proofs.Parser.Closed
import Remap.Proofs.Parser.Forest
import Remap.Proofs.Parser.Fuel

/-!
# Hitting the limit

The greatest depth matters only where it is hit. Until then a run is shadowed by the same run under a higher limit. Where it is
hit that is reported, all tokens from there on become one error, and nothing is reported any more, however many routines are
still to return.
-/

namespace Remap

/-- A diagnostic about the limit. -/
def Diagnostic.AtLimit (d : Diagnostic) : Prop := d.problem = .recursionLimitExceeded

namespace Parser

variable {α β : Type}

/-! ## Reports -/

/-- The reports of the later state are those of the earlier one and more, none of them about the limit; and no more if the
limit was hit. -/
structure Notes (s t : State) : Prop where
  overflowed : t.overflowed = s.overflowed
  reports : ∃ ds, t.reports = ds ++ s.reports ∧ (∀ d ∈ ds, ¬ d.AtLimit) ∧ (s.overflowed = true → ds = [])

namespace Notes

theorem of_eq {s t : State} (hover : t.overflowed = s.overflowed) (hreports : t.reports = s.reports) : Notes s t :=
  ⟨hover, [], hreports, fun _ h => absurd h List.not_mem_nil, fun _ => rfl⟩

theorem refl (s : State) : Notes s s := .of_eq rfl rfl

theorem trans {s t u : State} (h : Notes s t) (h' : Notes t u) : Notes s u := by
  obtain ⟨ds, hds, hnone, hmute⟩ := h.reports
  obtain ⟨es, hes, hnone', hmute'⟩ := h'.reports
  refine ⟨h'.overflowed.trans h.overflowed, es ++ ds, by rw [hes, hds, List.append_assoc], fun d hd => ?_, fun hover => ?_⟩
  · exact (List.mem_append.mp hd).elim (hnone' d) (hnone d)
  · rw [hmute hover, hmute' (h.overflowed.trans hover), List.append_nil]

theorem skip (s : State) : Notes s s.skip := by
  rw [State.skip_eq]
  exact .of_eq rfl rfl

theorem drain (s : State) : Notes s s.drain := by
  rw [State.drain_eq]
  exact .of_eq rfl rfl

theorem report (s : State) {d : Diagnostic} (h : ¬ d.AtLimit) : Notes s (s.report d) := by
  unfold State.report
  split
  · exact .refl s
  · rename_i hopen
    simp only [Bool.or_eq_true, not_or, Bool.not_eq_true] at hopen
    refine ⟨rfl, [d], rfl, fun e he => List.mem_singleton.mp he ▸ h, fun hover => ?_⟩
    rw [hopen.1] at hover
    cases hover

theorem foldl_report {ds : List Diagnostic} (h : ∀ d ∈ ds, ¬ d.AtLimit) (s : State) : Notes s (ds.foldl State.report s) := by
  induction ds generalizing s with
  | nil => exact .refl s
  | cons d ds ih =>
    exact (report s (h d List.mem_cons_self)).trans (ih (fun e he => h e (List.mem_cons_of_mem _ he)) _)

end Notes

/-- Whether an action neither nests one level deeper nor reports that the limit was hit. -/
def Action.isTame : {α : Type} → Action α → Bool
  | _, .enter => false
  | _, .report p _ => p != .recursionLimitExceeded
  | _, _ => true

theorem Action.isTame_of_isSimple {action : Action α} (h : action.isSimple = true) : action.isTame = true := by
  cases action with
  | enter => cases h
  | report p d => exact h
  | _ => rfl

theorem not_atLimit_parameterProblems (s : State) : ∀ d ∈ s.parameterProblems, ¬ d.AtLimit := by
  intro d hd
  unfold State.parameterProblems at hd
  split at hd
  · obtain ⟨_, _, rfl⟩ := List.mem_map.mp hd
    exact nofun
  · cases hd

/-- A tame action reports nothing about the limit. -/
theorem notes_perform {action : Action α} {s t : State} {a : α} (htame : action.isTame = true)
    (h : action.perform s = .ok (a, t)) : Notes s t := by
  cases action with
  | peek =>
    obtain ⟨-, rfl⟩ := State.of_perform_peek h
    exact (Notes.skip s).trans (.of_eq rfl rfl)
  | peekRaw =>
    simp only [Action.perform, look] at h
    split at h <;> cases h
    exact .of_eq rfl rfl
  | advance =>
    obtain ⟨token, rest, hu, rfl⟩ := State.of_perform_advance h
    exact .of_eq rfl rfl
  | touches | pushDelimiter k =>
    cases h
    exact (Notes.skip s).trans (.of_eq rfl rfl)
  | settle =>
    cases h
    exact (Notes.skip s).trans (.drain _)
  | openNode k | mark =>
    cases h
    exact (Notes.drain s).trans (.of_eq rfl rfl)
  | closeNode | wrap k | unmark =>
    simp only [Action.perform] at h
    split at h <;> cases h
    exact .of_eq rfl rfl
  | report p d =>
    cases h
    refine (Notes.skip s).trans (.report _ ?_)
    have hp : p ≠ .recursionLimitExceeded := by simpa [Action.isTame] using htame
    simp only [Diagnostic.AtLimit]
    split
    · cases p <;> simp_all [atEndOfInput]
    · exact hp
  | reportUnclosed closer =>
    simp only [Action.perform] at h
    split at h <;> cases h
    · exact .skip s
    · exact (Notes.skip s).trans (.report _ fun hlimit => by cases hlimit)
  | reportTarget flaw =>
    cases h
    exact .report s fun hlimit => by cases hlimit
  | checkParameters =>
    cases h
    rw [State.reportParameters_eq]
    exact .foldl_report (not_atLimit_parameterProblems s) s
  | ahead q | atEnd | stopped | leave | popDelimiter | setSeparating b =>
    cases h
    exact .of_eq rfl rfl
  | enter => cases htame

/-- Reports are never taken back, and once the limit was hit none is added. -/
structure Keeps (s t : State) : Prop where
  reports : s.reports <:+ t.reports
  frozen : s.overflowed = true → t.overflowed = true ∧ t.reports = s.reports

theorem Notes.keeps {s t : State} (h : Notes s t) : Keeps s t := by
  obtain ⟨ds, hds, _, hmute⟩ := h.reports
  refine ⟨⟨ds, hds.symm⟩, fun hover => ⟨h.overflowed.trans hover, ?_⟩⟩
  rw [hds, hmute hover]
  rfl

/-- No action takes back a report. -/
theorem respected_keeps : Respected Keeps where
  refl s := (Notes.refl s).keeps
  trans h h' := ⟨h.reports.trans h'.reports, fun hover =>
    ⟨(h'.frozen (h.frozen hover).1).1, (h'.frozen (h.frozen hover).1).2.trans (h.frozen hover).2⟩⟩
  perform {_ action s t _} h := by
    by_cases htame : action.isTame = true
    · exact (notes_perform htame h).keeps
    have hskip := Notes.skip s
    obtain ⟨ds, hds, _, hmute⟩ := hskip.reports
    have hreports : s.skip.reports = s.reports := by rw [State.skip_eq]
    cases action with
    | enter =>
      rw [State.perform_enter] at h
      split at h
      · cases h
        exact (Notes.refl s).keeps
      · rename_i hopen
        split at h <;> cases h
        · exact Notes.keeps (t := s.deeper) (.of_eq rfl rfl)
        · refine ⟨⟨[s.skip.limitProblem], ?_⟩, fun hover => absurd hover hopen⟩
          simp only [State.overrun, hreports, List.singleton_append]
    | report p d =>
      cases h
      rw [State.report_eq]
      refine ⟨?_, fun hover => ?_⟩
      · simp only [hreports]
        split
        · exact List.suffix_refl _
        · exact List.suffix_cons _ _
      · have hover' : s.skip.overflowed = true := hskip.overflowed.trans hover
        simp only [State.mutes, hover', Bool.true_or, if_true, hreports, and_self]
    | _ => exact absurd rfl htame

/-! ## A higher limit -/

/-- The second state is the first one under a limit that is no lower. -/
def Relaxed (s s' : State) : Prop := ∃ l, s.limit ≤ l ∧ s' = s.under l s.fuel

/-- The first state hit the limit, and whatever it reported before is reported by the second one, too. -/
def Parted (t t' : State) : Prop := t.overflowed = true ∧ ∃ d ds, t.reports = d :: ds ∧ ds <:+ t'.reports

theorem parted_overrun {s s' t' : State} (hreports : s'.reports = s.reports) (h : s'.reports <:+ t'.reports) :
    Parted s.overrun t' := by
  refine ⟨rfl, s.skip.limitProblem, s.reports, ?_, hreports ▸ h⟩
  simp only [State.overrun]
  rw [State.skip_eq]

/-- Under a higher limit a run does the same, until the first one hits the limit. -/
theorem shadowed_relaxed : Shadowed Relaxed Parted where
  perform := by
    rintro α action s _ t a ⟨l, hl, rfl⟩ h
    cases hset : action.isSet with
    | false =>
      obtain ⟨hlimit, hfuel⟩ := settings_of_under (perform_under hset s s.limit s.fuel) h
      refine ⟨a, t.under l s.fuel, by rw [perform_under hset, h]; rfl, .inl ⟨rfl, l, hlimit ▸ hl, hfuel ▸ rfl⟩⟩
    | true =>
      cases action with
      | advance =>
        obtain ⟨token, rest, hs, rfl⟩ := State.of_perform_advance h
        exact ⟨(), _, State.perform_advance (s := s.under l s.fuel) hs, .inl ⟨rfl, l, hl, rfl⟩⟩
      | enter =>
        have henter : Action.enter.perform (s.under l s.fuel) =
            if s.overflowed then .ok (.blocked, s.under l s.fuel)
            else if s.depth < l then .ok (.entered, s.deeper.under l s.fuel)
            else .ok (.overflow, (s.under l s.fuel).overrun) := rfl
        rw [State.perform_enter] at h
        split at h
        · rename_i hover
          cases h
          exact ⟨_, _, henter.trans (if_pos hover), .inl ⟨rfl, l, hl, rfl⟩⟩
        · rename_i hopen
          rw [if_neg hopen] at henter
          split at h <;> rename_i hdepth <;> cases h
          · exact ⟨_, _, henter.trans (if_pos (Nat.lt_of_lt_of_le hdepth hl)), .inl ⟨rfl, l, hl, rfl⟩⟩
          · by_cases hdeep : s.depth < l
            · exact ⟨_, _, henter.trans (if_pos hdeep), .inr (parted_overrun rfl (List.suffix_refl _))⟩
            · refine ⟨_, _, henter.trans (if_neg hdeep), .inr (parted_overrun rfl ?_)⟩
              exact (respected_keeps.perform (henter.trans (if_neg hdeep))).reports
      | _ => cases hset
  left := by
    refine ⟨fun _ _ h => h, fun h h' t' hs => h' t' (h t' hs), fun {_ _ s t _} h t' hs => ?_⟩
    obtain ⟨hover, d, ds, hreports, hsuffix⟩ := hs
    obtain ⟨hover', hfrozen⟩ := (respected_keeps.perform h).frozen hover
    exact ⟨hover', d, ds, hfrozen.trans hreports, hsuffix⟩
  right := by
    refine ⟨fun _ _ h => h, fun h h' t hs => h' t (h t hs), fun {_ _ s t _} h t' hs => ?_⟩
    obtain ⟨hover, d, ds, hreports, hsuffix⟩ := hs
    exact ⟨hover, d, ds, hreports, hsuffix.trans (respected_keeps.perform h).reports⟩

/-! ## Where the limit is hit -/

/-- The limit was not hit and nothing was reported about it; or it was hit and reported last, and the tokens from there on are
in an error. -/
structure State.Bounded (tokens : List Token) (s : State) : Prop where
  within : s.overflowed = false → ∀ d ∈ s.reports, ¬ d.AtLimit
  beyond : s.overflowed = true → ∃ d ds, s.reports = d :: ds ∧ d.AtLimit ∧ (∀ e ∈ ds, ¬ e.AtLimit) ∧
    ∃ before after, tokens = before ++ after ∧ d.span.start = Text.bytes (spelled (before.map Token.piece)) ∧
      s.Has ⟨d.span.start, .node .error (after.map Token.leaf)⟩

theorem State.Bounded.notes {tokens : List Token} {s t : State} (h : s.Bounded tokens) (hnotes : Notes s t)
    (hhas : ∀ n, s.Has n → t.Has n) : t.Bounded tokens := by
  obtain ⟨ds, hds, hnone, hmute⟩ := hnotes.reports
  refine ⟨fun hover d hd => ?_, fun hover => ?_⟩
  · rw [hds] at hd
    exact (List.mem_append.mp hd).elim (hnone d) (h.within (hnotes.overflowed ▸ hover) d)
  · have hover' : s.overflowed = true := hnotes.overflowed ▸ hover
    obtain ⟨d, rest, hreports, hlimit, hothers, before, after, hsplit, hstart, hnode⟩ := h.beyond hover'
    refine ⟨d, rest, ?_, hlimit, hothers, before, after, hsplit, hstart, hhas _ hnode⟩
    rw [hds, hmute hover', List.nil_append, hreports]

/-- What holds in every state of a parse without bound on the fuel. -/
structure State.Regular (tokens : List Token) (s : State) : Prop where
  reading : s.Reading tokens
  fed : s.Fed
  steady : s.Steady

theorem respected_regular (tokens : List Token) : Respected fun s t => s.Regular tokens → t.Regular tokens where
  refl _ := id
  trans h h' := h' ∘ h
  perform h hs := ⟨(respected_reading tokens).perform h hs.reading, respected_fed.perform h hs.fed,
    (respected_hushes.perform h).steady hs.steady⟩

/-- A routine leaves a bounded state behind wherever it starts in one. -/
def KeepsBounded (tokens : List Token) (n : Nat) (x : Routine α) : Prop :=
  ∀ s t a, s.Regular tokens → s.Bounded tokens → x.run (runRule n) s = .ok (a, t) → t.Bounded tokens

/-- Where the limit is hit, the diagnostic points to what comes after the tokens that were passed. -/
theorem start_limitProblem {ps : List (Kind × Text)} {s : State} (h : s.Reading (Token.place 0 none ps)) {before : List Token}
    (hsplit : Token.place 0 none ps = before ++ s.unread)
    (hbefore : Tree.leavesOf s.forest ++ s.held.map Token.piece = before.map Token.piece) :
    s.limitProblem.span.start = Text.bytes (spelled (before.map Token.piece)) := by
  simp only [State.limitProblem, State.here]
  cases hu : s.unread with
  | nil =>
    have hsized : s.placed = Tree.bytesOf s.forest := h.sized
    have hheld : s.held.flatMap (·.text) = spelled (s.held.map Token.piece) := by
      rw [spelled, List.flatMap_map]
      rfl
    rw [← hbefore, spelled_append, Text.bytes_append, ← Tree.bytesOf_eq_spelled, ← hsized]
    simp only [Span.empty, hheld]
  | cons t rest =>
    rw [hu] at hsplit
    have hplace := Token.eq_place_of_append hsplit
    simp only [List.map_cons, Token.place, List.cons.injEq] at hplace
    simp only [Token.span]
    rw [hplace.1, Nat.zero_add]

theorem leavesOf_map_leaf_inj {ts us : List Token} (h : ts.map Token.piece = us.map Token.piece) :
    ts.map Token.leaf = us.map Token.leaf := by
  have hleaf (l : List Token) : l.map Token.leaf = (l.map Token.piece).map fun p => Tree.leaf p.1 p.2 := by
    rw [List.map_map]
    rfl
  rw [hleaf, hleaf, h]

/-- Where the limit is hit, all that is left becomes one error. -/
theorem has_swallowed {ps : List (Kind × Text)} {n : Nat} {s u : State} {b : Unit}
    (hs : s.overrun.Regular (Token.place 0 none ps))
    (hrun : (node .error (do rule .absorb; act .settle)).run (runRule n) s.overrun = .ok (b, u)) :
    ∃ before after, Token.place 0 none ps = before ++ after ∧
      s.skip.limitProblem.span.start = Text.bytes (spelled (before.map Token.piece)) ∧
      u.Has ⟨s.skip.limitProblem.span.start, .node .error (after.map Token.leaf)⟩ := by
  have hu := (respected_regular _).run hrun hs
  obtain ⟨hfollows, hunread, hheld, ts, hbuilt⟩ := Returns.swallow n s.overrun hs.steady () u hrun hu.fed.fuelled
  obtain ⟨before, hsplit, hbefore⟩ := hs.reading.exists_before
  have hstart : s.skip.limitProblem.span.start = Text.bytes (spelled (before.map Token.piece)) :=
    start_limitProblem hs.reading hsplit hbefore
  have hdrained : Tree.leavesOf s.overrun.drain.forest = before.map Token.piece := by
    rw [State.forest_drain, Tree.leavesOf_append, Tree.leavesOf_map_leaf, hbefore]
  have hforest : u.forest = s.overrun.drain.forest ++ [.node .error (ts.map Token.leaf)] := by
    have hbelow : s.overrun.drain.below = s.overrun.below := by rw [State.drain_eq]
    simp only [State.forest, treesOfFrames, hfollows.below, hbuilt, hbelow, List.reverse_cons, List.append_assoc]
  -- the leaves of the error are what was unread, since no leaf is lost
  have hleaves : ts.map Token.piece = s.overrun.unread.map Token.piece := by
    have hall := hu.reading.leaves
    rw [State.leaves, ← leavesOf_treesOfFrames, ← State.forest, hforest, hunread, hheld, Tree.leavesOf_append, hdrained, hsplit]
      at hall
    simpa [Tree.leavesOf, Tree.leaves, Tree.leavesOf_map_leaf] using hall
  refine ⟨before, s.overrun.unread, hsplit, hstart, ?_⟩
  refine ⟨⟨s.skip.limitProblem.span.start, .node .error (s.overrun.unread.map Token.leaf)⟩, ?_, .root⟩
  rw [hforest, Node.placeAll_append, leavesOf_map_leaf_inj hleaves, Tree.bytesOf_eq_spelled, hdrained, hstart, Nat.zero_add]
  exact List.mem_append_right _ List.mem_cons_self

section Walk

variable {ps : List (Kind × Text)} {n : Nat}

theorem KeepsBounded.bind {x : Routine α} {f : α → Routine β} (hx : KeepsBounded (Token.place 0 none ps) n x)
    (hf : ∀ a, KeepsBounded (Token.place 0 none ps) n (f a)) : KeepsBounded (Token.place 0 none ps) n (x >>= f) := by
  intro s t b hs hbounded hrun
  obtain ⟨a, u, hx', hf'⟩ := Routine.run_bind_eq_ok.mp hrun
  exact hf a u t b ((respected_regular _).run hx' hs) (hx s u a hs hbounded hx') hf'

theorem KeepsBounded.done (a : α) : KeepsBounded (Token.place 0 none ps) n (pure a : Routine α) := by
  intro s t b _ hbounded hrun
  cases hrun
  exact hbounded

theorem KeepsBounded.tame {action : Action α} (h : action.isTame = true) : KeepsBounded (Token.place 0 none ps) n (act action) := by
  intro s t a _ hbounded hrun
  rw [Routine.run_single] at hrun
  exact hbounded.notes (notes_perform h hrun) (respected_has.perform hrun)

/-- One level deeper the limit may be hit, and then what is left becomes one error. -/
theorem KeepsBounded.nested {body : Routine Kind} (h : KeepsBounded (Token.place 0 none ps) n body) :
    KeepsBounded (Token.place 0 none ps) n (Parser.nested body) := by
  intro s t a hs hbounded hrun
  obtain ⟨entry, s₁, henter, hrest⟩ := Routine.run_bind_eq_ok.mp hrun
  rw [Routine.run_single] at henter
  have hregular := (respected_regular _).perform henter hs
  have hhas := respected_has.perform henter
  rw [State.perform_enter] at henter
  split at henter
  · cases henter
    cases hrest
    exact hbounded
  · rename_i hopen
    split at henter <;> cases henter
    · have hbody : KeepsBounded (Token.place 0 none ps) n (body >>= fun k => act .leave >>= fun _ => pure k) :=
        h.bind fun k => .bind (.tame rfl) fun _ => .done k
      exact hbody _ t a hregular (hbounded.notes (.of_eq rfl rfl) hhas) hrest
    · obtain ⟨_, u, hrun, hdone⟩ := Routine.run_bind_eq_ok.mp hrest
      cases hdone
      obtain ⟨before, after, hsplit, hstart, hnode⟩ := has_swallowed hregular hrun
      obtain ⟨hover, hreports⟩ := (respected_keeps.run hrun).frozen rfl
      refine ⟨fun hfalse => absurd (hover.symm.trans hfalse) nofun, fun _ => ?_⟩
      refine ⟨s.skip.limitProblem, s.reports, ?_, rfl, ?_, before, after, hsplit, hstart, hnode⟩
      · rw [hreports, State.overrun, State.skip_eq]
      · exact hbounded.within (by simpa using hopen)

theorem KeepsBounded.node {body : Routine α} (k : Kind) (h : KeepsBounded (Token.place 0 none ps) n body) :
    KeepsBounded (Token.place 0 none ps) n (Parser.node k body) :=
  .bind (.tame rfl) fun _ => .bind h fun _ => .bind (.tame rfl) fun _ => .done _

theorem KeepsBounded.wrapped {body : Routine α} (k : Kind) (h : KeepsBounded (Token.place 0 none ps) n body) :
    KeepsBounded (Token.place 0 none ps) n (Parser.wrapped k body) :=
  .bind (.tame rfl) fun _ => .bind h fun _ => .bind (.tame rfl) fun _ => .done _

theorem uniform_keepsBounded (hrule : ∀ {γ : Type} (r : Rule γ), KeepsBounded (Token.place 0 none ps) n (rule r)) :
    Uniform (fun {_} x => KeepsBounded (Token.place 0 none ps) n x) where
  done := .done
  fail _ := fun _ _ _ _ _ hrun => by cases hrun
  bind := .bind
  rule := hrule
  simple h := .tame (Action.isTame_of_isSimple h)
  marked h := .bind (.tame rfl) fun _ => .bind h fun _ => .bind (.tame rfl) fun _ => .done _
  separating _ h := .bind (.tame rfl) fun _ => .bind h fun _ => .bind (.tame rfl) fun _ => .done _
  nested := .nested
  node _ := .node _
  wrapped _ := .wrapped _
  anyNode := .node
  anyWrapped := .wrapped

/-- Every rule leaves a bounded state behind, by induction on the bound on nested rules. -/
theorem keepsBounded_runRule (n : Nat) (r : Rule α) : KeepsBounded (Token.place 0 none ps) n (rule r) := by
  induction n generalizing α with
  | zero => exact fun _ _ _ _ _ hrun => by cases hrun
  | succ n ih =>
    have u : Uniform fun {_} x => KeepsBounded (Token.place 0 none ps) n x := uniform_keepsBounded ih
    exact uniform_grammar u (uniform_objectOrBlock u (.tame rfl)) r

/-- A program that was parsed without bound on the fuel ends in a bounded state. -/
theorem bounded_program {limit : Nat} {t : State} {b : Unit}
    (hrun : program.run (runRule n) (.start (Token.place 0 none ps) limit none) = .ok (b, t)) :
    t.Bounded (Token.place 0 none ps) := by
  have hprogram : KeepsBounded (Token.place 0 none ps) n program := by
    refine .bind (.tame rfl) fun _ => .bind (.bind (keepsBounded_runRule n (.statements none)) fun _ => .tame rfl) fun _ => ?_
    exact .bind (.tame rfl) fun _ => .done _
  have hregular : (State.start (Token.place 0 none ps) limit none).Regular (Token.place 0 none ps) :=
    ⟨State.reading_start _ _ _, ⟨rfl, nofun⟩, fun _ => ⟨rfl, rfl⟩, fun _ ht => absurd ht List.not_mem_nil⟩
  exact hprogram _ _ _ hregular ⟨fun _ _ hd => absurd hd List.not_mem_nil, nofun⟩ hrun

end Walk

end Parser

end Remap
