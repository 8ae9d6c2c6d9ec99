import Remap.Proofs.Parser.Settled
import Remap.Proofs.Token.Padding

/-!
# Blanks behind the last statement

One run reads the statements of a program, the other one reads them with blanks behind the last of them. Where a statement ends with a look
at what comes next, both are at the end of the input then. Behind a plain `else` nothing was looked at, and the other run takes the blanks for
something that is left to read: it misses a separator and reports that. Then it is at the end as well, with the same trees (`Padded`).
-/

namespace Remap.Parser

variable {j : Seam .error} {n : Nat} {closer : Option Kind}

/-- Nothing comes behind the blanks. -/
theorem next_eq_nil (j : Seam .error) : j.next = [] := by
  rcases j.stops with h | h | h
  · cases h
  · cases h
  · exact h

/-! ## Plain `else` -/

/-- No blank is the block of a plain `else`. -/
theorem Adds.closesElse {s t : State} (h : Adds (·.isBlank = true) s t) (hs : s.closesElse = false) : t.closesElse = false := by
  obtain ⟨new, hbuilt, hblank⟩ := h
  cases new with
  | nil => exact (State.closesElse_congr hbuilt).trans hs
  | cons c new =>
    have hc := hblank c List.mem_cons_self
    rw [State.closesElse, hbuilt]
    cases c with
    | leaf k x => rfl
    | node k cs => cases hc

/-- What is held back comes behind what was built. -/
theorem State.closesElse_drain (s : State) : s.drain.closesElse = (s.held.isEmpty && s.closesElse) := by
  rw [closesElse, built_drain]
  cases hheld : s.held.reverse with
  | nil =>
    rw [List.reverse_eq_nil_iff.mp hheld]
    rfl
  | cons x xs =>
    have hne : s.held ≠ [] := by
      intro hnil
      rw [hnil] at hheld
      cases hheld
    rw [List.isEmpty_eq_false_iff.mpr hne]
    rfl

/-- No plain `else` is closed just before newlines end, if none was before they begin or one of them is read. -/
theorem accepts_newlines_open {s : State} (h : s.closesElse = false ∨ s.looked.nextKind = .newline) :
    Accepts n newlines s fun _ t => t.closesElse = false := by
  refine .rule fun m _ => .peekIs ?_
  split
  · refine .act fun _ _ t hadvance _ => ?_
    obtain ⟨x, rest, -, rfl⟩ := State.of_perform_advance hadvance
    exact (Accepts.of_returns (adds_newlines m _)).imp fun _ _ ht => ht.2.closesElse rfl
  · rename_i hother
    exact .done (State.closesElse_looked.trans (h.resolve_right fun hnewline => hother (beq_iff_eq.mpr hnewline)))

/-! ## Both runs -/

/-- Both runs read the same newlines. -/
theorem carries_newlines (n : Nat) : Carries j n newlines := by
  induction n with
  | zero => exact fun _ _ _ _ _ _ hrun => by cases hrun
  | succ n ih =>
    have hbody : Carries j n newlinesBody :=
      .peek (f := fun k => if (k == .newline) = true then advance >>= fun _ => newlines else pure ())
        (fun k => .ite (fun _ => .bind .advance fun _ => ih) fun _ => .done _) (.peek_of_eq rfl (.done _))
    exact hbody

/-- The other run holds back the same, or the blanks. -/
theorem Beside.steady {stop : Kind} {j : Seam stop} {s s' : State} (h : Beside j s s') (hs : s.Steady) : s'.Steady := by
  rcases h.reading with ⟨front, -, -, rfl⟩ | ⟨-, held, hheld, rfl⟩
  · exact ⟨hs.calm, hs.held⟩
  · refine ⟨hs.calm, fun t ht => ?_⟩
    rcases List.mem_append.mp ht with ht | ht
    · exact hs.held t (hheld ▸ List.mem_append_left _ ht)
    · exact .inl (j.gap_trivia t ht)

theorem Beside.silent {stop : Kind} {j : Seam stop} {s s' : State} (h : Beside j s s') (hs : s.Silent) : s'.Silent := by
  rcases h.reading with ⟨front, -, -, rfl⟩ | ⟨-, held, -, rfl⟩ <;> exact ⟨hs.reports, hs.fuelled⟩

theorem Beside.closesElse {stop : Kind} {j : Seam stop} {s s' : State} (h : Beside j s s') : s'.closesElse = s.closesElse := by
  rcases h.reading with ⟨front, -, -, rfl⟩ | ⟨-, held, -, rfl⟩ <;> rfl

/-- At the end of the first run the other one is at the end, too, or it is in front of the blanks. -/
theorem Beside.ended_or {s s' : State} (h : Beside j s s') (hnil : s.unread = []) :
    Ended j s s' ∨ j.tail = [] ∧ s' = s.reading j.gap s.held := by
  rcases h.reading with ⟨front, -, hunread, rfl⟩ | hended
  · obtain ⟨rfl, htail⟩ := List.append_eq_nil_iff.mp (hunread.symm.trans hnil)
    refine .inr ⟨htail, ?_⟩
    rw [Seam.rest, next_eq_nil, List.append_nil]
    rfl
  · exact .inl hended

theorem Ended.unread_eq_nil {s s' : State} (h : Ended j s s') : s'.unread = [] := by
  obtain ⟨-, held, -, rfl⟩ := h
  exact next_eq_nil j

/-- Where a token was found there is one left to read. -/
theorem Poised.unread_ne_nil {k a : Kind} {s s' t' : State} (h : Poised j k s t') (hp : Action.peek.perform s' = .ok (a, t')) : s'.unread ≠ [] := by
  obtain ⟨-, rfl⟩ := State.of_perform_peek hp
  intro hnil
  have hnil' : s'.looked.unread = [] := (List.suffix_nil.mp (hnil ▸ s'.suffix_skip))
  obtain ⟨x, ts, -, -, heq⟩ := h.abreast.exists_cons h.stops
  rw [heq] at hnil'
  cases hnil'

/-- In front of blanks the next token was not looked at. -/
theorem not_ready_gap (hgap : j.gap ≠ []) {s : State} : ¬ (s.reading j.gap s.held).Ready := by
  obtain ⟨x, rest, hcons⟩ := List.exists_cons_of_ne_nil hgap
  intro hready
  have hskips := hready x rest hcons
  have hx := j.gap_trivia x (hcons ▸ List.mem_cons_self)
  simp [State.skips, hx] at hskips

/-- Both runs have come to the end of the input with the same trees, and blanks are held back. The other run was silent, too, unless a
plain `else` came last. -/
structure Padded (j : Seam .error) (u u' : State) : Prop where
  unread : u.unread = [] ∧ u'.unread = []
  built : u'.top.built = u.top.built
  held : ∃ held, u.held = held ++ j.tail ∧ u'.held = held ++ j.gap
  reports : u'.reports = [] ↔ u.drain.closesElse = false

theorem Ended.padded {u u' : State} (h : Ended j u u') (hsilent : u.Silent) (hcloses : u.closesElse = false) : Padded j u u' := by
  obtain ⟨hnil, held, hheld, rfl⟩ := h
  refine ⟨⟨hnil, next_eq_nil j⟩, rfl, ⟨held, hheld, rfl⟩, iff_of_true hsilent.reports ?_⟩
  rw [State.closesElse_drain, hcloses, Bool.and_false]

/-! ## At the end of the input -/

theorem leads_statements_of_nil {s : State} (hnil : s.unread = []) : Leads (rule (.statements closer)) s fun _ t => t = s.looked := by
  have hend := (State.dry_of_nil hnil).unread_looked
  suffices hgoal : Leads (newlines >>= fun _ => atStatement closer) s fun _ t => t = s.looked from
    hgoal.of_gives fun r hr => statements_iff.mpr hr
  refine .newlines_of_ne ?_ (.act (b := true) (t := s.looked) ?_ (.done rfl))
  · simp only [State.nextKind, hend]
    decide
  · rw [Action.perform, hend]
    rfl

/-- A report at the end of the input leaves the trees as they are. -/
theorem leads_reportFound_of_nil {s : State} (hsteady : s.Steady) (hnil : s.unread = []) (p : Problem) :
    Leads (reportFound p none) s fun _ t => t.unread = [] ∧ t.top.built = s.top.built ∧ t.held = s.held ∧ t.reports ≠ [] := by
  have hlooked := State.looked_of_nil hnil
  have hsteady' : s.looked.Steady := by
    rw [hlooked]
    exact ⟨hsteady.calm, hsteady.held⟩
  refine .peek (.act (b := true) (t := s.looked) ?_ (.single rfl ?_))
  · rw [Action.perform, hlooked, hnil]
    rfl
  · rw [State.skip_of_ready State.ready_looked]
    refine ⟨?_, ?_, ?_, hsteady'.reports_report _⟩ <;> rw [State.report_eq, hlooked]
    exact hnil

/-- Where only blanks are left that were not looked at, a separator is missed. -/
theorem leads_unseparated {s : State} (hsteady : s.Steady) (hfuelled : s.exhausted = false) (hdry : s.Dry) (hne : s.unread ≠ []) :
    Leads (afterStatement none) s fun _ t => t.unread = [] ∧ t.top.built = s.top.built ∧ t.held = s.held ++ s.unread ∧ t.reports ≠ [] := by
  have hlooked : s.looked = { s with unread := [], held := s.held ++ s.unread, patience := s.patience - 1 } :=
    looked_eq s.unread [] (List.append_nil _).symm hdry fun _ ht => by cases ht
  have hkind : s.looked.nextKind = .error := by rw [hlooked]; rfl
  have hsteady' : s.looked.Steady := ⟨s.hushes_skip.steady hsteady |>.calm, s.hushes_skip.steady hsteady |>.held⟩
  refine .act (b := false) (t := s) ?_ (.peek ?_)
  · rw [Action.perform, List.isEmpty_eq_false_iff.mpr hne, hfuelled]
    rfl
  rw [hkind, if_neg (by decide), if_neg (by decide), if_neg (by decide)]
  refine .bind ((leads_reportFound_of_nil hsteady' hdry.unread_looked _).imp fun _ t ht => ?_)
  obtain ⟨hnil, hbuilt, hheld, hreports⟩ := ht
  -- nothing is left to skip or to read
  refine .act (b := true) (t := t) (by rw [Action.perform, hnil]; rfl) ((leads_statements_of_nil hnil).imp fun _ u hu => ?_)
  rw [hu, State.looked_of_nil hnil]
  rw [hlooked] at hbuilt hheld
  exact ⟨hnil, hbuilt, hheld, hreports⟩

/-! ## Statements -/

/-- Where no plain `else` was closed just now, a silent run of statements goes to the end of the input, and so does the other run. -/
def Pads (j : Seam .error) (n : Nat) : Prop :=
  ∀ s s' u : State, Beside j s s' → s.Steady → s.closesElse = false → programStatements.run (runRule n) s = .ok ((), u) → u.Silent →
    Leads programStatements s' fun _ u' => Padded j u u'

section Statements

variable {s s' u : State}

/-- What comes behind the last statement, which is looked past unless it ends with a plain `else`. -/
theorem padded_end (hgap : j.gap ≠ []) (h : Beside j s s') (hsettled : s.Settled) (hsettled' : s'.Settled) (hsteady : s.Steady)
    (hsilent : s.looked.Silent) (hnil : s.unread = []) : Leads (afterStatement none) s' fun _ u' => Padded j s.looked u' := by
  rcases h.ended_or hnil with hended | ⟨htail, rfl⟩
  · have hcloses : s.closesElse = false := by
      refine Bool.eq_false_iff.mpr fun hcloses => ?_
      have hheld := hsettled'.held (h.closesElse.trans hcloses)
      obtain ⟨-, held, -, rfl⟩ := hended
      exact hgap (List.append_eq_nil_iff.mp hheld).2
    have hnil' := hended.unread_eq_nil
    refine .act (b := true) (t := s') (by rw [Action.perform, hnil']; rfl) ((leads_statements_of_nil hnil').imp fun _ u' hu' => ?_)
    rw [hu']
    exact (ended_looked h (State.dry_of_nil hnil)).1.padded hsilent (State.closesElse_looked.trans hcloses)
  · have hcloses : s.closesElse = true := by
      by_contra hopen
      exact not_ready_gap hgap (hsettled'.ready (Bool.eq_false_iff.mpr hopen))
    have hheld := hsettled.held hcloses
    have hlooked := State.looked_of_nil hnil
    have hfuelled : s.exhausted = false := by
      rw [hlooked] at hsilent
      exact hsilent.fuelled
    refine (leads_unseparated (s := s.reading j.gap s.held) (h.steady hsteady) hfuelled j.gap_trivia hgap).imp fun _ u' hu' => ?_
    obtain ⟨hunread, hbuilt, hheld', hreports⟩ := hu'
    rw [hlooked]
    refine ⟨⟨hnil, hunread⟩, hbuilt, ⟨[], by rw [htail]; exact hheld, ?_⟩, iff_of_false hreports ?_⟩
    · rw [hheld', show (s.reading j.gap s.held).held = [] from hheld]
      rfl
    · rw [State.closesElse_drain]
      show ¬ (s.held.isEmpty && s.closesElse) = false
      rw [hheld, hcloses]
      decide

theorem Pads.newlines (ih : Pads j n) (h : Beside j s s') (hsteady : s.Steady) (hcloses : s.closesElse = false ∨ s.looked.nextKind = .newline)
    (hrun : (Parser.newlines >>= fun _ => programStatements).run (runRule n) s = .ok ((), u)) (hsilent : u.Silent) :
    Leads (Parser.newlines >>= fun _ => programStatements) s' fun _ u' => Padded j u u' := by
  obtain ⟨_, t, hnewlines, hrest⟩ := Routine.run_bind_eq_ok.mp hrun
  have ht := (respected_hushes.run hrest).silent hsilent
  obtain ⟨t', hnewlines', hbeside⟩ := carries_newlines n s s' h hsteady _ t hnewlines ht
  have hopen := accepts_newlines_open hcloses hsteady _ t hnewlines ht
  exact .bind (.inr ⟨(), t', .of_run hnewlines', ih t t' u hbeside ((respected_hushes.run hnewlines).steady hsteady) hopen hrest hsilent⟩)

/-- What comes behind a statement is a separator, and more statements, or the end. -/
theorem Pads.afterStatement (hgap : j.gap ≠ []) (ih : Pads j n) (h : Beside j s s') (hsettled : s.Settled) (hsettled' : s'.Settled)
    (hsteady : s.Steady) (hrun : (Parser.afterStatement none).run (runRule n) s = .ok ((), u)) (hsilent : u.Silent) :
    Leads (Parser.afterStatement none) s' fun _ u' => Padded j u u' := by
  rcases of_run_afterStatement hsteady hrun hsilent with ⟨hnil, hstatements⟩ | ⟨hne, hseparated⟩
  · obtain ⟨rfl, -⟩ := run_programStatements_of_dry (State.dry_of_nil hnil) hstatements
    exact padded_end hgap h hsettled hsettled' hsteady hsilent hnil
  · have hfuelled : s'.exhausted = false := (h.silent ((respected_hushes.run hrun).silent hsilent)).fuelled
    have habreast (hdry : ¬ s.Dry) : Abreast j s s' := h.reading.resolve_right fun hended => hdry hended.dry
    rcases hseparated with ⟨hp, hmore⟩ | ⟨hp, t, hadvance, hmore⟩
    · have hdry := not_dry_of_perform_peek hp (by decide)
      obtain ⟨t', hp', ht⟩ := looked_abreast (habreast hdry) h.separating hdry hp
      have hnewline : s.looked.looked.nextKind = .newline := by
        rw [State.nextKind_looked_looked]
        exact (State.of_perform_peek hp).1.symm
      refine (ih.newlines ht.beside ((hushes_perform hp).steady hsteady) (.inr hnewline) hmore hsilent).of_gives fun r hr => ?_
      exact gives_afterStatement_newline (ht.unread_ne_nil hp') hfuelled hp' hr
    · have hdry := not_dry_of_perform_peek hp (by decide)
      obtain ⟨t', hp', ht⟩ := looked_abreast (habreast hdry) h.separating hdry hp
      obtain ⟨w', hadvance', hw⟩ := advance_beside ht hadvance
      obtain ⟨x, rest, -, rfl⟩ := State.of_perform_advance hadvance
      have hsteady' := (hushes_perform hadvance).steady ((hushes_perform hp).steady hsteady)
      refine (ih.newlines hw hsteady' (.inl rfl) hmore hsilent).of_gives fun r hr => ?_
      exact gives_afterStatement_semicolon (ht.unread_ne_nil hp') hfuelled hp' hadvance' hr

/-- Where a statement may begin, both runs are at the end, or they read one. -/
theorem Pads.atStatement (hgap : j.gap ≠ []) (ih : Pads j n) (h : Beside j s s') (hat : s.AtToken) (hat' : s'.AtToken) (hsteady : s.Steady)
    (hcloses : s.closesElse = false) (hrun : (Parser.atStatement none).run (runRule n) s = .ok ((), u)) (hsilent : u.Silent) :
    Leads (Parser.atStatement none) s' fun _ u' => Padded j u u' := by
  rcases of_run_atStatement hsteady hrun hsilent with ⟨hnil, rfl⟩ | ⟨-, k, kind, x, hp, hfirst, hstatement, hafter⟩
  · have hended : Ended j u s' := (h.ended_or hnil).resolve_right fun hgoes => by
      obtain ⟨-, rfl⟩ := hgoes
      exact not_ready_gap hgap hat'.ready
    have hnil' := hended.unread_eq_nil
    exact .act (b := true) (t := s') (by rw [Action.perform, hnil']; rfl) (.done (hended.padded hsilent hcloses))
  · have hdry := not_dry_of_perform_peek hp (ne_of_statementFirst hfirst).1
    have habreast : Abreast j s s' := h.reading.resolve_right fun hended => hdry hended.dry
    obtain ⟨t', hp', ht⟩ := looked_abreast habreast h.separating hdry hp
    obtain ⟨-, rfl⟩ := State.of_perform_peek hp'
    have hsteady' := (hushes_perform hp).steady hsteady
    have hsilent' := (respected_hushes.run hafter).silent hsilent
    obtain ⟨x', hstatement', hx⟩ := (spine j n).statement k _ _ ht hsteady' kind x hstatement hsilent'
    have hsettled : x.Settled := (settles_rules n).1 _ hat.atLooked hsteady' _ _ hstatement hsilent'
    have hsettled' : x'.Settled := (settles_rules n).1 _ hat'.atLooked (ht.beside.steady hsteady') _ _ hstatement' (hx.silent hsilent')
    have hfuelled : s'.exhausted = false := (h.silent ((respected_hushes.run hrun).silent hsilent)).fuelled
    have hafter' := ih.afterStatement hgap hx hsettled hsettled' ((respected_hushes.run hstatement).steady hsteady') hafter hsilent
    refine Leads.of_gives (.bind (f := fun _ => Parser.afterStatement none) (.inr ⟨kind, x', .of_run hstatement', hafter'⟩)) fun r hr => ?_
    exact gives_atStatement (ht.unread_ne_nil hp') hfuelled hp' hfirst (Option.some_ne_none k).symm hr

end Statements

/-- The statements of a program with blanks behind them, by induction on the bound on nested rules. -/
theorem pads_programStatements (hgap : j.gap ≠ []) (n : Nat) : Pads j n := by
  induction n with
  | zero => exact fun _ _ _ _ _ _ hrun => by cases hrun
  | succ n ih =>
    intro s s' u h hsteady hcloses hrun hsilent
    have hbody : (newlines >>= fun _ => atStatement none).run (runRule n) s = .ok ((), u) := by
      rw [← statementsBody_eq]
      exact hrun
    obtain ⟨_, t, hnewlines, hrest⟩ := Routine.run_bind_eq_ok.mp hbody
    have hsilent' := (respected_hushes.run hrest).silent hsilent
    obtain ⟨t', hnewlines', ht⟩ := carries_newlines n s s' h hsteady _ t hnewlines hsilent'
    have hopen := accepts_newlines_open (.inl hcloses) hsteady _ t hnewlines hsilent'
    have hat := accepts_atToken s hsteady _ t hnewlines hsilent'
    have hat' := accepts_atToken s' (h.steady hsteady) _ t' hnewlines' (ht.silent hsilent')
    have hgoal := ih.atStatement hgap ht hat hat' ((respected_hushes.run hnewlines).steady hsteady) hopen hrest hsilent
    exact Leads.of_gives (.bind (.inr ⟨(), t', .of_run hnewlines', hgoal⟩)) fun r hr => statements_iff.mpr hr

end Remap.Parser
