import Remap.Proofs.Parser.Echo
import Remap.Proofs.Parser.Gives
import Remap.Proofs.Parser.Shadow
import Remap.Proofs.Parser.Skipping
import Remap.Proofs.Parser.Spine
import Remap.Proofs.RoundTrip

/-!
# Crossing a seam

One run reads the statements of a row of tokens by itself; the other one reads them with a newline and a second row after
them, perhaps as statements of a block. If the first run is silent, the second one comes to the newline, reads it, and goes on
with the statements of the second row (`Crosses`). Those of a program it reads as they are read by themselves (`gives_of_resumes`).
-/

namespace Remap.Parser

variable {j : Seam .newline} {n : Nat} {closer : Option Kind}

/-- The statements of a program. -/
def programStatements : Routine Unit := rule (.statements none)

/-- What comes after a statement. -/
def afterStatement (closer : Option Kind) : Routine Unit := do
  if ← stopped then rule (.statements closer)
  else
    let k ← peek
    if k = .newline then
      newlines
      rule (.statements closer)
    else if k = .semicolon then
      advance
      newlines
      rule (.statements closer)
    else if closer = some k then rule (.statements closer)
    else
      reportFound .missingSeparator none
      skipStatement
      rule (.statements closer)

/-- Statements from where the first begins. -/
def atStatement (closer : Option Kind) : Routine Unit := do
  if ← stopped then return ()
  else
    let k ← peek
    if closer = some k then return ()
    else if k = .semicolon then
      straySemicolon
      rule (.statements closer)
    else if k.isCloser then
      reportAndAdvance .unexpectedToken (.unmatched k)
      rule (.statements closer)
    else if KindSet.statementFirst.contains k then
      let _ ← rule .statement
      afterStatement closer
    else
      reportFound .expectedExpression none
      skipStatement
      rule (.statements closer)

theorem endOfStatement_bind (closer : Option Kind) :
    (statementAndEnd closer >>= fun _ => rule (.statements closer)) = (rule .statement >>= fun _ => afterStatement closer) := by
  simp only [statementAndEnd, endOfStatement, afterStatement, Routine.bind_eq, Routine.pure_eq, Routine.bind_assoc]
  congr 1
  funext _
  congr 1
  funext b
  cases b with
  | true => rfl
  | false =>
    simp only [Bool.false_eq_true, if_false, Routine.bind_assoc]
    congr 1
    funext k
    split
    · rfl
    · split
      · rfl
      · split
        · rfl
        · rw [Routine.bind_assoc]
          rfl

theorem statementsBody_eq (closer : Option Kind) : statementsBody closer = (newlines >>= fun _ => atStatement closer) := by
  unfold statementsBody atStatement
  congr 1
  funext _
  congr 1
  funext b
  cases b with
  | true => rfl
  | false =>
    simp only [Bool.false_eq_true, if_false]
    congr 1
    funext k
    split
    · rfl
    · split
      · rfl
      · split
        · rfl
        · split
          · exact endOfStatement_bind closer
          · rfl

/-! ## Silent runs of statements -/

/-- What begins a statement neither closes a bracket nor separates statements. -/
theorem ne_of_statementFirst {k : Kind} (h : KindSet.statementFirst.contains k = true) :
    k ≠ .error ∧ k ≠ .semicolon ∧ k.isCloser = false := by
  revert h
  cases k <;> decide

/-- Where something is found that is no end of the input, more is left than trivia. -/
theorem not_dry_of_perform_peek {s t : State} {k : Kind} (hp : Action.peek.perform s = .ok (k, t)) (hk : k ≠ .error) : ¬ s.Dry := by
  intro hdry
  obtain ⟨rfl, -⟩ := State.of_perform_peek hp
  exact hk (by simp only [State.nextKind, hdry.unread_looked])

/-- Where a statement may begin, a silent run is at the end of the input, or it reads a statement and goes on. -/
theorem of_run_atStatement {s u : State} (hsteady : s.Steady) (hrun : (atStatement none).run (runRule n) s = .ok ((), u)) (hsilent : u.Silent) :
    s.unread = [] ∧ u = s ∨
      s.unread ≠ [] ∧ ∃ k kind x, Action.peek.perform s = .ok (k, s.looked) ∧ KindSet.statementFirst.contains k = true ∧
        (rule .statement).run (runRule n) s.looked = .ok (kind, x) ∧ (afterStatement none).run (runRule n) x = .ok ((), u) := by
  obtain ⟨b, t, hstopped, hrest⟩ := Routine.run_bind_eq_ok.mp hrun
  rw [Parser.stopped, Routine.run_single] at hstopped
  cases hstopped
  have hfuelled : s.exhausted = false := ((respected_hushes.run hrest).silent hsilent).fuelled
  rw [hfuelled, Bool.or_false] at hrest
  by_cases hnil : s.unread = []
  · rw [hnil] at hrest
    cases hrest
    exact .inl ⟨hnil, rfl⟩
  · rw [List.isEmpty_eq_false_iff.mpr hnil] at hrest
    obtain ⟨k, w, hp, hmore⟩ := Routine.run_bind_eq_ok.mp hrest
    rw [Parser.peek, Routine.run_single] at hp
    have hsteady' := (hushes_perform hp).steady hsteady
    obtain ⟨-, rfl⟩ := State.of_perform_peek hp
    rw [if_neg (Option.some_ne_none k).symm] at hmore
    split at hmore
    · exact (Accepts.never (.reportAndAdvance _ _) (Q := fun _ _ => False) hsteady' _ _ hmore hsilent).elim
    split at hmore
    · exact (Accepts.never (.reportAndAdvance _ _) (Q := fun _ _ => False) hsteady' _ _ hmore hsilent).elim
    split at hmore
    · rename_i hfirst
      obtain ⟨kind, x, hstatement, hafter⟩ := Routine.run_bind_eq_ok.mp hmore
      exact .inr ⟨hnil, k, kind, x, hp, hfirst, hstatement, hafter⟩
    · exact (Accepts.never (.reportFound _ _) (Q := fun _ _ => False) hsteady' _ _ hmore hsilent).elim

/-- Where a statement begins, it is read. -/
theorem gives_atStatement {s t : State} {k : Kind} {r : Except Fault (Unit × State)} (hne : s.unread ≠ []) (hfuelled : s.exhausted = false)
    (hp : Action.peek.perform s = .ok (k, t)) (hfirst : KindSet.statementFirst.contains k = true) (hcloser : closer ≠ some k)
    (h : Gives (rule .statement >>= fun _ => afterStatement closer) t r) : Gives (atStatement closer) s r := by
  obtain ⟨-, hsemicolon, hopen⟩ := ne_of_statementFirst hfirst
  refine Gives.act (a := false) (t := s) ?_ (Gives.act hp ?_)
  · rw [Action.perform, List.isEmpty_eq_false_iff.mpr hne, hfuelled]
    rfl
  · rw [if_neg hcloser, if_neg hsemicolon, if_neg (Bool.eq_false_iff.mp hopen), if_pos hfirst]
    exact h

/-- Behind a statement a silent run is at the end of the input, or it reads a separator and goes on. -/
theorem of_run_afterStatement {s u : State} (hsteady : s.Steady) (hrun : (afterStatement none).run (runRule n) s = .ok ((), u))
    (hsilent : u.Silent) :
    s.unread = [] ∧ programStatements.run (runRule n) s = .ok ((), u) ∨
      s.unread ≠ [] ∧
        (Action.peek.perform s = .ok (.newline, s.looked) ∧ (newlines >>= fun _ => programStatements).run (runRule n) s.looked = .ok ((), u) ∨
          Action.peek.perform s = .ok (.semicolon, s.looked) ∧ ∃ t, Action.advance.perform s.looked = .ok ((), t) ∧
            (newlines >>= fun _ => programStatements).run (runRule n) t = .ok ((), u)) := by
  obtain ⟨b, t, hstopped, hrest⟩ := Routine.run_bind_eq_ok.mp hrun
  rw [Parser.stopped, Routine.run_single] at hstopped
  cases hstopped
  have hfuelled : s.exhausted = false := ((respected_hushes.run hrest).silent hsilent).fuelled
  rw [hfuelled, Bool.or_false] at hrest
  by_cases hnil : s.unread = []
  · rw [hnil] at hrest
    exact .inl ⟨hnil, hrest⟩
  · refine .inr ⟨hnil, ?_⟩
    rw [List.isEmpty_eq_false_iff.mpr hnil] at hrest
    obtain ⟨k, w, hp, hmore⟩ := Routine.run_bind_eq_ok.mp hrest
    rw [Parser.peek, Routine.run_single] at hp
    have hsteady' := (hushes_perform hp).steady hsteady
    obtain ⟨-, rfl⟩ := State.of_perform_peek hp
    split at hmore
    · rename_i hk
      exact .inl ⟨hk ▸ hp, hmore⟩
    split at hmore
    · rename_i hk
      obtain ⟨_, t, hadvance, hmore⟩ := Routine.run_bind_eq_ok.mp hmore
      rw [Parser.advance, Routine.run_single] at hadvance
      exact .inr ⟨hk ▸ hp, t, hadvance, hmore⟩
    · exact (Accepts.never (.reportFound _ _) (Q := fun _ _ => False) hsteady' _ _ hmore hsilent).elim

/-- A newline behind a statement is read, and more. -/
theorem gives_afterStatement_newline {s t : State} {r : Except Fault (Unit × State)} (hne : s.unread ≠ []) (hfuelled : s.exhausted = false)
    (hp : Action.peek.perform s = .ok (.newline, t)) (h : Gives (newlines >>= fun _ => rule (.statements closer)) t r) :
    Gives (afterStatement closer) s r := by
  refine Gives.act (a := false) (t := s) ?_ (Gives.act hp h)
  rw [Action.perform, List.isEmpty_eq_false_iff.mpr hne, hfuelled]
  rfl

/-- A semicolon behind a statement is read, and newlines and more. -/
theorem gives_afterStatement_semicolon {s t t' : State} {r : Except Fault (Unit × State)} (hne : s.unread ≠ []) (hfuelled : s.exhausted = false)
    (hp : Action.peek.perform s = .ok (.semicolon, t)) (hadvance : Action.advance.perform t = .ok ((), t'))
    (h : Gives (newlines >>= fun _ => rule (.statements closer)) t' r) : Gives (afterStatement closer) s r := by
  refine Gives.act (a := false) (t := s) ?_ (Gives.act hp (Gives.act hadvance h))
  rw [Action.perform, List.isEmpty_eq_false_iff.mpr hne, hfuelled]
  rfl

/-! ## Through the newline -/

theorem State.skip_of_nil {s : State} (hnil : s.unread = []) : s.skip = s :=
  skip_of_ready fun t rest hunread => by cases hnil.symm.trans hunread

theorem State.looked_of_nil {s : State} (hnil : s.unread = []) : s.looked = { s with patience := s.patience - 1 } := by
  rw [looked, skip_of_nil hnil]

/-- The first run has come to the end of the first row, and the other one has just read the newline there. -/
def Crossed (j : Seam .newline) (u v : State) : Prop := ∃ u', Ended j u u' ∧ v = u'.consumed j.stop j.after

/-- One more look at the end of the input makes no difference. -/
theorem crossed_looked {u v : State} (hnil : u.unread = []) : Crossed j u.looked v ↔ Crossed j u v := by
  rw [State.looked_of_nil hnil]
  constructor
  · rintro ⟨_, ⟨-, held, htail, rfl⟩, rfl⟩
    exact ⟨_, ⟨hnil, held, htail, rfl⟩, rfl⟩
  · rintro ⟨_, ⟨-, held, htail, rfl⟩, rfl⟩
    exact ⟨_, ⟨hnil, held, htail, rfl⟩, rfl⟩

theorem Crossed.unread_eq {u v : State} (h : Crossed j u v) : u.unread = [] := by
  obtain ⟨_, hended, -⟩ := h
  exact hended.1

/-- At the end of the first row the other run reads the newline. -/
theorem crossed_of_dry {s s' : State} (h : Beside j s s') (hdry : s.Dry) {a : Kind} {t : State} (hp : Action.peek.perform s = .ok (a, t)) :
    ∃ v, Crossed j s.looked v ∧ ∀ r, Gives newlines v r → Gives newlines s' r := by
  obtain ⟨-, t', hp', -, -⟩ := looked_ended h hdry hp
  obtain ⟨hended, -, -⟩ := ended_looked h hdry
  obtain ⟨-, rfl⟩ := State.of_perform_peek hp'
  refine ⟨s'.looked.consumed j.stop j.after, ⟨_, hended, rfl⟩, fun r hr => Gives.rule_iff.mpr (Gives.act hp' ?_)⟩
  obtain ⟨-, held, -, hs'⟩ := hended
  have hunread : s'.looked.unread = j.stop :: j.after := by
    rw [hs', ← j.next_eq]
    rfl
  exact Gives.act (State.perform_advance hunread) hr

/-- Consuming a token of the first row. -/
theorem advance_beside {stop k : Kind} {j : Seam stop} {s s' t : State} (h : Poised j k s s') (hp : Action.advance.perform s = .ok ((), t)) :
    ∃ t', Action.advance.perform s' = .ok ((), t') ∧ Beside j t t' := by
  obtain ⟨t', hp', ht⟩ := perform_abreast rfl h.abreast h.stops hp
  obtain ⟨x, rest, hunread, -, -⟩ := h.next
  rw [State.perform_advance hunread] at hp
  cases hp
  exact ⟨t', hp', h.separating, .inl ht⟩

/-- Newlines that the first row ends with are followed by the one after it. -/
theorem crossed_newlines (n : Nat) {s s' u : State} {a : Unit} (h : Beside j s s') (hrun : newlines.run (runRule n) s = .ok (a, u))
    (hdry : u.Dry) : ∃ v, Crossed j u v ∧ ∀ r, Gives newlines v r → Gives newlines s' r := by
  induction n generalizing s s' with
  | zero => cases hrun
  | succ n ih =>
    obtain ⟨b, t, hpeek, hrest⟩ := Routine.run_bind_eq_ok.mp (show newlinesBody.run (runRule n) s = .ok (a, u) from hrun)
    obtain ⟨k, t, hp, hdone⟩ := Routine.run_bind_eq_ok.mp hpeek
    cases hdone
    rw [Parser.peek, Routine.run_single] at hp
    by_cases hend : s.Dry
    · obtain ⟨rfl, -⟩ := looked_ended h hend hp
      obtain ⟨-, rfl⟩ := State.of_perform_peek hp
      cases hrest
      exact crossed_of_dry h hend hp
    · have habreast : Abreast j s s' := h.reading.resolve_right fun hended => hend hended.dry
      obtain ⟨t', hp', ht⟩ := looked_abreast habreast h.separating hend hp
      split at hrest
      · rename_i hk
        obtain rfl : k = .newline := eq_of_beq hk
        obtain ⟨_, w, hadvance, hmore⟩ := Routine.run_bind_eq_ok.mp hrest
        rw [Parser.advance, Routine.run_single] at hadvance
        obtain ⟨w', hadvance', hw⟩ := advance_beside ht hadvance
        obtain ⟨v, hv, hgives⟩ := ih hw hmore
        exact ⟨v, hv, fun r hr => Gives.rule_iff.mpr (Gives.act hp' (Gives.act hadvance' (hgives r hr)))⟩
      · cases hrest
        exact absurd hdry ht.not_dry

/-! ## Statements -/

/-- A routine goes on from the first state as statements do from the second, perhaps after a second look for newlines. -/
def Resumes (closer : Option Kind) (x : Routine Unit) (s v : State) : Prop :=
  (∀ r, Gives (rule (.statements closer)) v r → Gives x s r) ∨
    ∀ r, Gives (newlines >>= fun _ => rule (.statements closer)) v r → Gives x s r

/-- The second run reads the newline after the first row and goes on, unless it is found to be stuck. The first run ends with
the state `u`. -/
def Crosses (j : Seam .newline) (closer : Option Kind) (x : Routine Unit) (s' u : State) : Prop :=
  Gives x s' (.error .stuck) ∨ ∃ v, Crossed j u v ∧ Resumes closer x s' v

theorem Crosses.mono {x y : Routine Unit} {s' t' u : State} (h : Crosses j closer x s' u) (hgives : ∀ r, Gives x s' r → Gives y t' r) :
    Crosses j closer y t' u := by
  rcases h with hstuck | ⟨v, hv, hresumes⟩
  · exact .inl (hgives _ hstuck)
  · exact .inr ⟨v, hv, hresumes.imp (fun h r hr => hgives r (h r hr)) fun h r hr => hgives r (h r hr)⟩

/-- What newlines lead to is what they lead to from elsewhere. -/
theorem gives_newlines_bind {s v : State} (h : ∀ r, Gives newlines v r → Gives newlines s r) {f : Unit → Routine Unit}
    {r : Except Fault (Unit × State)} (hr : Gives (newlines >>= f) v r) : Gives (newlines >>= f) s r := by
  rcases hr.of_bind with ⟨a, t, hnewlines, hrest⟩ | ⟨e, hnewlines, rfl⟩
  · exact (h _ hnewlines).bind hrest
  · exact (h _ hnewlines).bind_error

theorem statements_iff {s : State} {r : Except Fault (Unit × State)} :
    Gives (rule (.statements closer)) s r ↔ Gives (newlines >>= fun _ => atStatement closer) s r := by
  rw [← statementsBody_eq]
  exact Gives.rule_iff

/-- Where nothing but trivia is left, the statements of a program are over after one look. -/
theorem run_programStatements_of_dry {s u : State} (hdry : s.Dry) (hrun : programStatements.run (runRule n) s = .ok ((), u)) :
    u = s.looked ∧ ∃ k, Action.peek.perform s = .ok (k, s.looked) := by
  cases n with
  | zero => cases hrun
  | succ n =>
    have hbody : (newlines >>= fun _ => atStatement none).run (runRule n) s = .ok ((), u) := by
      rw [← statementsBody_eq]
      exact hrun
    obtain ⟨_, t, hnewlines, hrest⟩ := Routine.run_bind_eq_ok.mp hbody
    cases n with
    | zero => cases hnewlines
    | succ n =>
      obtain ⟨b, w, hpeek, hmore⟩ := Routine.run_bind_eq_ok.mp (show newlinesBody.run (runRule n) s = .ok ((), t) from hnewlines)
      obtain ⟨k, w, hp, hdone⟩ := Routine.run_bind_eq_ok.mp hpeek
      cases hdone
      rw [Parser.peek, Routine.run_single] at hp
      obtain ⟨rfl, rfl⟩ := State.of_perform_peek hp
      have hnil := hdry.unread_looked
      rw [show s.looked.nextKind = .error by simp only [State.nextKind, hnil]] at hmore hp
      cases hmore
      obtain ⟨b, w, hstopped, hdone⟩ := Routine.run_bind_eq_ok.mp hrest
      rw [Parser.stopped, Routine.run_single, Action.perform, hnil] at hstopped
      cases hstopped
      cases hdone
      exact ⟨rfl, _, hp⟩

/-- Newlines and then statements, if statements cross the seam. -/
theorem crosses_newlines (ih : ∀ {s s' u : State}, Beside j s s' → s.Steady → programStatements.run (runRule n) s = .ok ((), u) →
      u.Silent → Crosses j closer (rule (.statements closer)) s' u)
    {s s' u : State} (h : Beside j s s') (hsteady : s.Steady)
    (hrun : (newlines >>= fun _ => programStatements).run (runRule n) s = .ok ((), u)) (hsilent : u.Silent) :
    Crosses j closer (newlines >>= fun _ => rule (.statements closer)) s' u := by
  obtain ⟨_, t, hnewlines, hrest⟩ := Routine.run_bind_eq_ok.mp hrun
  by_cases hdry : t.Dry
  · obtain ⟨v, hv, hgives⟩ := crossed_newlines n h hnewlines hdry
    obtain ⟨rfl, -⟩ := run_programStatements_of_dry hdry hrest
    exact .inr ⟨v, (crossed_looked hv.unread_eq).mpr hv, .inr fun r hr => gives_newlines_bind hgives hr⟩
  · have habreast : Abreast j s s' :=
      h.reading.resolve_right fun hended => hdry (hended.dry.of_suffix (respected_suffix.run hnewlines))
    obtain ⟨hseparating, t', hnewlines', ht⟩ := stays_newlines n s s' t () habreast h.separating hnewlines hdry
    have hsteady' := (respected_hushes.run hnewlines).steady hsteady
    exact (ih ⟨hseparating, .inl ht⟩ hsteady' hrest hsilent).mono fun r hr => (Gives.of_run hnewlines').bind hr

/-- A look at the next token breaks down only if no lookaheads are left. -/
theorem perform_peek (s : State) :
    Action.peek.perform s = if s.patience = 0 then .error .stuck else .ok (s.looked.nextKind, s.looked) := by
  have hpatience : s.skip.patience = s.patience := by rw [State.skip_eq]
  simp only [Action.perform, look, hpatience]
  rfl

/-- In the second row there is always something left to read. -/
theorem Beside.stays_live {s s' : State} (h : Beside j s s') : s'.exhausted = s.exhausted ∧ s'.unread ≠ [] := by
  rcases h.reading with ⟨front, -, -, rfl⟩ | ⟨-, held, -, rfl⟩
  · exact ⟨rfl, by simp [State.reading, Seam.rest_eq]⟩
  · exact ⟨rfl, j.next_eq ▸ List.cons_ne_nil _ _⟩

/-- What comes after a statement, if statements cross the seam. -/
theorem crosses_afterStatement (ih : ∀ {s s' u : State}, Beside j s s' → s.Steady → programStatements.run (runRule n) s = .ok ((), u) →
      u.Silent → Crosses j closer (rule (.statements closer)) s' u)
    {s s' u : State} (h : Beside j s s') (hsteady : s.Steady) (hrun : (afterStatement none).run (runRule n) s = .ok ((), u)) (hsilent : u.Silent) :
    Crosses j closer (afterStatement closer) s' u := by
  obtain ⟨hexhausted, hlive⟩ := h.stays_live
  have hfuelled : s'.exhausted = false := hexhausted.trans ((respected_hushes.run hrun).silent hsilent).fuelled
  rcases of_run_afterStatement hsteady hrun hsilent with ⟨hnil, hstatements⟩ | ⟨-, hseparated⟩
  · have hdry := State.dry_of_nil hnil
    obtain ⟨hended, hnewline, hpatience⟩ := ended_looked h hdry
    obtain ⟨rfl, k, hp⟩ := run_programStatements_of_dry hdry hstatements
    obtain ⟨-, t', hp', ht, hdry'⟩ := looked_ended h hdry hp
    obtain ⟨-, rfl⟩ := State.of_perform_peek hp'
    suffices hcrosses : Crosses j closer (newlines >>= fun _ => rule (.statements closer)) s'.looked s.looked from
      hcrosses.mono fun r hr => gives_afterStatement_newline hlive hfuelled hp' hr
    -- the look for newlines is one that the first run does without
    cases hlook : Action.peek.perform s.looked with
    | ok r =>
      obtain ⟨k', w⟩ := r
      obtain ⟨v, hv, hgives⟩ := crossed_of_dry ht hdry' hlook
      exact .inr ⟨v, (crossed_looked hended.1).mp hv, .inr fun r hr => gives_newlines_bind hgives hr⟩
    | error e =>
      have hempty : s.looked.patience = 0 ∧ e = .stuck := by
        rw [perform_peek] at hlook
        split at hlook <;> cases hlook
        exact ⟨‹_›, rfl⟩
      obtain ⟨hnone, rfl⟩ := hempty
      have hlook' : Action.peek.perform s'.looked = .error .stuck := by
        rw [perform_peek, if_pos]
        show s'.patience - 1 = 0
        rw [hpatience]
        exact hnone
      exact .inl (Gives.bind_error (Gives.rule_iff.mpr (Gives.act_error (f := fun k => _) (by decide) hlook')))
  · have habreast (hdry : ¬ s.Dry) : Abreast j s s' := h.reading.resolve_right fun hended => hdry hended.dry
    rcases hseparated with ⟨hp, hmore⟩ | ⟨hp, t, hadvance, hmore⟩
    · have hdry := not_dry_of_perform_peek hp (by decide)
      obtain ⟨t', hp', ht⟩ := looked_abreast (habreast hdry) h.separating hdry hp
      refine (crosses_newlines ih ht.beside ((hushes_perform hp).steady hsteady) hmore hsilent).mono fun r hr => ?_
      exact gives_afterStatement_newline hlive hfuelled hp' hr
    · have hdry := not_dry_of_perform_peek hp (by decide)
      obtain ⟨t', hp', ht⟩ := looked_abreast (habreast hdry) h.separating hdry hp
      obtain ⟨w', hadvance', hw⟩ := advance_beside ht hadvance
      have hsteady' := (hushes_perform hadvance).steady ((hushes_perform hp).steady hsteady)
      refine (crosses_newlines ih hw hsteady' hmore hsilent).mono fun r hr => ?_
      exact gives_afterStatement_semicolon hlive hfuelled hp' hadvance' hr

/-- The statements of the first row, and then the newline after it. They may be those of a block: what closes that is not met in
the first row. By induction on the bound on nested rules. -/
theorem crosses_programStatements (hcloser : ∀ k ∈ closer, k.isCloser = true) (n : Nat) {s s' u : State} (h : Beside j s s')
    (hsteady : s.Steady) (hrun : programStatements.run (runRule n) s = .ok ((), u)) (hsilent : u.Silent) :
    Crosses j closer (rule (.statements closer)) s' u := by
  induction n generalizing s s' u with
  | zero => cases hrun
  | succ n ih =>
    have hbody : (newlines >>= fun _ => atStatement none).run (runRule n) s = .ok ((), u) := by
      rw [← statementsBody_eq]
      exact hrun
    obtain ⟨_, t, hnewlines, hrest⟩ := Routine.run_bind_eq_ok.mp hbody
    have hsteady' := (respected_hushes.run hnewlines).steady hsteady
    rcases of_run_atStatement hsteady' hrest hsilent with ⟨hnil, rfl⟩ | ⟨-, k, kind, x, hp, hfirst, hstatement, hafter⟩
    · obtain ⟨v, hv, hgives⟩ := crossed_newlines n h hnewlines (State.dry_of_nil hnil)
      exact .inr ⟨v, hv, .inl fun r hr => statements_iff.mpr (gives_newlines_bind hgives (statements_iff.mp hr))⟩
    · obtain ⟨herror, -, hopen⟩ := ne_of_statementFirst hfirst
      have hdry := not_dry_of_perform_peek hp herror
      have habreast : Abreast j s s' :=
        h.reading.resolve_right fun hended => hdry (hended.dry.of_suffix (respected_suffix.run hnewlines))
      obtain ⟨hseparating, t', hnewlines', ht⟩ := stays_newlines n s s' t () habreast h.separating hnewlines hdry
      obtain ⟨w', hp', hw⟩ := looked_abreast ht hseparating hdry hp
      have hbeside : Beside j t t' := ⟨hseparating, .inl ht⟩
      obtain ⟨hexhausted, hlive⟩ := hbeside.stays_live
      have hfuelled : t'.exhausted = false := hexhausted.trans ((respected_hushes.run hrest).silent hsilent).fuelled
      have hsteady'' := (hushes_perform hp).steady hsteady'
      have hsilent' := (respected_hushes.run hafter).silent hsilent
      obtain ⟨x', hstatement', hx⟩ := (spine j n).statement k _ w' hw hsteady'' kind x hstatement hsilent'
      have hcrosses := crosses_afterStatement ih hx ((respected_hushes.run hstatement).steady hsteady'') hafter hsilent
      have hother : closer ≠ some k := fun heq => Bool.noConfusion ((hcloser k heq).symm.trans hopen)
      refine hcrosses.mono fun r hr => statements_iff.mpr ((Gives.of_run hnewlines').bind ?_)
      exact gives_atStatement hlive hfuelled hp' hfirst hother ((Gives.of_run hstatement').bind hr)

/-! ## The whole program -/

/-- The state in which the statements of a program begin. -/
def opened (tokens : List Token) (limit : Nat) (fuel : Option Nat) : State := (State.start tokens limit fuel).pushed (some .program)

/-- The result of a program whose statements end in a state. -/
def resultOf (u : State) : Result := ⟨.node .program u.skip.drain.top.built.reverse, u.reports.reverse, u.exhausted⟩

theorem kept_opened {tokens : List Token} {limit : Nat} {fuel : Option Nat} {u : State}
    (hrun : programStatements.run (runRule n) (opened tokens limit fuel) = .ok ((), u)) : Kept (opened tokens limit fuel) u :=
  ((scoped_runRule n (.statements none)).kept _).of_ok hrun

/-- After the statements of a program only its node is to be closed. -/
theorem run_program {tokens : List Token} {limit : Nat} {fuel : Option Nat} {u : State}
    (hrun : programStatements.run (runRule n) (opened tokens limit fuel) = .ok ((), u)) :
    ∃ t, program.run (runRule n) (.start tokens limit fuel) = .ok ((), t) ∧ t.finish = .ok (resultOf u) := by
  have hkept : Kept (opened tokens limit fuel) u.skip.drain := (kept_opened hrun).trans ((Kept.skip u).trans (Kept.drain u.skip))
  have hlabel : u.skip.drain.top.label = some .program := hkept.label
  have hbelow : u.skip.drain.below = [⟨none, 0, []⟩] := hkept.below
  have hdelimiters : u.skip.drain.delimiters = [] := hkept.delimiters
  have hreports : u.skip.drain.reports = u.reports ∧ u.skip.drain.exhausted = u.exhausted := by
    rw [State.drain_eq, State.skip_eq]
    exact ⟨rfl, rfl⟩
  obtain ⟨t, hclose, hfinish⟩ : ∃ t, Action.closeNode.perform u.skip.drain = .ok ((), t) ∧ t.finish = .ok (resultOf u) := by
    refine ⟨{ u.skip.drain with top := ⟨none, 0, [.node .program u.skip.drain.top.built.reverse]⟩, below := [] }, ?_, ?_⟩
    · simp only [Action.perform, hlabel, hbelow]
    · simp only [State.finish, hdelimiters, resultOf, hreports]
  have hbody : (programStatements >>= fun _ => act .settle).run (runRule n) (opened tokens limit fuel) = .ok ((), u.skip.drain) :=
    Routine.run_bind_eq_ok.mpr ⟨(), u, hrun, rfl⟩
  refine ⟨t, Routine.run_bind_eq_ok.mpr ⟨(), opened tokens limit fuel, rfl, Routine.run_bind_eq_ok.mpr ⟨(), u.skip.drain, hbody, ?_⟩⟩, hfinish⟩
  exact Routine.run_bind_eq_ok.mpr ⟨(), t, (Routine.run_single _ _).trans hclose, rfl⟩

theorem parseTokens_of_statements {tokens : List Token} {limit : Nat} {fuel : Option Nat} {u : State}
    (h : Gives programStatements (opened tokens limit fuel) (.ok ((), u))) : parseTokens tokens limit fuel = .ok (resultOf u) := by
  obtain ⟨-, n, hrun⟩ := h
  obtain ⟨t, hprogram, hfinish⟩ := run_program hrun
  exact parseTokens_eq_ok.mpr ⟨t, run_of_gives (.of_run hprogram), hfinish⟩

/-- Where statements begin, a run of them is not found to be stuck. -/
theorem not_gives_statements_stuck (tokens : List Token) (limit : Nat) (fuel : Option Nat) :
    ¬ Gives (rule (.statements closer)) (opened tokens limit fuel) (.error .stuck) := by
  intro h
  obtain ⟨m, hm⟩ := h.exists_bound
  have hsane : (opened tokens limit fuel).Sane := ⟨Nat.le_refl _, nofun⟩
  have hsafe := progress_runRule (max m (8 * tokens.length + (Rule.statements closer).rank)) .blank (.statements closer)
    (Nat.le_of_ble_eq_true rfl) _ hsane trivial (Nat.le_of_ble_eq_true rfl) (Nat.le_max_right _ _)
  unfold Safe at hsafe
  rw [hm _ (Nat.le_max_left _ _)] at hsafe
  rcases hsafe with hmisnested | ⟨hend, -⟩
  · cases hmisnested
  · cases hend

/-- A result comes from a run of the statements of a program. -/
theorem statements_of_parseTokens {tokens : List Token} {limit : Nat} {fuel : Option Nat} {r : Result}
    (h : parseTokens tokens limit fuel = .ok r) :
    ∃ n u, programStatements.run (runRule n) (opened tokens limit fuel) = .ok ((), u) ∧ r = resultOf u := by
  obtain ⟨t, hrun, hfinish⟩ := parseTokens_eq_ok.mp h
  obtain ⟨_, s₁, hopen, hnode⟩ := Routine.run_bind_eq_ok.mp hrun
  cases hopen
  obtain ⟨_, s₂, hbody, -⟩ := Routine.run_bind_eq_ok.mp hnode
  obtain ⟨_, u, hstatements, -⟩ := Routine.run_bind_eq_ok.mp hbody
  obtain ⟨t', hrun', hfinish'⟩ := run_program hstatements
  cases hrun.symm.trans hrun'
  exact ⟨_, u, hstatements, Except.ok.inj (hfinish.symm.trans hfinish')⟩

/-! ## The second row -/

theorem closed_atStatement {J : {α : Type} → Routine α → Prop} (h : GrammarClosed J) : J (atStatement closer) := by
  have hagain : J (rule (.statements closer)) := h.rule (.statements closer)
  have hafter : J (afterStatement closer) := by
    refine h.bind (h.simple rfl) fun _ => closed_ite hagain <| h.bind (h.simple rfl) fun _ =>
      closed_ite ?_ (closed_ite ?_ (closed_ite hagain ?_))
    · exact h.bind (closed_newlines h.toParts) fun _ => hagain
    · exact h.bind (h.simple rfl) fun _ => h.bind (closed_newlines h.toParts) fun _ => hagain
    · exact h.bind (closed_reportFound h.toParts rfl _) fun _ => h.bind (closed_resync h.toParts _) fun _ => hagain
  refine h.bind (h.simple rfl) fun _ => closed_ite (h.done _) <| h.bind (h.simple rfl) fun k =>
    closed_ite (h.done _) (closed_ite ?_ (closed_ite ?_ (closed_ite ?_ ?_)))
  · exact h.bind (closed_reportAndAdvance h.toParts rfl _) fun _ => hagain
  · exact h.bind (closed_reportAndAdvance h.toParts rfl _) fun _ => hagain
  · exact h.bind (h.rule .statement) fun _ => hafter
  · exact h.bind (closed_reportFound h.toParts rfl _) fun _ => h.bind (closed_resync h.toParts _) fun _ => hagain

/-- No newline comes after newlines. -/
theorem nextKind_of_newlines {s t : State} {a : Unit} (h : newlines.run (runRule n) s = .ok (a, t)) : t.Ready ∧ t.nextKind ≠ .newline := by
  induction n generalizing s with
  | zero => cases h
  | succ n ih =>
    obtain ⟨b, u, hpeek, hrest⟩ := Routine.run_bind_eq_ok.mp (show newlinesBody.run (runRule n) s = .ok (a, t) from h)
    obtain ⟨k, v, hp, hdone⟩ := Routine.run_bind_eq_ok.mp hpeek
    obtain ⟨rfl, rfl⟩ := State.of_perform_peek ((Routine.run_single _ _).symm.trans hp)
    cases hdone
    split at hrest
    · obtain ⟨_, v, _, hmore⟩ := Routine.run_bind_eq_ok.mp hrest
      exact ih hmore
    · rename_i hk
      cases hrest
      exact ⟨s.ready_skip, fun heq => hk (beq_iff_eq.mpr heq)⟩

/-- One more look where the next token stands makes no difference. -/
theorem Echoes.looked_of_ready {pre : List Tree} {s s' : State} (h : Echoes .whole pre s s') (hready : s.Ready) : Echoes .whole pre s s'.looked := by
  have hlooked : s.looked = { s with patience := s.patience - 1 } := by rw [State.looked, State.skip_of_ready hready]
  have hboth := h.looked
  rw [hlooked] at hboth
  exact { hboth with }

/-- Where no newline comes next, newlines are over after one look. -/
theorem gives_newlines_of_ne {s : State} (h : s.looked.nextKind ≠ .newline) :
    Gives newlines s (.ok ((), s.looked)) ∨ Gives newlines s (.error .stuck) := by
  by_cases hpatience : s.patience = 0
  · refine .inr (Gives.rule_iff.mpr (Gives.act_error (f := fun k => _) (by decide) ?_))
    rw [perform_peek, if_pos hpatience]
  · refine .inl (Gives.rule_iff.mpr (Gives.act (a := s.looked.nextKind) (t := s.looked) ?_ ?_))
    · rw [perform_peek, if_neg hpatience]
    · refine Gives.of_run (n := 0) ?_
      show Routine.run _ (if (s.looked.nextKind == .newline) = true then advance >>= fun _ => newlines else pure ()) s.looked = _
      rw [if_neg fun heq => h (eq_of_beq heq)]
      rfl

/-- What comes after newlines where there are none. -/
theorem Leads.newlines_of_ne {β : Type} {s : State} {f : Unit → Routine β} {Q : β → State → Prop} (hne : s.looked.nextKind ≠ .newline)
    (h : Leads (f ()) s.looked Q) : Leads (newlines >>= f) s Q := by
  refine .bind ?_
  rcases gives_newlines_of_ne hne with hgives | hstuck
  · exact .inr ⟨(), _, hgives, h⟩
  · exact .inl hstuck

/-- Statements behind blanks and a newline. -/
theorem Leads.behind_newline {s : State} {newline : Token} {blanks after : List Token} {Q : Unit → State → Prop} (hs : s.Live)
    (hunread : s.unread = blanks ++ newline :: after) (hblanks : ∀ t ∈ blanks, t.kind.isTrivia = true) (hnewline : newline.kind = .newline)
    (h : Leads (Parser.rule (.statements closer)) (s.looked.consumed newline after) Q) :
    Leads (Parser.rule (.statements closer)) s Q := by
  have hsolid : newline.kind.isTrivia = false := by rw [hnewline]; rfl
  obtain ⟨-, hunread'⟩ := Skims.looked_blanks hs hunread hblanks hsolid
  have hbody : Leads (newlines >>= fun _ => atStatement closer) (s.looked.consumed newline after) Q :=
    h.of_gives fun r hr => statements_iff.mp hr
  suffices hgoal : Leads (newlines >>= fun _ => atStatement closer) s Q from hgoal.of_gives fun r hr => statements_iff.mpr hr
  refine .bind (.rule (.peek (f := fun k => if (k == .newline) = true then advance >>= fun _ => newlines else pure ()) ?_))
  have hkind : (s.looked.nextKind == .newline) = true := by simp only [State.nextKind, hunread', hnewline]; rfl
  rw [if_pos hkind]
  exact .act (State.perform_advance hunread') hbody.of_bind

/-- What goes on in a state that the second row is read in goes on as that row is read by itself. -/
theorem gives_of_resumes {pre : List Tree} {s v w z : State} {x : Routine Unit} (hresumes : Resumes none x z v) (h : Echoes .whole pre s v)
    (hsteady : s.Steady) (hrun : programStatements.run (runRule n) s = .ok ((), w)) (hsilent : w.Silent) :
    Gives x z (.error .stuck) ∨ ∃ w', Gives x z (.ok ((), w')) ∧ Repeated .whole pre s v w w' := by
  rcases hresumes with hgives | hgives
  · rcases repeats_rule n (.statements none) pre s v h hsteady () w hrun hsilent with ⟨w', hrun', hw⟩ | hstuck
    · exact .inr ⟨w', hgives _ (.of_run hrun'), hw⟩
    · exact .inl (hgives _ (.of_stuck hstuck))
  · cases n with
    | zero => cases hrun
    | succ n =>
      have hbody : (newlines >>= fun _ => atStatement none).run (runRule n) s = .ok ((), w) := by
        rw [← statementsBody_eq]
        exact hrun
      obtain ⟨_, t, hnewlines, hrest⟩ := Routine.run_bind_eq_ok.mp hbody
      obtain ⟨hready, hne⟩ := nextKind_of_newlines hnewlines
      have hsteady' := (respected_hushes.run hnewlines).steady hsteady
      have hsilent' := (respected_hushes.run hrest).silent hsilent
      rcases repeats_rule n .newlines pre s v h hsteady () t hnewlines hsilent' with ⟨t', hnewlines', ht⟩ | hstuck
      · have hlooked := ht.echoes.looked_of_ready hready
        have hne' : t'.looked.nextKind ≠ .newline := by
          rw [hlooked.nextKind]
          exact hne
        have hkept : t'.looked.below = t'.below ∧ t'.looked.reports = t'.reports := by
          constructor <;> simp only [State.looked, State.skip_eq]
        have hagain {r : Except Fault (Unit × State)} (hr : Gives programStatements t' r) : Gives x z r :=
          hgives r ((Gives.of_run hnewlines').bind hr)
        rcases gives_newlines_of_ne hne' with hok | hstuck
        · have hrepeats : Repeats .whole n (atStatement none) := closed_atStatement (uniform_repeats (repeats_rule n)).toGrammarClosed
          rcases hrepeats pre t _ hlooked hsteady' () w hrest hsilent with ⟨w', hrest', hw⟩ | hstuck
          · refine .inr ⟨w', hagain (statements_iff.mpr (hok.bind (.of_run hrest'))), hw.echoes, hw.below.trans ht.below, ?_, ?_⟩
            · exact hw.below'.trans (hkept.1.trans ht.below')
            · exact hw.reports.trans (hkept.2.trans ht.reports)
          · exact .inl (hagain (statements_iff.mpr (hok.bind (.of_stuck hstuck))))
        · exact .inl (hagain (statements_iff.mpr hstuck.bind_error))
      · exact .inl (hgives _ (Gives.bind_error (.of_stuck hstuck)))

/-! ## Where the second row begins -/

/-- The greatest depth allowed never changes. -/
theorem respected_limit : Respected fun s t => t.limit = s.limit where
  refl _ := rfl
  trans h h' := h'.trans h
  perform {_ action s t _} h := by
    cases hset : action.isSet with
    | false => exact (settings_of_under (perform_under hset s s.limit s.fuel) h).1
    | true =>
      cases action with
      | advance =>
        obtain ⟨x, rest, hunread, rfl⟩ := State.of_perform_advance h
        rfl
      | enter =>
        rw [State.perform_enter] at h
        split at h
        · cases h
          rfl
        · split at h <;> cases h
          · rfl
          · simp only [State.overrun, State.skip_eq]
      | _ => cases hset

theorem steady_opened (tokens : List Token) (limit : Nat) (fuel : Option Nat) : (opened tokens limit fuel).Steady :=
  ⟨fun _ => ⟨rfl, rfl⟩, fun _ ht => absurd ht List.not_mem_nil⟩

/-- Right after the newline the other run stands where the second row begins, after all that was built before. -/
theorem Crossed.echoes {tokens more : List Token} {limit : Nat} {u v : State} (h : Crossed j u v)
    (hrun : programStatements.run (runRule n) (opened tokens limit none) = .ok ((), u)) (hsilent : u.Silent)
    (hmore : j.after.map Token.core = more.map Token.core) : Echoes .whole v.top.built (opened more limit none) v := by
  have hkept := kept_opened hrun
  have hcalm := ((respected_hushes.run hrun).steady (steady_opened tokens limit none)).calm hsilent.reports
  have hlimit : u.limit = limit := respected_limit.run hrun
  have hfuel : u.fuel = none := (respected_unbounded.run hrun ⟨rfl, rfl⟩).fuel
  obtain ⟨_, ⟨-, held, -, rfl⟩, rfl⟩ := h
  refine
    { unread := hmore
      held := rfl
      label := fun hnil => by cases hnil
      built := rfl
      labelled := fun _ => Option.some_ne_none _
      leaf := fun t ht => ?_
      delimiters := congrArg List.length hkept.delimiters
      separating := hkept.separating
      depth := hkept.depth.ge
      room := (congrArg₂ (· + ·) hkept.depth hlimit.symm).le
      overflowed := hcalm.1
      fuel := ?_
      exhausted := ?_ }
  · cases ht
    exact ⟨_, _, rfl⟩
  · show u.fuel.map (· - 1) = none
    rw [hfuel]
    rfl
  · show (u.exhausted || u.fuel == some 0) = false
    rw [hsilent.fuelled, hfuel]
    rfl

end Remap.Parser
