import Remap.Proofs.Parser.Discipline
import Remap.Proofs.Parser.Spaced

/-!
# What an outlook shows

An outlook is true of a state if all it says about the next token and about reports holds there. Whatever an action replies,
what is known after it is true of the state it leads to.
-/

namespace Remap.Parser

variable {α : Type}

open Outlook (Any)

namespace State

/-- The very next token is not passed over. -/
def Ready (s : State) : Prop := ∀ t rest, s.unread = t :: rest → s.skips t = false

/-- A diagnostic was reported at an offset. -/
def Reported (s : State) (offset : Nat) : Prop := ∃ d ∈ s.reports, d.span.start = offset

theorem Reported.mono {s t : State} {offset : Nat} (h : s.Reported offset) (hreports : s.reports <:+ t.reports) :
    t.Reported offset := by
  obtain ⟨d, hd, hstart⟩ := h
  exact ⟨d, hreports.subset hd, hstart⟩

/-- Where the next token is not passed over, nothing is. -/
theorem skip_of_ready {s : State} (h : s.Ready) : s.skip = s := by
  unfold skip
  split
  · rfl
  · rename_i t rest hunread
    rw [if_neg (by simp [h t rest hunread])]

end State

namespace Outlook

/-- What an outlook says holds in a state. -/
structure Shows (σ : Outlook) (s : State) : Prop where
  fresh : σ.fresh = true → s.Ready
  next : ∀ k, σ.next = some k → s.Ready ∧ s.nextKind = k
  paired : σ.paired = true → ∃ t u rest, s.unread = t :: u :: rest ∧ u.kind.isTrivia = false ∧ u.kind ≠ .newline
  heard : σ.heard = true → s.overflowed = true ∨ s.Reported s.front
  told : σ.told = true → s.Reported s.front
  spill : σ.spill = false → s.Spent
  ended : σ.ended = true → s.unread = []

namespace Shows

variable {σ : Outlook} {s t : State}

/-- An outlook that says nothing, except perhaps that the next token is not passed over, that the limit was not hit just now, and
that the input has ended. -/
theorem of_unknown (hfresh : σ.fresh = true → s.Ready) (hnext : σ.next = none) (hpaired : σ.paired = false)
    (hheard : σ.heard = false) (htold : σ.told = false) (hspill : σ.spill = false → s.Spent)
    (hended : σ.ended = true → s.unread = []) : σ.Shows s :=
  ⟨hfresh, by simp [hnext], by simp [hpaired], by simp [hheard], by simp [htold], hspill, hended⟩

theorem blank {raw begun landed : Bool} (h : s.Spent) : Shows { raw := raw, begun := begun, landed := landed } s :=
  .of_unknown (fun hfresh => Bool.noConfusion hfresh) rfl rfl rfl rfl (fun _ => h) fun hended => Bool.noConfusion hended

/-- Opening a node or a mark takes back nothing that is known of the tokens. -/
theorem opened (h : σ.Shows s) : σ.opened.Shows s := ⟨h.fresh, h.next, h.paired, h.heard, h.told, h.spill, h.ended⟩

/-- A state that stands where another one does, and in which no report was taken back. -/
theorem keep (h : σ.Shows s) (hunread : t.unread = s.unread) (hseparating : t.separating = s.separating)
    (hfront : t.front = s.front) (hreports : s.reports <:+ t.reports) (hover : t.overflowed = s.overflowed) : σ.Shows t := by
  have hready (hs : s.Ready) : t.Ready := by
    unfold State.Ready
    rw [hunread, State.skips_congr hseparating]
    exact hs
  refine ⟨fun hσ => hready (h.fresh hσ), fun k hk => ?_, fun hσ => hunread ▸ h.paired hσ, fun hσ => ?_, fun hσ => ?_, fun hσ => ?_,
    fun hσ => hunread.trans (h.ended hσ)⟩
  · obtain ⟨hs, hkind⟩ := h.next k hk
    refine ⟨hready hs, ?_⟩
    simpa only [State.nextKind, hunread] using hkind
  · rw [hover, hfront]
    exact (h.heard hσ).imp id (·.mono hreports)
  · rw [hfront]
    exact (h.told hσ).mono hreports
  · unfold State.Spent
    rw [hover, hunread]
    exact h.spill hσ

/-- Passing over trivia: where the next token is known nothing is passed over, and else it is known now where it stands. -/
theorem skip (h : σ.Shows s) : σ.looked.Shows s.skip := by
  cases hfresh : σ.fresh with
  | true =>
    rw [State.skip_of_ready (h.fresh hfresh), looked_of_fresh hfresh]
    exact h
  | false =>
    simp only [looked, hfresh, Bool.false_eq_true, if_false]
    refine .of_unknown (fun _ => s.ready_skip) rfl rfl rfl rfl (fun hσ => s.follows_skip.spent (h.spill hσ)) fun hσ => ?_
    rw [State.unread_skip, h.ended hσ, List.dropWhile_nil]

theorem drain (h : σ.Shows s) : σ.Shows s.drain := by
  have hreports : s.drain.reports = s.reports := by rw [State.drain_eq]
  refine h.keep s.unread_drain ?_ s.front_drain (hreports ▸ List.suffix_refl _) ?_ <;> rw [State.drain_eq]

theorem report (h : σ.Shows s) (d : Diagnostic) : σ.Shows (s.report d) := by
  have hreports : s.reports <:+ (s.report d).reports := by
    unfold State.report
    split
    · exact List.suffix_refl _
    · exact List.suffix_cons _ _
  refine h.keep (s.unread_report d) ?_ (s.front_report d) hreports ?_ <;> rw [State.report_eq]

/-- After a look the kind of the next token is known. -/
theorem withNext (h : σ.Shows s) (hready : s.Ready) : Shows { σ with next := some s.nextKind } s :=
  ⟨h.fresh, fun _ hk => ⟨hready, Option.some.inj hk⟩, h.paired, h.heard, h.told, h.spill, h.ended⟩

/-- After a question whether the input has ended: if it has not, the limit was not hit, so that reports are made. -/
theorem asked (h : σ.Shows s) {ended : Bool} (hlive : ended = false → s.unread ≠ []) : (σ.asked ended).Shows s := by
  refine ⟨h.fresh, h.next, h.paired, h.heard, fun htold => ?_, h.spill, h.ended⟩
  simp only [Outlook.asked, Bool.or_eq_true, Bool.and_eq_true, Bool.not_eq_true'] at htold
  rcases htold with htold | ⟨⟨hheard, hended⟩, hspill⟩
  · exact h.told htold
  · exact (h.heard hheard).resolve_left fun hover => hlive hended (h.spill hspill hover)

end Shows

end Outlook

/-- After a report at the front, one was made there now or before, unless the limit had been hit. -/
theorem State.Spaced.reported_report {s : State} (h : s.Spaced) {d : Diagnostic} (hd : d.span.start = s.front) :
    (s.report d).overflowed = true ∨ (s.report d).Reported (s.report d).front := by
  rw [State.front_report]
  unfold State.report
  split
  · rename_i hmuted
    cases hover : s.overflowed with
    | true => exact .inl rfl
    | false =>
      simp only [hover, Bool.false_or, decide_eq_true_eq, h.last hover, Option.map_eq_some_iff] at hmuted
      obtain ⟨e, he, hstart⟩ := hmuted
      exact .inr ⟨e, List.mem_of_mem_head? he, hstart.trans hd⟩
  · exact .inr ⟨d, List.mem_cons_self, hd⟩

/-- A number that touches the sign before it is not passed over. -/
theorem exists_of_signs {number : Kind} {ts : List Token} (hnumber : number = .integer ∨ number = .float)
    (h : (Lookahead.signs number).holds ts = true) :
    ∃ t u rest, ts = t :: u :: rest ∧ u.kind.isTrivia = false ∧ u.kind ≠ .newline := by
  match ts with
  | [] | [_] => cases h
  | t :: u :: rest =>
    have hkind : u.kind = number := by
      simp only [Lookahead.holds, List.drop_succ_cons, List.drop_zero, List.head?_cons, Option.any_some, Bool.and_eq_true,
        decide_eq_true_eq] at h
      exact h.1
    refine ⟨t, u, rest, rfl, ?_⟩
    rw [hkind]
    rcases hnumber with rfl | rfl <;> exact ⟨rfl, nofun⟩

/-- What is known after an action is true of the state it leads to, and the reply is one that it can get. -/
theorem shows_perform {ps : List (Kind × Text)} {action : Action α} {σ : Outlook} {s t : State} {a : α}
    (h : action.perform s = .ok (a, t)) (hpermits : action.permits σ = true) (hs : s.Orderly ps) (hσ : σ.Shows s) :
    action.admits σ a ∧ (action.outlook σ a).Shows t := by
  have hhere : s.skip.here.start = s.skip.front := State.start_here hs.reading.skip
  cases action with
  | peek =>
    obtain ⟨rfl, rfl⟩ := State.of_perform_peek h
    have hlooked : σ.looked.Shows s.looked := hσ.skip.keep rfl rfl rfl (List.suffix_refl _) rfl
    refine ⟨?_, hlooked.withNext s.ready_skip⟩
    cases hnext : σ.next with
    | none => exact .inl hnext
    | some k =>
      obtain ⟨hready, hkind⟩ := hσ.next k hnext
      have hlooked : s.looked.nextKind = s.nextKind := by
        rw [State.looked, State.skip_of_ready hready]
        rfl
      exact .inr (by rw [hnext, hlooked, hkind])
  | peekRaw =>
    simp only [Action.perform, look] at h
    split at h <;> cases h
    exact ⟨trivial, hσ.keep rfl rfl rfl (List.suffix_refl _) rfl⟩
  | touches =>
    cases h
    exact ⟨trivial, hσ.skip⟩
  | ahead q =>
    cases h
    refine ⟨trivial, ?_⟩
    cases q with
    | signs number =>
      refine ⟨hσ.fresh, hσ.next, fun hpaired => ?_, hσ.heard, hσ.told, hσ.spill, hσ.ended⟩
      have hnumber : number = .integer ∨ number = .float := by
        simp only [Action.permits, Lookahead.isApt, Bool.and_eq_true, Bool.or_eq_true, decide_eq_true_eq] at hpermits
        exact hpermits.1
      exact exists_of_signs hnumber hpaired
    | opensObject | startsCall | namesArgument => exact hσ
  | atEnd =>
    cases h
    have hasked : (σ.asked s.unread.isEmpty).Shows s := hσ.asked fun hended hnil => by simp [hnil] at hended
    refine ⟨trivial, hasked.fresh, hasked.next, hasked.paired, hasked.heard, hasked.told, hasked.spill, fun hended => ?_⟩
    exact (Bool.or_eq_true_iff.mp hended).elim hσ.ended List.isEmpty_iff.mp
  | stopped =>
    cases h
    exact ⟨trivial, hσ.asked fun hended hnil => by simp [hnil] at hended⟩
  | advance =>
    obtain ⟨token, rest, hu, rfl⟩ := State.of_perform_advance h
    refine ⟨trivial, .of_unknown (fun hpaired => ?_) rfl rfl rfl rfl (fun hspill hover => ?_) fun hended => Bool.noConfusion hended⟩
    · obtain ⟨_, u, more, hunread, htrivia, hnewline⟩ := hσ.paired hpaired
      intro v rest' hrest
      cases hu.symm.trans hunread
      cases hrest
      simp [State.skips, htrivia, hnewline]
    · cases hu.symm.trans (hσ.spill hspill hover)
  | settle =>
    cases h
    exact ⟨trivial, hσ.skip.drain⟩
  | openNode k | mark =>
    cases h
    exact ⟨trivial, hσ.drain.opened.keep rfl rfl rfl (List.suffix_refl _) rfl⟩
  | closeNode | wrap k | unmark =>
    simp only [Action.perform] at h
    split at h <;> cases h
    exact ⟨trivial, hσ.keep rfl rfl rfl (List.suffix_refl _) rfl⟩
  | report p d =>
    cases h
    refine ⟨trivial, ?_⟩
    have hlooked := hσ.skip.report { problem := if s.skip.unread.isEmpty then atEndOfInput p else p, span := s.skip.here, detail := d }
    refine ⟨hlooked.fresh, hlooked.next, hlooked.paired, fun _ => ?_, hlooked.told, hlooked.spill, hlooked.ended⟩
    exact hs.spaced.skip.reported_report hhere
  | reportUnclosed closer =>
    simp only [Action.perform] at h
    split at h <;> cases h
    · exact ⟨trivial, hσ.skip⟩
    · exact ⟨trivial, hσ.skip.report _⟩
  | reportTarget flaw =>
    cases h
    exact ⟨trivial, hσ.report _⟩
  | checkParameters =>
    have hreports := (respected_keeps.perform h).reports
    cases h
    rw [State.reportParameters_eq] at hreports ⊢
    obtain ⟨reports, lastReport, hfold⟩ := State.foldl_report s.parameterProblems s
    rw [hfold] at hreports ⊢
    exact ⟨trivial, hσ.keep rfl rfl rfl hreports rfl⟩
  | enter =>
    rw [State.perform_enter] at h
    split at h
    · cases h
      exact ⟨trivial, hσ⟩
    · split at h <;> cases h
      · exact ⟨trivial, hσ.keep rfl rfl rfl (List.suffix_refl _) rfl⟩
      · -- the limit is reported at the next token
        have htold : s.overrun.Reported s.overrun.front := ⟨_, List.mem_cons_self, hhere⟩
        exact ⟨trivial, hσ.skip.fresh, hσ.skip.next, hσ.skip.paired, fun _ => .inl rfl, fun _ => htold,
          fun hspill => Bool.noConfusion hspill, hσ.skip.ended⟩
  | leave | popDelimiter =>
    cases h
    exact ⟨trivial, hσ.keep rfl rfl rfl (List.suffix_refl _) rfl⟩
  | pushDelimiter k =>
    cases h
    exact ⟨trivial, hσ.skip.keep rfl rfl rfl (List.suffix_refl _) rfl⟩
  | setSeparating b =>
    cases h
    exact ⟨trivial, .of_unknown (fun hfresh => Bool.noConfusion hfresh) rfl rfl rfl rfl hσ.spill fun hended => Bool.noConfusion hended⟩

/-! ## Runs -/

theorem Rule.spill_of_permits {r : Rule α} {σ : Outlook} (h : r.permits σ = true) (hr : r.outlook.spill = false) :
    σ.spill = false := by
  cases r with
  | absorb => cases hr
  | _ =>
    simp only [permits, Bool.and_eq_true, Bool.not_eq_true'] at h
    exact h.1

theorem Rule.shows_outlook {r : Rule α} {s : State} (h : r.outlook.spill = false → s.Spent) : r.outlook.Shows s := by
  cases r with
  | absorb =>
    exact .of_unknown (fun hfresh => Bool.noConfusion hfresh) rfl rfl rfl rfl (fun hspill => Bool.noConfusion hspill)
      fun hended => Bool.noConfusion hended
  | _ => exact .blank (h rfl)

section Runs

/-- A relation between the state in which a rule is entered, what is known since then and the state reached: it holds where the rule
begins, every permitted action keeps it, and a rule that is entered continues it. -/
structure Heeded (ps : List (Kind × Text)) (R : State → Outlook → State → Prop) : Prop where
  start {α : Type} {r : Rule α} {s : State} : s.Orderly ps → R s r.outlook s
  step {α : Type} {action : Action α} {σ : Outlook} {s₀ s t : State} {a : α} : action.perform s = .ok (a, t) →
    action.permits σ = true → s.Orderly ps → σ.Shows s → R s₀ σ s → R s₀ (action.outlook σ a) t
  leave {α : Type} {n : Nat} {r : Rule α} {σ τ : Outlook} {s₀ s t : State} {a : α} : runRule n r s = .ok (a, t) →
    t.exhausted = false → s.Orderly ps → s.Steady → (r.consumes a = true → τ.landed = true) → R s₀ σ s → R s τ t →
    R s₀ (σ.returned (r.consumes a)) t

/-- What every permitted action keeps, whatever is known. -/
theorem Heeded.of_step {ps : List (Kind × Text)} {I : State → Prop}
    (h : ∀ {α : Type} {action : Action α} {σ : Outlook} {s t : State} {a : α}, action.perform s = .ok (a, t) →
      action.permits σ = true → s.Orderly ps → σ.Shows s → I s → I t) : Heeded ps fun s₀ _ s => I s₀ → I s where
  start _ := id
  step hp hpermits hs hσ hI := h hp hpermits hs hσ ∘ hI
  leave _ _ _ _ _ hI hτ := hτ ∘ hI

namespace Heeded

variable {ps : List (Kind × Text)} {R : State → Outlook → State → Prop} (h : Heeded ps R)

include h

/-- What every permitted action keeps, and the rules that are entered, a routine keeps that heeds what is known. -/
theorem run_of_rule {n : Nat}
    (hrule : ∀ {γ : Type} {r : Rule γ} {s t : State} {c : γ}, runRule n r s = .ok (c, t) → t.exhausted = false → s.Orderly ps →
      s.Steady → (r.outlook.spill = false → s.Spent) → (∃ τ, (r.consumes c = true → τ.landed = true) ∧ R s τ t) ∧ t.Spent)
    {x : Routine α} {σ : Outlook} {Q : α → Outlook → Prop} {s₀ s t : State} {a : α} (hx : x.Heeds σ Q)
    (hrun : x.run (runRule n) s = .ok (a, t)) (hfuel : t.exhausted = false) (hs : s.Orderly ps) (hsteady : s.Steady)
    (hσ : σ.Shows s) (hR : R s₀ σ s) : ∃ τ, Q a τ ∧ τ.Shows t ∧ R s₀ τ t := by
  induction x generalizing σ s with
  | done b =>
    cases hrun
    exact ⟨σ, hx, hσ, hR⟩
  | fail e => cases hrun
  | act action next ih =>
    obtain ⟨b, u, hp, hn⟩ := Routine.run_act_eq_ok.mp hrun
    obtain ⟨hadmits, hu⟩ := shows_perform hp hx.1 hs hσ
    exact ih b (hx.2 b hadmits) hn ((respected_orderly ps).perform hp hs) ((hushes_perform hp).steady hsteady) hu
      (h.step hp hx.1 hs hσ hR)
  | call rule next ih =>
    obtain ⟨b, u, hr, hn⟩ := Routine.run_call_eq_ok.mp hrun
    have hfuel' := (respected_hushes.run hn).fuelled hfuel
    obtain ⟨⟨τ, hlanded, hτ⟩, hspent⟩ := hrule hr hfuel' hs hsteady fun hr => hσ.spill (rule.spill_of_permits hx.1 hr)
    exact ih b (hx.2 b) hn ((respected_orderly ps).runRule hr hs) ((respected_hushes.runRule hr).steady hsteady) (.blank hspent)
      (h.leave hr hfuel' hs hsteady hlanded hR hτ)
  | jump rule =>
    obtain ⟨⟨τ, hlanded, hτ⟩, hspent⟩ := hrule hrun hfuel hs hsteady fun hr => hσ.spill (rule.spill_of_permits hx.1 hr)
    exact ⟨_, hx.2 a, .blank hspent, h.leave hrun hfuel hs hsteady hlanded hR hτ⟩

/-- What every permitted action keeps, every rule keeps. Where it ends, nothing is left to read if the limit was hit. -/
theorem runRule {n : Nat} {r : Rule α} {s t : State} {a : α} (hrun : runRule n r s = .ok (a, t))
    (hfuel : t.exhausted = false) (hs : s.Orderly ps) (hsteady : s.Steady) (hspent : r.outlook.spill = false → s.Spent) :
    (∃ τ, (r.consumes a = true → τ.landed = true) ∧ R s τ t) ∧ t.Spent := by
  induction n generalizing α s t with
  | zero => cases hrun
  | succ n ih =>
    obtain ⟨τ, ⟨hspill, hlanded⟩, hshows, hR⟩ :=
      h.run_of_rule ih (heeds_grammar r) hrun hfuel hs hsteady (r.shows_outlook hspent) (h.start hs)
    refine ⟨⟨τ, hlanded, hR⟩, ?_⟩
    cases hr : r.outlook.spill with
    | false => exact hshows.spill (hspill hr)
    | true =>
      cases r with
      | absorb => exact fun _ => (Returns.absorb (n + 1) s hsteady a t hrun hfuel).2.1
      | _ => cases hr

/-- What every permitted action keeps holds where a program ends that was given enough fuel. -/
theorem program {n limit : Nat} {fuel : Option Nat} {t : State} {a : Unit}
    (hrun : program.run (Parser.runRule n) (.start (Token.place 0 none ps) limit fuel) = .ok (a, t)) (hfuel : t.exhausted = false) :
    ∃ τ, R (.start (Token.place 0 none ps) limit fuel) τ t := by
  have hs := orderly_start ps limit fuel
  obtain ⟨τ, -, -, hτ⟩ := h.run_of_rule (fun hr => h.runRule hr) (minds_program (P := Any) {} rfl trivial) hrun hfuel hs
    ⟨fun _ => ⟨rfl, rfl⟩, fun _ ht => absurd ht List.not_mem_nil⟩ (.blank fun hover => Bool.noConfusion hover)
    (h.start (r := .statements none) hs)
  exact ⟨τ, hτ⟩

end Heeded

end Runs

/-- Where a rule ends that was entered where nothing was left to read if the limit had been hit, that is so as well. -/
theorem spent_runRule {ps : List (Kind × Text)} {n : Nat} {r : Rule α} {s t : State} {a : α} (hrun : runRule n r s = .ok (a, t))
    (hfuel : t.exhausted = false) (hs : s.Orderly ps) (hsteady : s.Steady) (hspent : r.outlook.spill = false → s.Spent) :
    t.Spent :=
  ((Heeded.of_step (I := fun _ => True) fun _ _ _ _ _ => trivial).runRule hrun hfuel hs hsteady hspent).2

end Remap.Parser
