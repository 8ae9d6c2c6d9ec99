import Remap.Proofs.Parser.Progress

/-!
# The grammar makes progress

What every rule of the grammar needs and consumes, and that it does. Ranks order the rules that may be entered one after
another before a token is consumed; costs count lookaheads.
-/

namespace Remap.Parser

variable {α β : Type}

namespace Rule

/-- How many rules may be nested, this one included, before a token is consumed. -/
def rank : {α : Type} → Rule α → Nat
  | _, .unary | _, .binaryRest _ _ => 2
  | _, .binary _ => 3
  | _, .assignment | _, .items _ => 4
  | _, .statement | _, .conditions _ => 5
  | _, .statements _ => 6
  | _, _ => 1

theorem rank_le (r : Rule α) : r.rank ≤ 8 := by
  cases r <;> exact Nat.le_of_ble_eq_true rfl

/-- The lookaheads of a rule. -/
def cost : {α : Type} → Rule α → Cost
  | _, .absorb => ⟨0, 0⟩
  | _, .newlines | _, .skipTo _ _ | _, .templateParts => ⟨1, 1⟩
  | _, .stringParts => ⟨1, 3⟩
  | _, .pathSegments => ⟨3, 11⟩
  | _, .items _ => ⟨9, 12⟩
  | _, .statements _ => ⟨5, 10⟩
  | _, .conditions _ => ⟨10, 11⟩
  | _, .elseBranches => ⟨1, 25⟩
  | _, .statement => ⟨0, 0⟩
  | _, .assignment => ⟨5, 8⟩
  | _, .binary _ => ⟨3, 3⟩
  | _, .binaryRest _ _ => ⟨1, 0⟩
  | _, .unary => ⟨2, 2⟩

/-- The tokens at which a rule is sure to consume something, unless the parser has to stop. -/
def first : {α : Type} → Rule α → KindSet
  | _, .statement => .statementFirst
  | _, .assignment => KindSet.arithmeticFirst.union (.single .underscore)
  | _, .binary _ | _, .unary => .arithmeticFirst
  | _, .skipTo stops depth => ⟨fun k => !(depth = 0 && stops.contains k)⟩
  | _, _ => .empty

end Rule

/-! ## Newlines -/

/-- After newlines were consumed, something else comes next. If none came, only the look at the next token remains. -/
theorem newlines_run {n : Nat} {s t : State} {u : Unit} (h : runRule n .newlines s = .ok (u, t)) :
    t.At t.nextKind ∧ t.nextKind ≠ .newline ∧
      (s.looked.nextKind ≠ .newline ∧ t = s.looked ∨
        s.looked.nextKind = .newline ∧ t.unread.length < s.unread.length ∧ maxPatience ≤ t.patience + 1) := by
  induction n generalizing s with
  | zero => simp [runRule] at h
  | succ n ih =>
    simp only [runRule, grammar, newlinesBody, peekIs, peek, Routine.bind_eq, Routine.pure_eq, Routine.run_bind_eq_ok,
      Routine.run_single] at h
    obtain ⟨b, s₁, ⟨k, s₂, hpeek, hb⟩, h⟩ := h
    simp only [Routine.run, Except.ok.injEq, Prod.mk.injEq] at hb
    obtain ⟨rfl, rfl⟩ := hb
    have hp : 1 ≤ s.patience := by
      refine Nat.pos_of_ne_zero fun hz => ?_
      have hz' : s.skip.patience = 0 := (Quiet.skip s).patience.trans hz
      simp [Action.perform, look, hz'] at hpeek
    rw [State.perform_peek hp] at hpeek
    cases hpeek
    split at h
    · rename_i hk
      have hk : s.looked.nextKind = .newline := by simpa using hk
      obtain ⟨_, s₃, hadvance, h⟩ := Routine.run_bind_eq_ok.mp h
      obtain ⟨token, rest, hu, _⟩ := s.at_looked.exists_token (by simp [hk])
      rw [advance, Routine.run_single, State.perform_advance hu] at hadvance
      cases hadvance
      obtain ⟨hat, hne, hcase⟩ := ih h
      have hlength := s.length_looked
      have hu' : s.looked.unread.length = rest.length + 1 := by rw [hu, List.length_cons]
      refine ⟨hat, hne, .inr ⟨hk, ?_⟩⟩
      rcases hcase with ⟨_, rfl⟩ | ⟨_, hlt, hpatience⟩
      · have := (s.looked.consumed token rest).length_looked
        simp only [State.consumed] at this
        refine ⟨?_, ?_⟩
        · simp only [State.consumed]
          omega
        · exact Nat.le_refl _
      · simp only [State.consumed] at hlt
        exact ⟨by omega, hpatience⟩
    · rename_i hk
      have hk : s.looked.nextKind ≠ .newline := by simpa using hk
      cases h
      exact ⟨s.at_looked, hk, .inl ⟨hk, rfl⟩⟩

/-! ## Routines that enter no rule -/

section Plain

variable {n rank : Nat} {κ : Sight} {c d : Cost}

/-- A token is consumed if it is there, and then all the patience is back. -/
theorem progress_eat {k : Kind} {f : Bool → Routine β} (hk : k ≠ .error) (htrue : Progress n .blank (rank + 8) c 0 (f true))
    (hfalse : ∀ k', k' ≠ k → Progress n (.here k' false) rank d 0 (f false)) :
    Progress n κ rank ((Cost.none.eat c).alt d).look 0 (eat k >>= f) := by
  rw [eat_bind]
  refine .peek_blank fun k' => .ite (fun hk' => ?_) fun hk' => ?_
  · rw [eq_of_beq hk']
    exact .promise (.eat (.advance hk) fun _ => htrue) (Nat.zero_le _)
  · exact hfalse k' fun h => hk' (beq_iff_eq.mpr h)

theorem progress_reportFound (p : Problem) (e : Option Expectation) : Progress n κ rank ⟨1, 0⟩ 0 (reportFound p e) := by
  refine .fits (c := Cost.none.look) (.peek_blank fun k => .quiet rfl fun b => ?_) rfl
  split
  · exact .last rfl
  · cases e <;> exact .last rfl

theorem safe_node_advance {s : State} {k : Kind} (hs : s.Sane) (hu : s.unread ≠ []) :
    Safe n (node k advance) s fun _ t => Moved .none 1 s t := by
  have hpushed := quiet_pushed s (some k)
  have hunread : (s.pushed (some k)).unread ≠ [] := by
    rw [s.unread_pushed]
    exact hu
  refine Safe.act (s.perform_openNode k) (Safe.bind ((safe_advance (hpushed.sane hs) hunread).imp fun _ t ht => Safe.bind ?_))
  unfold Safe
  rw [Routine.run_single]
  refine (quiet_perform rfl t).mono (fun _ h => .inl h) fun _ v hv => Safe.done ?_
  exact hpushed.moved (hv.moved_after ht)

/-- A report about a token that is known leaves it there. -/
theorem progress_reportFound_here {k : Kind} {live : Bool} {eats : Nat} {p : Problem} {e : Option Expectation}
    {f : Unit → Routine β} (h : Progress n (.here k live) rank c eats (f ())) :
    Progress n (.here k live) rank c.look eats (reportFound p e >>= f) := by
  have hsplit : reportFound p e >>= f = (peek >>= fun k => atEnd >>= fun b =>
      act (.report p (if b then e.map .expected else some (e.elim (.found k) (.expectedFound · k)))) >>= f) := by
    simp only [reportFound, Routine.bind_eq, Routine.bind_assoc]
    congr 1
    funext k
    congr 1
    funext b
    cases b <;> cases e <;> rfl
  rw [hsplit]
  exact .peek_here <| .quiet rfl fun _ => .quiet rfl fun _ => h

/-- A token is consumed as an error, if there is one. -/
theorem progress_reportAndAdvance {k : Kind} {live : Bool} (hk : k ≠ .error) (p : Problem) (d : Detail) :
    Progress n (.here k live) rank .none 1 (reportAndAdvance p d) := by
  refine .quiet rfl fun _ _ s hs hκ _ _ => ?_
  obtain ⟨token, rest, hu, _⟩ := hκ.1.exists_token hk
  refine Safe.act rfl ?_
  rw [hu]
  exact safe_node_advance hs (by simp [hu])

theorem progress_reportAndAdvance_any (p : Problem) (d : Detail) : Progress n κ rank .none 0 (reportAndAdvance p d) := by
  refine .quiet rfl fun _ _ s hs _ _ _ => ?_
  refine Safe.act rfl ?_
  cases hu : s.unread with
  | nil => exact Safe.done (.refl hs)
  | cons token rest => exact (safe_node_advance hs (by simp [hu])).imp fun _ t ht => ht.promise (Nat.zero_le 1)

/-- Whether a path segment follows: if so, it begins with a dot or a bracket. -/
theorem progress_atSegment {f : Bool → Routine β}
    (htrue : ∀ k, k = .dot ∨ k = .bracketOpen → Progress n (.here k false) rank c 0 (f true))
    (hfalse : Progress n .blank rank d 0 (f false)) : Progress n κ rank (c.alt d).look 0 (atSegment >>= f) := by
  rw [atSegment_bind]
  refine .peek_blank fun k => ?_
  split
  · rename_i hk
    refine .quiet rfl fun b => ?_
    cases b with
    | false => exact hfalse.anywhere.fits (c.fits_alt_right d)
    | true => exact (htrue k (by simpa using hk)).fits (c.fits_alt_left d)
  · exact hfalse.anywhere.fits (c.fits_alt_right d)

/-- Whether a first segment follows: if so, it begins with a name, a string or a bracket. -/
theorem progress_atFirstSegment {f : Bool → Routine β}
    (htrue : ∀ k, k.isFieldName = true ∨ k = .doubleQuote ∨ k = .bracketOpen → Progress n (.here k false) rank c 0 (f true))
    (hfalse : Progress n .blank rank d 0 (f false)) : Progress n κ rank (c.alt d).look 0 (atFirstSegment >>= f) := by
  rw [atFirstSegment_bind]
  refine .peek_blank fun k => ?_
  split
  · rename_i hk
    refine .quiet rfl fun b => ?_
    cases b with
    | false => exact hfalse.anywhere.fits (c.fits_alt_right d)
    | true => exact (htrue k (by simpa [or_assoc] using hk)).fits (c.fits_alt_left d)
  · exact hfalse.anywhere.fits (c.fits_alt_right d)

/-- Between the name of a call and the parenthesis, a `!` may touch the name. -/
theorem safe_eat_bang {s : State} {f : Bool → Routine β} (hf : ∀ b, Progress n (.ahead .parenOpen) rank d 0 (f b))
    (hs : s.Sane) (hcall : Lookahead.isCall s.unread = true) (hc : d.since ≤ maxPatience) (hp : d.look.total ≤ s.patience)
    (hn : 8 * s.unread.length + rank ≤ n) :
    Safe n (eat .bang >>= f) s fun _ u => Moved ((Cost.none.eat d).alt d).look 0 s u := by
  simp only [Cost.look] at hp
  rw [eat_bind]
  refine Safe.act (State.perform_peek (by omega)) ?_
  have hlength := s.length_looked
  cases hu : s.unread with
  | nil => simp [hu, Lookahead.isCall] at hcall
  | cons bang rest =>
    rw [hu, Lookahead.isCall] at hcall
    split at hcall
    · rename_i hbang
      have hkind : s.nextKind = .bang := by
        simp only [Bool.and_eq_true, decide_eq_true_eq] at hbang
        simp only [State.nextKind, hu, hbang.1]
      obtain ⟨hk, hunread, -⟩ := (State.at_of_nextKind hkind rfl (by decide)).looked
      rw [hu] at hunread
      rw [hk]
      refine Safe.bind ((safe_advance (State.sane_looked hs) (by simp [hunread])).and_run.imp fun _ v hran => ?_)
      obtain ⟨hv, hrun⟩ := hran
      rw [advance, Routine.run_single, State.perform_advance hunread] at hrun
      cases hrun
      have hshorter := hv.shorter
      have hpatience : d.total ≤ maxPatience := by
        have := hs.patient
        omega
      refine (hf true hc _ hv.sane (State.nextKind_skip_of_startsWith rfl (by decide) hcall) hpatience (by omega)).imp fun _ u hu => ?_
      have hmoved := (hv.eat hu).promise (Nat.zero_le 1)
      exact (State.moved_looked (by omega) hmoved).fits (Cost.fits_look (Cost.fits_alt_left _ _))
    · rw [← hu] at hcall
      have hk : s.looked.nextKind = .parenOpen := State.nextKind_skip_of_startsWith rfl (by decide) hcall
      have hat := s.at_looked
      rw [hk] at hat ⊢
      refine ((hf false).looked hc hs hat.nextKind_skip (by simp only [Cost.look]; omega) hn).imp fun _ u hu => ?_
      exact hu.fits (Cost.fits_look (Cost.fits_alt_right _ _))

/-- After the name of a call, and perhaps a `!`, comes the parenthesis. -/
theorem progress_callee {f : Bool → Routine β} (hf : ∀ b, Progress n (.ahead .parenOpen) (rank + 8) d 0 (f b)) :
    Progress n .callee rank (Cost.none.eat ((Cost.none.eat d).alt d).look) 1 (advance >>= fun _ => eat .bang >>= f) := by
  intro hc s hs hκ hp hn
  obtain ⟨token, rest, hu, _⟩ := hκ.1.exists_token nofun
  refine Safe.bind ((safe_advance hs (by simp [hu])).and_run.imp fun _ t ⟨ht, hrun⟩ => ?_)
  rw [advance, Routine.run_single, State.perform_advance hu] at hrun
  cases hrun
  have hcall : Lookahead.isCall rest = true := by simpa [hu, Lookahead.holds] using hκ.2
  have hlength := ht.shorter
  have hmax : d.look.total ≤ maxPatience ∧ d.since ≤ maxPatience := by
    simp only [Cost.eat, Cost.alt, Cost.look, Cost.none] at hc ⊢
    omega
  exact (safe_eat_bang hf ht.sane hcall hmax.2 hmax.1 (by omega)).imp fun _ u hu => ht.eat hu

end Plain

/-! ## The routines of the grammar -/

section Grammar

variable {n rank : Nat} {κ : Sight} {c d : Cost} {live : Bool}
  (he : ∀ {γ : Type} (κ : Sight) (r : Rule γ), Progress n κ r.rank r.cost (κ.begins r.first) (rule r))

include he

/-- A rule is entered where there is room for it. -/
theorem progress_rule (r : Rule α) (hr : r.rank ≤ rank) :
    Progress n κ rank r.cost (κ.begins r.first) (rule r) := by
  intro hc s hs hκ hp hn
  exact he κ r hc s hs hκ hp (by omega)

/-- A rule may be entered without asking what it consumes. -/
theorem progress_enter (r : Rule α) (hr : r.rank ≤ rank) :
    Progress n κ rank r.cost 0 (rule r) :=
  (progress_rule he r hr).promise (Nat.zero_le _)

/-- After a token was consumed there is room for any rule. -/
theorem progress_again (r : Rule α) : Progress n κ (rank + 8) r.cost 0 (rule r) :=
  progress_enter he r (Nat.le_trans r.rank_le (Nat.le_add_left _ _))

/-! Newlines. -/

theorem safe_newlines {s : State} (hr : 1 ≤ rank) (hs : s.Sane) (hp : 1 ≤ s.patience) (hn : 8 * s.unread.length + rank ≤ n) :
    Safe n newlines s fun u t => Moved ⟨1, 1⟩ 0 s t ∧ runRule n .newlines s = .ok (u, t) := by
  have h := he .blank Rule.newlines (by simp [Rule.cost, maxPatience]) s hs trivial hp (Nat.le_trans (by simp only [Rule.rank]; omega) hn)
  exact Safe.and_run h

/-- After newlines, what comes next is known not to be one. -/
theorem progress_newlines {f : Unit → Routine β} (hr : 1 ≤ rank)
    (hf : ∀ k, k ≠ .newline → Progress n (.here k false) rank c 0 (f ())) :
    Progress n κ rank (Cost.seq ⟨1, 1⟩ c) 0 (newlines >>= f) := by
  intro hc s hs hκ hp hn
  refine Safe.bind ((safe_newlines he hr hs (Nat.le_trans (Nat.le_add_right _ _) hp) hn).imp fun _ t ⟨ht, hrun⟩ => ?_)
  obtain ⟨hat, hne, _⟩ := newlines_run hrun
  exact (hf _ hne).after hc hp hn ht ⟨hat, nofun⟩

/-- Where no newline comes next, only a lookahead is spent. -/
theorem progress_newlines_here {k : Kind} {eats : Nat} {f : Unit → Routine β} (hr : 1 ≤ rank) (hk : k ≠ .newline)
    (hf : Progress n (.here k live) rank c eats (f ())) :
    Progress n (.here k live) rank c.look eats (newlines >>= f) := by
  intro hc s hs hκ hp hn
  refine Safe.bind ((safe_newlines he hr hs (Nat.le_trans (Nat.le_add_left _ _) hp) hn).imp fun _ t ⟨_, hrun⟩ => ?_)
  have hkind := hκ.1.looked.1
  obtain ⟨_, _, ⟨_, rfl⟩ | ⟨hnewline, _⟩⟩ := newlines_run hrun
  · exact hf.looked hc hs (State.holds_looked hκ) hp hn
  · exact absurd (hkind.symm.trans hnewline) hk

/-- Where a newline comes next, it is consumed. -/
theorem progress_newlines_newline (hr : 1 ≤ rank) : Progress n (.here .newline live) rank ⟨1, 1⟩ 1 newlines := by
  intro hc s hs hκ hp hn
  refine (safe_newlines he hr hs hp hn).imp fun _ t ⟨ht, hrun⟩ => ?_
  have hkind := hκ.1.looked.1
  obtain ⟨_, _, ⟨hne, _⟩ | ⟨_, hlt, hpatience⟩⟩ := newlines_run hrun
  · exact absurd hkind hne
  · exact ⟨ht.sane, hlt, ht.patience, fun _ => hpatience⟩

/-- What is consumed depends on what comes after the newlines. -/
theorem progress_newlines_first {first : KindSet} {f : Unit → Routine β} (hr : 1 ≤ rank)
    (hfirst : first.contains .newline = false)
    (hf : ∀ k live, k ≠ .newline → Progress n (.here k live) rank c ((Sight.here k live).begins first) (f ())) :
    Progress n κ rank (Cost.seq ⟨1, 1⟩ c) (κ.begins first) (newlines >>= f) := by
  have hother : Progress n κ rank (Cost.seq ⟨1, 1⟩ c) 0 (newlines >>= f) := progress_newlines he hr fun k hk => hf k false hk
  rcases Nat.eq_zero_or_pos (κ.begins first) with hzero | hpos
  · rw [hzero]
    exact hother
  · obtain ⟨k, rfl, hk⟩ := Sight.begins_pos hpos
    have hne : k ≠ .newline := by
      rintro rfl
      rw [hfirst] at hk
      cases hk
    refine (progress_newlines_here he hr hne (hf k true hne)).fits ?_
    rw [Cost.fits_iff]
    simp only [Cost.look, Cost.seq]
    omega

theorem progress_newlinesBody : Progress n κ 0 ⟨1, 1⟩ 0 newlinesBody :=
  .fits (.peekIs_blank (.promise (.eat (.advance nofun) fun _ => progress_again he .newlines) (Nat.zero_le 1)) fun _ _ => .done _)
    rfl

/-! Skipping over errors. -/

theorem progress_resync (stops : KindSet) (hr : 1 ≤ rank) : Progress n κ rank ⟨2, 1⟩ 0 (resync stops) :=
  .quiet rfl fun _ => .fits (.ite (fun _ => .done ()) fun _ => .peek_blank fun _ => .ite (fun _ => .done ()) fun _ =>
    .node (progress_enter he (.skipTo stops 0) hr)) rfl

/-- What is no stop is skipped. -/
theorem progress_resync_here {stops : KindSet} {k : Kind} (hr : 1 ≤ rank) (hk : stops.contains k = false) :
    Progress n (.here k true) rank ⟨2, 1⟩ 1 (resync stops) := by
  have hskip : Progress n (.here k true) rank _ _ _ := progress_rule he (.skipTo stops 0) hr
  have hbegins : (Sight.here k true).begins (Rule.skipTo stops 0).first = 1 := by
    simp [Sight.begins, Rule.first, hk]
  rw [hbegins] at hskip
  refine .stopped_live ?_
  rw [if_neg Bool.false_ne_true]
  refine .fits (.peek_here (c := ⟨1, 1⟩) ?_) rfl
  rw [if_neg (by simp [hk])]
  exact .node hskip

theorem progress_close {closer : Kind} (hk : closer ≠ .error) (hr : 1 ≤ rank) : Progress n κ rank ⟨4, 3⟩ 0 (close closer) := by
  have hunclosed {κ : Sight} {rank : Nat} (b : Bool) : Progress n κ rank .none 0 (if b then act .popDelimiter else do
      if ← atEnd then act (.reportUnclosed closer)
      act .popDelimiter) :=
    .fits (.ite (fun _ => .last rfl) fun _ => .quiet rfl fun _ => .ite (fun _ => .quiet rfl fun _ => .last rfl) fun _ =>
      .last rfl) rfl
  have hskip {κ : Sight} : Progress n κ rank ⟨3, 3⟩ 0 (do
      report .unexpectedToken (some (.expected (.delimiter closer)))
      resync (KindSet.closers.union (.single closer))
      let closed ← eat closer
      if closed then act .popDelimiter else do
        if ← atEnd then act (.reportUnclosed closer)
        act .popDelimiter) :=
    .quiet rfl fun _ => .fits (.seq (progress_resync he _ hr) fun _ => progress_eat hk (hunclosed true) fun _ _ => hunclosed false)
      rfl
  refine .fits (progress_eat hk (c := .none) (d := ⟨3, 3⟩) (.last rfl) fun k' _ => .quiet rfl fun b => ?_) rfl
  cases b with
  | true => exact .fits (hunclosed false) rfl
  | false => exact hskip

/-! Literals. -/

theorem progress_template : Progress n (.here .templateOpen live) rank ⟨0, 2⟩ 1 template := by
  have hclose : Progress n .blank (rank + 8) Cost.none.look 0 (do if (← peekRaw) = .templateClose then advance) := by
    refine .peekRaw fun s hs _ _ => ?_
    split
    · rename_i hk
      have hu : s.unread ≠ [] := State.unread_ne_nil (by simp [hk])
      exact (safe_advance hs hu).imp fun _ t ht => ht.promise (Nat.zero_le 1)
    · exact Safe.done (.refl hs)
  exact .fits (.node <| .eat (.advance nofun) fun _ => .seq (progress_again he .templateParts) fun _ => hclose) rfl

/-- One more token, and then a rule. -/
theorem safe_advance_rule {s : State} {c : Cost} (r : Rule α) (hs : s.Sane) (hk : s.nextKind ≠ .error)
    (hr : r.rank ≤ rank + 8) (hc : (Cost.none.eat r.cost).fits c = true) (hmax : c.since ≤ maxPatience)
    (hn : 8 * s.unread.length + rank ≤ n) : Safe n (do advance; rule r) s fun _ t => Moved c 0 s t := by
  have hle := (Cost.fits_iff.mp hc).2
  have hsafe := Progress.after_eating (fun _ => progress_enter he r hr) (safe_advance hs (State.unread_ne_nil hk)) (by omega) hn
  exact hsafe.imp fun _ t ht => (ht.promise (Nat.zero_le 1)).fits hc

theorem progress_templatePartsBody : Progress n κ 0 ⟨1, 1⟩ 0 templatePartsBody := by
  have hmore {s : State} (hs : s.Sane) (hk : s.nextKind ≠ .error) (hn : 8 * s.unread.length + 0 ≤ n) :
      Safe n (do advance; rule .templateParts) s fun _ t => Moved ⟨0, 1⟩ 0 s t :=
    safe_advance_rule he _ hs hk (by decide) rfl (by decide) hn
  refine .fits (c := Cost.look ⟨0, 1⟩) (.peekRaw fun s hs hp hn => ?_) rfl
  split
  · rename_i hk
    exact hmore hs (by simp [hk]) hn
  · rename_i hk
    exact hmore hs (by simp [hk]) hn
  · exact Safe.done ((Moved.refl hs).fits rfl)

theorem progress_stringPartsBody : Progress n κ 0 ⟨1, 3⟩ 0 stringPartsBody := by
  have hmore {s : State} (hs : s.Sane) (hk : s.nextKind ≠ .error) (hn : 8 * s.unread.length + 0 ≤ n) :
      Safe n (do advance; rule .stringParts) s fun _ t => Moved ⟨0, 3⟩ 0 s t :=
    safe_advance_rule he _ hs hk (by decide) rfl (by decide) hn
  refine .fits (c := Cost.look ⟨0, 3⟩) (.peekRaw fun s hs hp hn => ?_) rfl
  split
  · rename_i hk
    exact hmore hs (by simp [hk]) hn
  · rename_i hk
    exact hmore hs (by simp [hk]) hn
  · rename_i hk
    have htemplate : Progress n (.here .templateOpen false) 0 ⟨0, 3⟩ 1 (do template; rule .stringParts) :=
      .fits (.eat (progress_template he) fun _ => progress_again he .stringParts) rfl
    have hat : s.At .templateOpen := State.at_of_nextKind hk rfl nofun
    exact htemplate.promise (Nat.zero_le 1) (by decide) s hs ⟨hat, nofun⟩ hp hn
  · rename_i hk
    have hu : s.unread ≠ [] := State.unread_ne_nil (by simp [hk])
    exact (safe_advance hs hu).imp fun _ t ht => (ht.promise (Nat.zero_le 1)).fits rfl
  · exact Safe.done ((Moved.refl hs).fits rfl)

theorem progress_string : Progress n (.here .doubleQuote live) rank ⟨1, 3⟩ 1 string :=
  .fits (.node <| .require_here <| .eat (.advance nofun) fun _ => .seq (progress_again he .stringParts) fun _ => .done _) rfl

omit he in
theorem progress_simpleLiteral {k k' : Kind} (hk : k ≠ .error) (hminus : k ≠ .minus) :
    Progress n (.here k live) rank ⟨1, 0⟩ 1 (simpleLiteral k') := by
  refine .fits (.node <| .peekIs_here (c := .none) ?_) rfl
  rw [beq_false_of_ne hminus]
  exact .fits (.eat (.advance hk) fun _ => .done _) rfl

omit he in
/-- Where a sign touches a number, two tokens can be consumed. -/
theorem progress_signs {k : Kind} {eats : Nat} {f : Bool → Routine β} (htrue : Progress n (.pair .minus) rank c eats (f true))
    (hfalse : Progress n (.here .minus live) rank d eats (f false)) :
    Progress n (.here .minus live) rank (c.alt d) eats (ahead (.signs k) >>= f) := by
  intro hc s hs hκ hp hn
  refine Safe.act rfl ?_
  cases hb : (Lookahead.signs k).holds s.unread with
  | false => exact hfalse.fits (c.fits_alt_right d) hc s hs hκ hp hn
  | true =>
    refine htrue.fits (c.fits_alt_left d) hc s hs ⟨hκ.1, ?_⟩ hp hn
    rcases hu : s.unread with _ | ⟨t, _ | ⟨u, rest⟩⟩ <;> simp [hu, Lookahead.holds] at hb ⊢

omit he in
theorem progress_signedLiteral {k : Kind} : Progress n (.pair .minus) rank ⟨1, 0⟩ 1 (simpleLiteral k) :=
  .fits (.node <| .peek_pair (f := fun k' => if k' == .minus then advance >>= fun _ => advance >>= fun _ => pure k
    else advance >>= fun _ => pure k) (.eat_pair nofun fun _ => .done _)) rfl

theorem progress_literal {k : Kind} (hk : KindSet.contains (.ofList [.integer, .float, .minus, .doubleQuote, .rawString, .regex,
      .timestamp, .kwTrue, .kwFalse, .kwNull]) k = true) : Progress n (.here k live) rank ⟨2, 3⟩ 1 literal := by
  refine .fits (.peek_here (c := ⟨1, 3⟩) ?_) rfl
  split
  case h_3 =>
    exact .fits (progress_signs progress_signedLiteral <| progress_signs progress_signedLiteral <|
      .eat (progress_reportAndAdvance (k := .minus) nofun _ _) fun _ => .done _) rfl
  case h_4 => exact progress_string he
  case h_11 => simp_all [KindSet.ofList]
  all_goals exact .fits (progress_simpleLiteral nofun nofun) rfl

/-! Paths. -/

theorem progress_fieldName {k : Kind} (hk : k.isFieldName = true ∨ k = .doubleQuote) :
    Progress n (.here k live) rank ⟨2, 3⟩ 1 fieldName := by
  refine .fits (.peekIs_here (c := ⟨1, 3⟩) ?_) rfl
  rcases hk with hk | rfl
  · have hne : k ≠ .doubleQuote ∧ k ≠ .error := by
      constructor <;> rintro rfl <;> cases hk
    rw [beq_false_of_ne hne.1]
    exact .fits (.advance hne.2) rfl
  · exact .fits (.eat (progress_string he) fun _ => .done _) rfl

theorem progress_fieldSegment : Progress n (.here .dot live) rank ⟨1, 3⟩ 1 fieldSegment := by
  have hmissing {κ : Sight} : Progress n κ (rank + 8) ⟨2, 3⟩ 0 (reportFound .invalidPathContinuation (some .fieldAfterDot)) :=
    .fits (progress_reportFound _ _) rfl
  refine .fits (.node <| .require_here <| .eat (.advance nofun) fun _ => .peek_blank (c := ⟨2, 3⟩) fun k => ?_) rfl
  split
  · rename_i hk
    refine .quiet rfl fun b => ?_
    cases b with
    | false => exact hmissing
    | true => exact (progress_fieldName he (by simpa using hk)).promise (Nat.zero_le 1)
  · exact .pure_bind hmissing

theorem progress_indexSegment : Progress n (.here .bracketOpen live) rank ⟨0, 8⟩ 1 indexSegment := by
  have hrest {κ : Sight} {rank : Nat} : Progress n κ (rank + 8) ⟨5, 5⟩ 0 (do newlines; close .bracketClose) :=
    .fits (progress_newlines he (Nat.le_add_left _ _) fun _ _ => progress_close he nofun (Nat.le_add_left _ _)) rfl
  have hmissing {κ : Sight} : Progress n κ (rank + 8) ⟨6, 6⟩ 0 (do
      reportFound .unexpectedToken (some .indexInteger); newlines; close .bracketClose) :=
    .fits (.seq (progress_reportFound _ _) fun _ => hrest) rfl
  refine .fits (.node <| .quiet rfl fun _ => .eat (.advance nofun) fun _ =>
    progress_newlines he (c := Cost.look ⟨6, 6⟩) (Nat.le_add_left _ _) fun _ _ => .peek_blank (c := ⟨6, 6⟩) fun k => ?_) rfl
  split
  · exact .fits (.promise (.eat (.advance nofun) fun _ => hrest) (Nat.zero_le 1)) rfl
  · exact .fits (progress_signs (.promise (.eat_pair nofun fun _ => hrest) (Nat.zero_le 1)) hmissing) rfl
  · exact hmissing

theorem progress_pathSegmentsBody : Progress n κ 0 ⟨3, 11⟩ 0 pathSegmentsBody := by
  refine .fits (progress_atSegment (c := Cost.look ⟨1, 11⟩) (fun k hk => .peekIs_here (c := ⟨1, 11⟩) ?_) (.done _)) rfl
  rcases hk with rfl | rfl
  · exact .fits (.promise (.eat (progress_fieldSegment he) fun _ => progress_again he .pathSegments) (Nat.zero_le 1)) rfl
  · exact .fits (.promise (.eat (progress_indexSegment he) fun _ => progress_again he .pathSegments) (Nat.zero_le 1)) rfl

theorem progress_externalQuery {k : Kind} (hk : k ≠ .error) : Progress n (.here k live) rank ⟨0, 11⟩ 1 externalQuery := by
  have hfirst {k' : Kind} (hk' : k'.isFieldName = true ∨ k' = .doubleQuote ∨ k' = .bracketOpen) :
      Progress n (.here k' false) (rank + 8) ⟨3, 11⟩ 0 (node .path do
        if ← peekIs .bracketOpen then indexSegment else node .fieldSegment fieldName
        rule .pathSegments) := by
    refine .node <| .fits (.peekIs_here (c := ⟨2, 11⟩) ?_) rfl
    by_cases hb : k' = .bracketOpen
    · subst hb
      exact .fits (.promise (.eat (progress_indexSegment he) fun _ => progress_again he .pathSegments) (Nat.zero_le 1)) rfl
    · rw [beq_false_of_ne hb]
      have hname : k'.isFieldName = true ∨ k' = .doubleQuote := by simpa [hb] using hk'
      exact .fits (.promise (.eat (.node (progress_fieldName he hname)) fun _ => progress_again he .pathSegments) (Nat.zero_le 1)) rfl
  have hloose : Progress n .blank (rank + 8) ⟨4, 11⟩ 0 (do
      if ← atSegment then
        report .invalidPathContinuation (some (.expected .segmentAfterRoot))
        node .path (rule .pathSegments)
      return Kind.query) :=
    .fits (progress_atSegment (fun _ _ => .quiet rfl fun _ => .seq (.node (progress_again he .pathSegments)) fun _ => .done _)
      (.done _)) rfl
  refine .fits (.node <| .eat (.advance hk) fun _ => progress_atFirstSegment (c := ⟨3, 11⟩) (fun k' hk' => ?_) hloose) rfl
  exact .fits (.seq (hfirst hk') fun _ => .done _) rfl

theorem progress_continuePath (k : Kind) (hr : 1 ≤ rank) : Progress n κ rank ⟨4, 11⟩ 0 (continuePath k) := by
  have hquery {κ : Sight} : Progress n κ rank ⟨3, 11⟩ 0 (do
      wrapped .query (node .path (rule .pathSegments))
      return Kind.query) :=
    .fits (.seq (.wrapped (.node (progress_enter he _ hr))) fun _ => .done _) rfl
  unfold continuePath
  split
  · exact .fits (progress_atSegment (fun _ _ => hquery) (.done _)) rfl
  · exact .pure_bind (.fits (.done _) rfl)

/-! Containers, calls and terms. -/

theorem progress_group : Progress n (.here .parenOpen live) rank ⟨0, 12⟩ 1 group := by
  have hclose {κ : Sight} : Progress n κ (rank + 8) ⟨4, 3⟩ 0 (close .parenClose) := progress_close he nofun (Nat.le_add_left _ _)
  exact .fits (.node <| .quiet rfl fun _ => .eat (.advance nofun) fun _ => .seq (.separating <| .peek_blank fun _ =>
    .ite (fun _ => .seq (progress_again he .assignment) fun _ => hclose)
      (fun _ => .seq (progress_reportFound _ _) fun _ => hclose)) fun _ => .done _) rfl

theorem progress_delimited {k opener : Kind} {list : ItemList} (hk : k ≠ .error) :
    Progress n (.here k live) rank ⟨0, 16⟩ 1 (delimited opener list) := by
  have hcloser : list.closer ≠ .error := by cases list <;> exact nofun
  exact .fits (.quiet rfl fun _ => .eat (.advance hk) fun _ => .separating <| .seq (progress_again he (.items list)) fun _ =>
    progress_close he hcloser (Nat.le_add_left _ _)) rfl

theorem progress_array : Progress n (.here .bracketOpen live) rank ⟨0, 16⟩ 1 array :=
  .fits (.node <| .eat (progress_delimited he nofun) fun _ => .done _) rfl

theorem progress_object : Progress n (.here .braceOpen live) rank ⟨0, 16⟩ 1 object :=
  .fits (.node <| .eat (progress_delimited he nofun) fun _ => .done _) rfl

/-- A block of statements, after its opening brace was seen. -/
theorem progress_block_body : Progress n (.here .braceOpen live) rank ⟨0, 14⟩ 1 (node .block do
    act (.pushDelimiter .braceOpen)
    advance
    separating true (rule (.statements (some .braceClose)))
    close .braceClose
    return Kind.block) :=
  .fits (.node <| .quiet rfl fun _ => .eat (.advance nofun) fun _ => .seq (.separating (progress_again he (.statements _)))
    fun _ => .seq (progress_close he nofun (Nat.le_add_left _ _)) fun _ => .done _) rfl

theorem progress_block : Progress n κ rank ⟨2, 14⟩ 0 block :=
  .fits (.peekIs_blank (.promise (progress_block_body he) (Nat.zero_le 1)) fun _ _ => .seq (progress_reportFound _ _) fun _ =>
    .done _) rfl

theorem progress_block_here : Progress n (.here .braceOpen live) rank ⟨1, 14⟩ 1 block :=
  .fits (.peekIs_here (progress_block_body he)) rfl

theorem progress_element (hr : 3 ≤ rank) : Progress n κ rank ⟨4, 3⟩ 0 element :=
  .fits (.peek_blank fun _ => .ite (fun _ => .seq (progress_enter he (.binary 0) hr) fun _ => .done _) fun _ =>
    .seq (progress_reportFound _ _) fun _ => .done _) rfl

theorem progress_entry : Progress n κ rank ⟨2, 10⟩ 0 entry := by
  have hvalue {κ : Sight} : Progress n κ (rank + 8 + 8) ⟨5, 5⟩ 0 (do newlines; let _ ← element) :=
    .fits (progress_newlines he (Nat.le_add_left _ _) fun _ _ => .seq (progress_element he (by omega)) fun _ => .done _) rfl
  refine .fits (.peekIs_blank (.promise (.eat (.node <| .eat (progress_string he) fun _ =>
    progress_newlines he (Nat.le_add_left _ _) fun _ _ => progress_eat (by decide) hvalue fun _ _ => .last rfl) fun _ => .done _)
      (Nat.zero_le 1)) fun _ _ => .seq (progress_reportFound _ _) fun _ => .done _) rfl

theorem progress_argument (hr : 3 ≤ rank) : Progress n κ rank ⟨5, 7⟩ 0 argument := by
  have hvalue {κ : Sight} {rank : Nat} : Progress n κ (rank + 8) ⟨5, 5⟩ 0 (do newlines; let _ ← element) :=
    .fits (progress_newlines he (Nat.le_add_left _ _) fun _ _ => .seq (progress_element he (by omega)) fun _ => .done _) rfl
  have hnamed {k : Kind} (hk : k ≠ .error) : Progress n (.here k false) rank ⟨0, 7⟩ 1 (do
      node .namedArgument do
        advance
        let _ ← eat .colon
        newlines
        let _ ← element
      return true) :=
    .fits (.eat (.node <| .eat (.advance hk) fun _ => progress_eat nofun hvalue fun _ _ => hvalue) fun _ => .done _) rfl
  refine .fits (.peek_blank (c := ⟨4, 7⟩) fun k => ?_) rfl
  split
  · rename_i hk
    have hne : k ≠ .error := by
      rintro rfl
      simp [Kind.isKeyword] at hk
    refine .quiet rfl fun b => ?_
    cases b with
    | true => exact .fits (.promise (hnamed hne) (Nat.zero_le 1)) rfl
    | false => exact .fits (progress_element he hr) rfl
  · exact .pure_bind (.fits (progress_element he hr) rfl)

omit he in
theorem progress_parameter : Progress n κ rank ⟨2, 0⟩ 0 parameter := by
  refine .fits (.peek_blank (c := ⟨1, 0⟩) fun k => ?_) rfl
  split
  · rename_i hk
    have hne : k ≠ .error := by
      rintro rfl
      cases hk
    exact .fits (.promise (.eat (.advance hne) fun _ => .done _) (Nat.zero_le 1)) rfl
  · exact .fits (.seq (progress_reportFound _ _) fun _ => .done _) rfl

theorem progress_item (list : ItemList) (hr : 3 ≤ rank) : Progress n κ rank ⟨5, 10⟩ 0 (item list) := by
  cases list with
  | elements => exact .fits (progress_element he hr) rfl
  | entries => exact .fits (progress_entry he) rfl
  | arguments => exact .fits (progress_argument he hr) rfl
  | parameters => exact .fits progress_parameter rfl

theorem progress_itemsBody (list : ItemList) : Progress n κ 3 ⟨9, 12⟩ 0 (itemsBody list) := by
  have hmore : Progress n .blank 3 ⟨2, 12⟩ 0 (do newlines; if ← eat .comma then rule (.items list) else return ()) :=
    .fits (progress_newlines he (by decide) fun _ _ => progress_eat (by decide) (progress_again he (.items list)) fun _ _ =>
      .done _) rfl
  exact .fits (progress_newlines he (by decide) fun _ _ => .quiet rfl fun _ => .ite (fun _ => .done _) fun _ =>
    .peekIs_blank (.done _) fun _ _ => .seq (progress_item he list (by decide)) fun _ => .ite (fun _ => hmore) fun _ =>
      .done _) rfl

theorem progress_closure : Progress n (.here .arrow live) rank ⟨0, 20⟩ 1 closure := by
  have hbody {κ : Sight} : Progress n κ (rank + 8) ⟨3, 14⟩ 0 (do act .checkParameters; newlines; let _ ← block) :=
    .quiet rfl fun _ => .fits (progress_newlines he (Nat.le_add_left _ _) fun _ _ => .seq (progress_block he) fun _ => .done _) rfl
  refine .fits (.node <| .eat (.advance nofun) fun _ => .seq (c := ⟨2, 16⟩) (.node <| .fits (.peek_blank (c := ⟨1, 16⟩) fun k => ?_) rfl)
    fun _ => hbody) rfl
  split
  · exact .fits (.promise (.advance nofun) (Nat.zero_le 1)) rfl
  · exact .fits (.promise (.quiet rfl fun _ => .eat (.advance nofun) fun _ => .seq (progress_again he (.items .parameters))
      fun _ => progress_close he nofun (Nat.le_add_left _ _)) (Nat.zero_le 1)) rfl
  · exact .fits (progress_reportFound _ _) rfl

theorem progress_argumentList : Progress n (.ahead .parenOpen) rank ⟨1, 16⟩ 1 argumentList :=
  .fits (.node <| .require_ahead <| progress_delimited he nofun) rfl

omit he in
/-- What follows the name of a call is known. -/
theorem progress_startsCall {eats : Nat} {f : Bool → Routine β} (htrue : Progress n .callee rank c eats (f true))
    (hfalse : Progress n (.here .id live) rank d eats (f false)) :
    Progress n (.here .id live) rank (c.alt d) eats (ahead .startsCall >>= f) := by
  intro hc s hs hκ hp hn
  refine Safe.act rfl ?_
  cases hb : Lookahead.startsCall.holds s.unread with
  | false => exact hfalse.fits (c.fits_alt_right d) hc s hs hκ hp hn
  | true => exact htrue.fits (c.fits_alt_left d) hc s hs ⟨hκ.1, hb⟩ hp hn

theorem progress_identOrCall : Progress n (.here .id live) rank ⟨1, 21⟩ 1 identOrCall := by
  have hclosure : Progress n .blank (rank + 8) ⟨1, 20⟩ 0 (do
      if ← peekIs .arrow then closure
      return Kind.functionCall) :=
    .fits (.peekIs_blank (.promise (.eat (progress_closure he) fun _ => .done _) (Nat.zero_le 1)) fun _ _ => .done _) rfl
  have hcall : Progress n .callee rank ⟨0, 21⟩ 1 (node .functionCall do
      advance
      let _ ← eat .bang
      argumentList
      if ← peekIs .arrow then closure
      return Kind.functionCall) := by
    refine .fits (.node <| progress_callee fun _ => .promise (.seq (progress_argumentList he) fun _ => hclosure) (Nat.zero_le 1)) rfl
  exact .fits (.require_here <| progress_startsCall hcall <| .node <| .eat (.advance nofun) fun _ => .done _) rfl

omit he in
theorem progress_missingOperand : Progress n κ rank ⟨1, 0⟩ 0 missingOperand := by
  have hother {κ : Sight} (d : Detail) : Progress n κ rank .none 0 (do
      if ← atEnd then report .expectedExpression none else reportAndAdvance .expectedExpression d) :=
    .quiet rfl fun _ => .fits (.ite (fun _ => .last rfl) fun _ => progress_reportAndAdvance_any _ _) rfl
  refine .fits (.peek_blank (c := .none) fun k => ?_) rfl
  split
  · exact hother _
  · exact hother _
  · split
    case h_8 => exact hother _
    all_goals exact .last rfl

theorem progress_objectOrBlock : Progress n (.here .braceOpen live) rank ⟨2, 16⟩ 1 objectOrBlock :=
  .fits (.require_here <| .quiet rfl fun _ => .ite (fun _ => progress_object he) fun _ => progress_block_here he) rfl

theorem progress_term (hr : 1 ≤ rank) : Progress n κ rank .none (κ.begins .termFirst) term := by
  have hone {k : Kind} {l : Bool} {x : Routine Kind} (hx : Progress n (.here k l) rank ⟨2, 21⟩ 1 x) :
      Progress n (.here k l) rank ⟨6, 25⟩ ((Sight.here k l).begins .termFirst) (do let k ← x; continuePath k) :=
    .fits (.seq (hx.promise (Sight.begins_le_one _ _)) fun _ => progress_continuePath he _ hr) rfl
  refine .nested .termFirst (.marked <| .peek_first (c := ⟨6, 25⟩) fun k l => ?_) rfl hr
  split
  case h_1 | h_2 => exact hone (.fits (progress_externalQuery he nofun) rfl)
  case h_13 => exact hone (.fits (progress_group he) rfl)
  case h_14 => exact hone (.fits (progress_array he) rfl)
  case h_15 => exact hone (.fits (progress_objectOrBlock he) rfl)
  case h_16 => exact hone (.fits (progress_identOrCall he) rfl)
  case h_17 =>
    have hfirst : KindSet.termFirst.contains k = false := by
      refine Bool.eq_false_iff.mpr fun hk => ?_
      simp only [KindSet.termFirst, KindSet.ofList, List.contains_eq_mem, List.mem_cons, List.not_mem_nil, or_false,
        decide_eq_true_eq] at hk
      grind
    have hzero : (Sight.here k l).begins .termFirst = 0 := by
      cases l <;> simp [Sight.begins, hfirst]
    rw [hzero]
    exact .fits (.seq progress_missingOperand fun _ => .done _) rfl
  all_goals exact hone (.fits (progress_literal he rfl) rfl)

/-! Operators. -/

omit he in
theorem begins_congr {k : Kind} {F G : KindSet} (h : F.contains k = G.contains k) :
    (Sight.here k live).begins F = (Sight.here k live).begins G := by
  cases live <;> simp [Sight.begins, h]

theorem progress_unaryBody : Progress n κ 1 ⟨2, 2⟩ (κ.begins .arithmeticFirst) unaryBody := by
  refine .fits (progress_newlines_first he (Nat.le_refl 1) rfl (c := ⟨1, 0⟩) fun k l _ => ?_) rfl
  refine .fits (.peekIs_here (c := .none) ?_) rfl
  by_cases hk : k = .bang
  · subst hk
    refine .nested .arithmeticFirst (.node (c := ⟨0, 3⟩) ?_) rfl (Nat.le_refl 1)
    have hunary : Progress n .blank (1 + 8) ⟨3, 3⟩ 0 (do newlines; let _ ← rule .unary; return Kind.unaryOp) :=
      .fits (progress_newlines he (by decide) fun _ _ => .seq (progress_again he .unary) fun _ => .done _) rfl
    exact .promise (.fits (.eat (.advance nofun) fun _ => hunary) rfl) (Sight.begins_le_one _ _)
  · rw [beq_false_of_ne hk, begins_congr (G := .termFirst) (by simp [KindSet.arithmeticFirst, hk])]
    exact progress_term he (Nat.le_refl 1)

theorem progress_binaryBody (min : Nat) : Progress n κ 2 ⟨3, 3⟩ (κ.begins .arithmeticFirst) (binaryBody min) :=
  .fits (.marked <| .seq (progress_rule he .unary (Nat.le_refl 2)) fun lhs => progress_enter he (.binaryRest min lhs) (Nat.le_refl 2)) rfl

omit he in
theorem kind_ne_error_of_operator {k : Kind} {op : BinaryOperator} (h : BinaryOperator.ofKind? k = some op) : k ≠ .error := by
  rintro rfl
  cases h

theorem progress_binaryRestBody (min : Nat) (lhs : Kind) : Progress n κ 1 ⟨1, 0⟩ 0 (binaryRestBody min lhs) := by
  refine .fits (.peek_blank (c := .none) fun k => ?_) rfl
  split
  · exact .done _
  · rename_i op hop
    have hk := kind_ne_error_of_operator hop
    have hright : Progress n .blank (1 + 8) ⟨4, 4⟩ 0 (do newlines; let _ ← rule (.binary (op.precedence + 1))) :=
      .fits (progress_newlines he (by decide) fun _ _ => .seq (progress_again he (.binary _)) fun _ => .done _) rfl
    have hfold : Progress n (.here k false) 1 ⟨0, 5⟩ 1 (do
        wrapped .binaryOp do
          advance
          newlines
          let _ ← rule (.binary (op.precedence + 1))
        rule (.binaryRest min .binaryOp)) :=
      .fits (.eat (.wrapped <| .eat (.advance hk) fun _ => hright) fun _ => progress_again he (.binaryRest min .binaryOp)) rfl
    exact .fits (.ite (fun _ => .done _) fun _ => .nested .empty (.promise hfold (Nat.zero_le 1)) rfl (Nat.le_refl 1)) rfl

/-! Statements. -/

theorem progress_assignedValue {rank : Nat} : Progress n κ (rank + 8) ⟨3, 3⟩ 0 assignedValue :=
  .fits (progress_newlines he (Nat.le_add_left _ _) fun _ _ => .peek_blank fun _ => .ite
    (fun _ => .seq (progress_again he .statement) fun _ => .done _) fun _ => progress_reportFound _ _) rfl

theorem progress_target (hr : 3 ≤ rank) :
    Progress n κ rank ⟨4, 3⟩ (κ.begins (KindSet.arithmeticFirst.union (.single .underscore))) target := by
  refine .fits (.peekIs_first (c := ⟨3, 3⟩) fun k l => ?_) rfl
  by_cases hk : k = .underscore
  · subst hk
    exact .promise (.fits (.node <| .eat (.advance nofun) fun _ => .done _) rfl) (Sight.begins_le_one _ _)
  · rw [beq_false_of_ne hk, begins_congr (G := .arithmeticFirst) (by simp [hk])]
    exact progress_rule he (.binary 0) hr

omit he in
theorem progress_checkTarget {k : Kind} {eats : Nat} {f : Unit → Routine β} (h : Progress n κ rank c eats (f ())) :
    Progress n κ rank c eats (checkTarget k >>= f) := by
  unfold checkTarget
  split
  case h_5 => exact .quiet rfl fun _ => h
  all_goals exact .pure_bind h

omit he in
theorem progress_checkTarget_last {k : Kind} : Progress n κ rank .none 0 (checkTarget k) := by
  unfold checkTarget
  split
  case h_5 => exact .last rfl
  all_goals exact .done _

omit he in
theorem kind_ne_error_of_mem {F : KindSet} {k : Kind} (hk : F.contains k = true) (hF : F.contains .error = false) : k ≠ .error := by
  rintro rfl
  rw [hF] at hk
  cases hk

theorem progress_assign {k : Kind} {rank : Nat} (hk : KindSet.assignOperators.contains k = true) :
    Progress n (.here k live) rank ⟨0, 3⟩ 1 (do advance; assignedValue) :=
  .fits (.eat (.advance (kind_ne_error_of_mem hk rfl)) fun _ => progress_assignedValue he) rfl

theorem progress_assignment :
    Progress n κ 3 ⟨5, 8⟩ (κ.begins (KindSet.arithmeticFirst.union (.single .underscore))) assignment := by
  refine .fits (.marked <| .seq (progress_target he (Nat.le_refl 3)) fun lhs => .peek_blank (c := ⟨0, 8⟩) fun k => ?_) rfl
  split
  · rename_i hk
    refine progress_checkTarget (.promise ?_ (Nat.zero_le 1))
    exact .fits (.eat (.wrapped (progress_assign he hk)) fun _ => .done _) rfl
  · split
    · rename_i hk
      subst hk
      refine progress_checkTarget (.promise ?_ (Nat.zero_le 1))
      have hsecond : Progress n .blank (3 + 8) ⟨5, 5⟩ 0 (do newlines; marked do let err ← target; checkTarget err) :=
        .fits (progress_newlines he (by decide) fun _ _ => .marked <| .promise (.seq (progress_target he (by decide)) fun _ =>
          progress_checkTarget_last) (Nat.zero_le _)) rfl
      have hvalue : Progress n .blank (3 + 8) ⟨2, 3⟩ 0 (wrapped .assignment do
          if KindSet.assignOperators.contains (← peek) then
            advance
            assignedValue
          else reportFound .unexpectedToken (some .assignOperator)) :=
        .fits (.wrapped <| .peek_blank fun k => .ite (fun hk => .promise (progress_assign he hk) (Nat.zero_le 1)) fun _ =>
          progress_reportFound _ _) rfl
      exact .fits (.eat (.wrapped <| .eat (.advance nofun) fun _ => hsecond) fun _ => .seq hvalue fun _ => .done _) rfl
    · exact .fits (.ite (fun _ => .quiet rfl fun _ => .done _) fun _ => .done _) rfl

omit he in
theorem progress_atContinuation {f : Bool → Routine β} (hf : ∀ b, Progress n .blank rank c 0 (f b)) :
    Progress n κ rank (Cost.seq ⟨1, 0⟩ c) 0 (atContinuation >>= f) := by
  refine .seq (.fits (.peek_blank (c := .none) fun k => ?_) rfl) hf
  exact .fits (.ite (fun _ => .done _) fun _ => .ite (fun _ => .last rfl) fun _ => .done _) rfl

theorem progress_conditionsBody (count : Nat) : Progress n κ 4 ⟨10, 11⟩ 0 (conditionsBody count) := by
  have hagain (count : Nat) {rank : Nat} : Progress n .blank (rank + 8) ⟨10, 11⟩ 0 (rule (.conditions count)) :=
    progress_again he (.conditions count)
  refine .fits (progress_newlines he (by decide) fun _ _ => .quiet rfl fun _ => .ite (fun _ => .done _) fun _ =>
    .peekIs_blank (.done _) fun k _ => .peek_here (c := ⟨7, 11⟩) ?_) rfl
  split
  · rename_i hk
    subst hk
    exact .fits (.promise (.eat (progress_reportAndAdvance (k := .semicolon) nofun _ _) fun _ => hagain count) (Nat.zero_le 1)) rfl
  · split
    · refine .fits (.seq (progress_enter he .assignment (Nat.le_refl 4)) fun _ => .peek_blank (c := ⟨1, 11⟩) fun k => ?_) rfl
      split
      · exact .fits (.promise (.eat (progress_newlines_newline he (by decide)) fun _ => hagain _) (Nat.zero_le 1)) rfl
      · refine .fits (.promise (.eat (.advance nofun) fun _ => .seq (c := ⟨1, 1⟩) ?_ fun _ => hagain _) (Nat.zero_le 1)) rfl
        exact progress_again he .newlines
      · exact .fits (.done _) rfl
    · exact .fits (.seq (progress_reportFound _ _) fun _ => .done _) rfl

theorem progress_parenthesised : Progress n (.here .parenOpen live) rank ⟨0, 21⟩ 1 parenthesised := by
  have hgroup (b : Bool) : Progress n .blank (rank + 8) ⟨5, 12⟩ 0 (if b then (do
      wrapped .group (pure ())
      let k ← continuePath .group
      let _ ← rule (.binaryRest 0 k)) else pure ()) :=
    .fits (.ite (fun _ => .seq (.wrapped (.done _)) fun _ => .seq (progress_continuePath he _ (Nat.le_add_left _ _)) fun k =>
      .seq (progress_again he (.binaryRest 0 k)) fun _ => .done _) fun _ => .done _) rfl
  refine .fits (.marked <| .quiet rfl fun _ => .eat (.advance nofun) fun _ => .seq (progress_again he (.conditions 0)) fun count =>
    .seq (progress_close he nofun (Nat.le_add_left _ _)) (d := ⟨6, 12⟩) fun _ => ?_) rfl
  split
  · exact .fits (progress_atContinuation hgroup) rfl
  · exact .fits (.pure_bind (hgroup false)) rfl

theorem progress_predicate {rank : Nat} : Progress n κ (rank + 8) ⟨5, 21⟩ 0 predicate := by
  refine .fits (progress_newlines he (Nat.le_add_left _ _) fun _ _ => .node <| .peek_blank (c := ⟨3, 21⟩) fun k => ?_) rfl
  split
  · rename_i hk
    subst hk
    exact .fits (.promise (progress_parenthesised he) (Nat.zero_le 1)) rfl
  · exact .fits (.ite (fun _ => .seq (progress_again he (.binary 0)) fun _ => .done _) fun _ => progress_reportFound _ _) rfl

theorem progress_branch {rank : Nat} : Progress n κ (rank + 8) ⟨8, 24⟩ 0 branch :=
  .fits (.seq (progress_predicate he) fun _ => progress_newlines he (Nat.le_add_left _ _) fun _ _ => .seq (progress_block he)
    fun _ => .done _) rfl

theorem progress_elseBranchesBody : Progress n κ 0 ⟨1, 25⟩ 0 elseBranchesBody := by
  have hif : Progress n .blank (0 + 8 + 8) ⟨9, 25⟩ 0 (do branch; rule .elseBranches) :=
    .fits (.seq (progress_branch he) fun _ => progress_again he .elseBranches) rfl
  exact .fits (progress_eat (by decide) (progress_newlines he (by decide) fun _ _ => progress_eat (by decide) hif fun _ _ =>
    .seq (progress_block he) fun _ => .done _) fun _ _ => .done _) rfl

theorem progress_ifStatement : Progress n (.here .kwIf live) rank ⟨1, 25⟩ 1 ifStatement :=
  .fits (.node <| .require_here <| .eat (.advance nofun) fun _ => .seq (progress_branch he) fun _ =>
    .seq (progress_again he .elseBranches) fun _ => .done _) rfl

theorem progress_abortStatement : Progress n (.here .kwAbort live) rank ⟨0, 1⟩ 1 abortStatement :=
  .fits (.node <| .eat (.advance nofun) fun _ => .peek_blank fun _ => .ite
    (fun _ => .seq (progress_again he .statement) fun _ => .done _) fun _ => .done _) rfl

theorem progress_returnStatement : Progress n (.here .kwReturn live) rank ⟨0, 3⟩ 1 returnStatement :=
  .fits (.node <| .eat (.advance nofun) fun _ => progress_newlines he (Nat.le_add_left _ _) fun _ _ => .peek_blank fun _ => .ite
    (fun _ => .seq (progress_again he .statement) fun _ => .done _) fun _ => .seq (progress_reportFound _ _) fun _ => .done _) rfl

theorem progress_statement : Progress n κ 4 .none (κ.begins .statementFirst) statement := by
  refine .nested .statementFirst (.peek_first (c := ⟨5, 25⟩) fun k l => ?_) rfl (by decide)
  split
  · exact .promise (.fits (progress_ifStatement he) rfl) (Sight.begins_le_one _ _)
  · exact .promise (.fits (progress_abortStatement he) rfl) (Sight.begins_le_one _ _)
  · exact .promise (.fits (progress_returnStatement he) rfl) (Sight.begins_le_one _ _)
  · have hfirst : KindSet.statementFirst.contains k = (KindSet.arithmeticFirst.union (.single .underscore)).contains k := by
      simp only [KindSet.statementFirst, KindSet.contains_union, KindSet.contains_single, KindSet.ofList]
      grind
    rw [begins_congr hfirst]
    exact .fits (progress_rule he .assignment (Nat.le_refl 4)) rfl

theorem progress_endOfStatement (closer : Option Kind) (hr : 1 ≤ rank) :
    Progress n κ rank ⟨2, 1⟩ 0 (endOfStatement closer) := by
  refine .quiet rfl fun b => ?_
  have hmissing : Progress n .blank rank ⟨1, 0⟩ 0 (do reportFound .missingSeparator none; return false) :=
    .fits (.seq (progress_reportFound _ _) fun _ => .done _) rfl
  have hnewlines : Progress n .blank rank ⟨1, 1⟩ 0 (do newlines; return true) :=
    .fits (.seq (progress_enter he .newlines hr) fun _ => .done _) rfl
  refine .fits (.ite (fun _ => .done _) fun _ => .peek_blank (c := ⟨1, 1⟩) fun k => ?_) rfl
  split
  · exact hnewlines.anywhere
  · split
    · rename_i hk
      subst hk
      exact .fits (.promise (.eat (.advance nofun) fun _ => .seq (progress_again he .newlines) fun _ => .done _) (Nat.zero_le 1)) rfl
    · exact .fits (.ite (fun _ => .done _) fun _ => hmissing.anywhere) rfl

theorem progress_statementAndEnd {k : Kind} (closer : Option Kind) (hk : KindSet.statementFirst.contains k = true) :
    Progress n (.here k true) 5 ⟨0, 4⟩ 1 (statementAndEnd closer) := by
  have hstatement : Progress n (.here k true) 5 _ _ (rule .statement) := progress_rule he .statement (Nat.le_refl 5)
  have hbegins : (Sight.here k true).begins .statementFirst = 1 := by simp [Sight.begins, hk]
  rw [Rule.first, hbegins] at hstatement
  exact .fits (.eat hstatement fun _ => .seq (progress_endOfStatement he closer (by decide)) fun _ => .ite (fun _ => .done _)
    fun _ => progress_resync he _ (by decide)) rfl

theorem progress_statementsBody (closer : Option Kind) : Progress n κ 5 ⟨5, 10⟩ 0 (statementsBody closer) := by
  have hagain : Progress n .blank (5 + 8) ⟨5, 10⟩ 0 (rule (.statements closer)) := progress_again he (.statements closer)
  refine .fits (progress_newlines he (by decide) fun k hnewline => .stopped_here (.done _) <| .peek_here (c := ⟨3, 10⟩) ?_) rfl
  split
  · exact .fits (.done _) rfl
  · split
    · rename_i hk
      subst hk
      exact .fits (.promise (.eat (progress_reportAndAdvance (k := .semicolon) nofun _ _) fun _ => hagain) (Nat.zero_le 1)) rfl
    · split
      · rename_i hk
        have hne : k ≠ .error := by
          rintro rfl
          cases hk
        exact .fits (.promise (.eat (progress_reportAndAdvance hne _ _) fun _ => hagain) (Nat.zero_le 1)) rfl
      · split
        · rename_i hk
          exact .fits (.promise (.eat (progress_statementAndEnd he closer hk) fun _ => hagain) (Nat.zero_le 1)) rfl
        · rename_i hsemicolon hcloser _
          have hstop : KindSet.statementEnd.contains k = false := by
            simp only [KindSet.statementEnd, KindSet.ofList]
            cases k <;> first | rfl | simp_all [Kind.isCloser]
          exact .fits (.promise (progress_reportFound_here <| .eat (progress_resync_here he (by decide) hstop) fun _ => hagain)
            (Nat.zero_le 1)) rfl

end Grammar

/-! ## All rules -/

/-- A rule is safe where its body is. -/
theorem Safe.of_body {n : Nat} {r : Rule α} {s : State} {Q : α → State → Prop} (h : Safe n (grammar r) s Q) :
    Safe (n + 1) (rule r) s Q := by
  refine Ends.mono h (fun f hf => ?_) fun _ _ ht => ht
  rcases hf with hf | ⟨hf, stops, depth, t, hv, ht⟩
  · exact .inl hf
  · exact .inr ⟨hf, stops, depth, t, .jumpInside hv, ht⟩

/-- A rule makes the progress that its body makes with one rule less to nest. -/
theorem progress_of_body {n rank : Nat} {κ : Sight} {c : Cost} {eats : Nat} {r : Rule α}
    (h : Progress n κ rank c eats (grammar r)) : Progress (n + 1) κ (rank + 1) c eats (rule r) :=
  fun hc s hs hκ hp hn => (h hc s hs hκ hp (by omega)).of_body

/-- One round of skipping over an error. -/
theorem runRule_skipTo {n : Nat} {s : State} (stops : KindSet) (depth : Nat) (hp : 1 ≤ s.patience) :
    runRule (n + 1) (.skipTo stops depth) s =
      if s.unread.isEmpty || s.exhausted then .ok ((), s)
      else if depth = 0 && stops.contains s.looked.nextKind then .ok ((), s.looked)
      else
        match s.looked.unread with
        | [] => .error .endOfTokens
        | t :: rest => runRule n (.skipTo stops (depthAfter depth s.looked.nextKind)) (s.looked.consumed t rest) := by
  simp only [runRule, grammar, skipToBody, stopped, Routine.bind_eq, Routine.pure_eq, Routine.run_bind, Routine.run_single,
    Action.perform]
  split
  · rfl
  · simp only [peek, Routine.run_bind, Routine.run_single, State.perform_peek hp]
    split
    · rfl
    · simp only [advance, Routine.run_bind, Routine.run_single]
      cases hu : s.looked.unread with
      | nil => simp only [Action.perform, hu]
      | cons t rest => simp only [State.perform_advance hu, Routine.run_rule]

/-- Skipping over an error consumes tokens up to a stop, unless it looks past the last token. -/
theorem progress_skipTo {n : Nat} {κ : Sight} (stops : KindSet) (depth : Nat)
    (he : ∀ {γ : Type} (κ : Sight) (r : Rule γ), Progress n κ r.rank r.cost (κ.begins r.first) (rule r)) :
    Progress (n + 1) κ 1 ⟨1, 1⟩ (κ.begins (Rule.skipTo stops depth).first) (rule (.skipTo stops depth)) := by
  intro hc s hs hκ hp hn
  have hbegins (h : s.Stopped ∨ (depth = 0 && stops.contains s.looked.nextKind) = true) :
      κ.begins (Rule.skipTo stops depth).first = 0 := by
    refine Nat.eq_zero_of_not_pos fun hpos => ?_
    obtain ⟨k, rfl, hk⟩ := Sight.begins_pos hpos
    rcases h with h | h
    · exact hκ.2 rfl h
    · rw [hκ.1.looked.1] at h
      simp only [Rule.first, h] at hk
      cases hk
  by_cases hfall : s.looked.unread = [] ∧ ¬ (s.unread.isEmpty || s.exhausted) = true ∧
      ¬ (depth = 0 && stops.contains s.looked.nextKind) = true
  · -- nothing is left after trivia, but something was
    obtain ⟨hu, hlive, hgo⟩ := hfall
    have hfault (m : Nat) : runRule (m + 1) (.skipTo stops depth) s = .error .endOfTokens := by
      rw [runRule_skipTo stops depth hp, if_neg hlive, if_neg hgo, hu]
    have hne : s.unread ≠ [] := by
      intro hnil
      simp [hnil] at hlive
    have hskipped : ∀ t ∈ s.unread, s.skips t = true := by
      have hdrop : s.unread.dropWhile s.skips = [] := s.unread_skip ▸ hu
      have htake := s.unread.takeWhile_append_dropWhile (p := s.skips)
      rw [hdrop, List.append_nil] at htake
      rw [← htake]
      exact List.all_eq_true.mp List.all_takeWhile
    unfold Safe
    rw [Routine.run_rule, hfault n]
    exact .inr ⟨rfl, stops, depth, s, .jumpHere, ⟨hne, hskipped⟩, hfault 0⟩
  · refine Safe.of_body (Safe.act rfl ?_)
    split
    · rename_i hstop
      rw [hbegins (.inl (by simpa [State.Stopped] using hstop))]
      exact Safe.done ((Moved.refl hs).fits rfl)
    · rename_i hlive
      refine Safe.act (State.perform_peek hp) ?_
      split
      · rename_i hfound
        rw [hbegins (.inr hfound)]
        exact Safe.done ((State.moved_looked hp (Moved.refl (State.sane_looked hs))).fits rfl)
      · rename_i hgo
        have hu : s.looked.unread ≠ [] := fun hu => hfall ⟨hu, hlive, hgo⟩
        have hlength := s.length_looked
        have hrest (depth : Nat) : Progress n .blank (0 + 8) ⟨1, 1⟩ 0 (rule (.skipTo stops depth)) :=
          progress_again he (.skipTo stops depth)
        refine (Progress.after_eating (fun _ => hrest _) (safe_advance (State.sane_looked hs) hu) (by decide) (by omega)).imp
          fun _ t ht => ?_
        exact ((State.moved_looked hp ht).fits rfl).promise (Sight.begins_le_one _ _)

/-- Absorbing the rest of the input makes progress. -/
theorem progress_absorb {n : Nat} {κ : Sight} : Progress n κ 1 ⟨0, 0⟩ 0 (rule .absorb) := by
  intro _ s hs _ _ hn
  obtain ⟨t, hrun, ht⟩ := absorb_run n s hn
  unfold Safe
  rw [Routine.run_rule, hrun]
  have hpatience : s.patience ≤ t.patience ∧ t.patience ≤ maxPatience := by
    have := hs.patient
    have := ht.patience
    omega
  exact ⟨⟨hpatience.2, fun _ => ht.stopped⟩, ht.suffix.length_le, .inl hpatience.1, nofun⟩

theorem Sight.begins_empty (κ : Sight) : κ.begins .empty = 0 := by
  unfold begins
  split <;> rfl

/-- Every rule makes progress, by induction on the bound on nested rules. -/
theorem progress_runRule (n : Nat) (κ : Sight) (r : Rule α) : Progress n κ r.rank r.cost (κ.begins r.first) (rule r) := by
  induction n generalizing α κ with
  | zero =>
    intro _ s _ _ _ hn
    have hpos : 0 < r.rank := by cases r <;> exact Nat.succ_pos _
    omega
  | succ n ih =>
    have hnone {c : Cost} {rank : Nat} {β : Type} {r : Rule β} (h : Progress (n + 1) κ rank c 0 (rule r)) :
        Progress (n + 1) κ rank c (κ.begins .empty) (rule r) := by
      rw [κ.begins_empty]
      exact h
    cases r with
    | newlines => exact hnone (progress_of_body (progress_newlinesBody fun κ r => ih κ r))
    | absorb => exact hnone progress_absorb
    | skipTo stops depth => exact progress_skipTo stops depth fun κ r => ih κ r
    | stringParts => exact hnone (progress_of_body (progress_stringPartsBody fun κ r => ih κ r))
    | templateParts => exact hnone (progress_of_body (progress_templatePartsBody fun κ r => ih κ r))
    | pathSegments => exact hnone (progress_of_body (progress_pathSegmentsBody fun κ r => ih κ r))
    | items list => exact hnone (progress_of_body (progress_itemsBody (fun κ r => ih κ r) list))
    | statements closer => exact hnone (progress_of_body (progress_statementsBody (fun κ r => ih κ r) closer))
    | conditions count => exact hnone (progress_of_body (progress_conditionsBody (fun κ r => ih κ r) count))
    | elseBranches => exact hnone (progress_of_body (progress_elseBranchesBody fun κ r => ih κ r))
    | statement => exact progress_of_body (progress_statement fun κ r => ih κ r)
    | assignment => exact progress_of_body (progress_assignment fun κ r => ih κ r)
    | binary min => exact progress_of_body (progress_binaryBody (fun κ r => ih κ r) min)
    | binaryRest min lhs => exact hnone (progress_of_body (progress_binaryRestBody (fun κ r => ih κ r) min lhs))
    | unary => exact progress_of_body (progress_unaryBody fun κ r => ih κ r)

end Remap.Parser
