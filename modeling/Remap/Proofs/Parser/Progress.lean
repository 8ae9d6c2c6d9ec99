import Remap.Proofs.Parser.Leaves
import Remap.Proofs.Parser.Visit

/-!
# Progress

Why a parse never gets stuck. Three things run short while the parser works: tokens, patience, and the bound on nested rules.
Consuming a token renews the patience and makes room for eight more nested rules; so a routine is safe if it consumes a token
often enough, and if it consumes one only where there is one.

`Progress n κ rank c eats x` says all of this of a routine `x` at once. Where `κ` holds, the bound `n` leaves room for `rank`
nested rules and there is patience for the lookaheads that `c` counts, `x` does not break down, it uses up no more patience
than `c` says, and it consumes at least `eats` tokens. The rules for it follow the syntax of routines.

One way to break down is left. A routine that skips over an error looks past trivia, and may find the end where it was to
consume a token. `Falls` says that this is what happened.
-/

namespace Remap.Parser

variable {α β : Type}

/-! ## The one way to fall -/

/-- Tokens are left, but all of them would be passed over. -/
def State.Hole (s : State) : Prop := s.unread ≠ [] ∧ ∀ t ∈ s.unread, s.skips t = true

/-- A run comes to skip over an error in a hole, and breaks down there, right in the body of that rule. -/
def Falls (x : Routine α) (s : State) : Prop :=
  ∃ stops depth t, Visits (.skipTo stops depth) t x s ∧ t.Hole ∧ runRule 1 (.skipTo stops depth) t = .error .endOfTokens

/-- The faults that are not ruled out here. Nesting is another matter. -/
def Spared (x : Routine α) (s : State) (f : Fault) : Prop := f = .misnested ∨ f = .endOfTokens ∧ Falls x s

/-- A run returns what `Q` asks for, or it ends with a fault that is spared. -/
def Safe (n : Nat) (x : Routine α) (s : State) (Q : α → State → Prop) : Prop := Ends (Spared x s) Q (x.run (runRule n) s)

namespace Safe

variable {n : Nat} {s : State} {Q : α → State → Prop}

theorem imp {x : Routine α} {Q' : α → State → Prop} (h : Safe n x s Q) (hQ : ∀ a t, Q a t → Q' a t) : Safe n x s Q' :=
  Ends.imp h hQ

theorem done {a : α} (h : Q a s) : Safe n (pure a) s Q := h

/-- What is returned is returned by the run. -/
theorem and_run {x : Routine α} (h : Safe n x s Q) : Safe n x s fun a t => Q a t ∧ x.run (runRule n) s = .ok (a, t) := by
  unfold Safe at h ⊢
  cases hx : x.run (runRule n) s with
  | error e =>
    rw [hx] at h
    exact h
  | ok r =>
    rw [hx] at h
    exact ⟨h, rfl⟩

/-- Where the first of two routines falls, both fall; and where the second falls after the first, both fall. -/
theorem bind {x : Routine α} {f : α → Routine β} {Q : β → State → Prop} (h : Safe n x s fun a t => Safe n (f a) t Q) :
    Safe n (x >>= f) s Q := by
  unfold Safe at h ⊢
  rw [Routine.bind_eq, Routine.run_bind]
  cases hx : x.run (runRule n) s with
  | error e =>
    rw [hx] at h
    rcases h with he | ⟨he, stops, depth, t, hv, ht⟩
    · exact .inl he
    · exact .inr ⟨he, stops, depth, t, hv.bind_left, ht⟩
  | ok r =>
    rw [hx] at h
    refine Ends.mono h (fun e he => ?_) fun _ _ hq => hq
    rcases he with he | ⟨he, stops, depth, t, hv, ht⟩
    · exact .inl he
    · exact .inr ⟨he, stops, depth, t, hv.bind_right hx, ht⟩

/-- An action that returns goes on to what follows it. -/
theorem act {action : Action α} {f : α → Routine β} {Q : β → State → Prop} {a : α} {t : State}
    (hp : action.perform s = .ok (a, t)) (h : Safe n (f a) t Q) : Safe n (Parser.act action >>= f) s Q := by
  refine bind ?_
  unfold Safe
  rw [Routine.run_single, hp]
  exact h

/-- A rule that returns goes on to what follows it. -/
theorem call {r : Rule α} {f : α → Routine β} {Q : β → State → Prop} {a : α} {t : State} (hr : runRule n r s = .ok (a, t))
    (h : Safe n (f a) t Q) : Safe n (Parser.rule r >>= f) s Q := by
  refine bind ?_
  unfold Safe
  rw [Routine.run_rule, hr]
  exact h

end Safe

/-! ## Patience and tokens -/

/-- How many lookaheads a routine makes at most: in all if it never renews the patience, and after the last time it did. -/
structure Cost where
  total : Nat
  since : Nat

namespace Cost

/-- No lookahead. -/
def none : Cost := ⟨0, 0⟩

/-- One lookahead, then what `c` counts. -/
def look (c : Cost) : Cost := ⟨c.total + 1, c.since⟩

/-- What `c` counts, then what `d` counts. -/
def seq (c d : Cost) : Cost := ⟨c.total + d.total, max (c.since + d.total) d.since⟩

/-- What `c` counts, which is known to renew the patience, then what `d` counts. -/
def eat (c d : Cost) : Cost := ⟨c.total, max (c.since + d.total) d.since⟩

/-- What `c` counts or what `d` counts. -/
def alt (c d : Cost) : Cost := ⟨max c.total d.total, max c.since d.since⟩

/-- Whether `d` allows for all that `c` counts. -/
def fits (c d : Cost) : Bool := c.total ≤ d.total && c.since ≤ d.since

theorem fits_iff {c d : Cost} : c.fits d = true ↔ c.total ≤ d.total ∧ c.since ≤ d.since := by
  simp [fits]

theorem fits_alt_left (c d : Cost) : c.fits (c.alt d) = true :=
  fits_iff.mpr ⟨Nat.le_max_left _ _, Nat.le_max_left _ _⟩

theorem fits_alt_right (c d : Cost) : d.fits (c.alt d) = true :=
  fits_iff.mpr ⟨Nat.le_max_right _ _, Nat.le_max_right _ _⟩

theorem fits_look {c d : Cost} (h : c.fits d = true) : c.look.fits d.look = true := by
  rw [fits_iff] at h ⊢
  exact ⟨Nat.add_le_add_right h.1 1, h.2⟩

end Cost

/-- What holds between any two steps: the patience is within its bound, and the parser has to stop once it hit the limit. -/
structure State.Sane (s : State) : Prop where
  patient : s.patience ≤ maxPatience
  overflow : s.overflowed = true → s.Stopped

/-- The next token is not passed over, and is of a kind. At the end of input the kind is `error`. -/
structure State.At (s : State) (k : Kind) : Prop where
  ready : ∀ t rest, s.unread = t :: rest → s.skips t = false
  kind : s.nextKind = k

/-- What is known of a state. -/
inductive Sight where
  /-- Nothing. -/
  | blank
  /-- The kind of the next token after trivia. -/
  | ahead (k : Kind)
  /-- The kind of the very next token, which is not passed over, and perhaps that the parser need not stop. -/
  | here (k : Kind) (live : Bool)
  /-- The kind of the very next token, which is not passed over, and that another one comes after it. -/
  | pair (k : Kind)
  /-- The very next token is the name of a call. -/
  | callee

namespace Sight

/-- What is known is true of a state. -/
def Holds : Sight → State → Prop
  | .blank, _ => True
  | .ahead k, s => s.skip.nextKind = k
  | .here k live, s => s.At k ∧ (live = true → ¬ s.Stopped)
  | .pair k, s => s.At k ∧ 2 ≤ s.unread.length
  | .callee, s => s.At .id ∧ Lookahead.startsCall.holds s.unread = true

/-- One if the parser need not stop and the next token is one of a set, else zero. -/
def begins (κ : Sight) (first : KindSet) : Nat :=
  match κ with
  | .here k true => if first.contains k then 1 else 0
  | _ => 0

theorem begins_pos {κ : Sight} {first : KindSet} (h : 0 < κ.begins first) : ∃ k, κ = .here k true ∧ first.contains k = true := by
  unfold begins at h
  split at h
  · rename_i k
    split at h
    · rename_i hk
      exact ⟨k, rfl, hk⟩
    · cases h
  · cases h

theorem begins_le_one (κ : Sight) (first : KindSet) : κ.begins first ≤ 1 := by
  unfold begins
  split
  · split <;> omega
  · omega

end Sight

/-- What a routine leaves behind: tokens consumed and patience used up. -/
structure Moved (c : Cost) (eats : Nat) (s t : State) : Prop where
  sane : t.Sane
  shorter : t.unread.length + eats ≤ s.unread.length
  patience : s.patience ≤ t.patience + c.total ∨ maxPatience ≤ t.patience + c.since
  fresh : 0 < eats → maxPatience ≤ t.patience + c.since

namespace Moved

theorem refl {s : State} (hs : s.Sane) : Moved .none 0 s s := ⟨hs, Nat.le_refl _, .inl (Nat.le_refl _), nofun⟩

theorem promise {c : Cost} {eats eats' : Nat} {s t : State} (h : Moved c eats s t) (he : eats' ≤ eats) : Moved c eats' s t :=
  ⟨h.sane, Nat.le_trans (Nat.add_le_add_left he _) h.shorter, h.patience, fun hpos => h.fresh (Nat.lt_of_lt_of_le hpos he)⟩

theorem fits {c d : Cost} {eats : Nat} {s t : State} (h : Moved c eats s t) (hc : c.fits d = true) : Moved d eats s t := by
  rw [Cost.fits_iff] at hc
  have := h.patience
  refine ⟨h.sane, h.shorter, by omega, fun hpos => ?_⟩
  have := h.fresh hpos
  omega

/-- What is left behind by one part and then by another. -/
theorem seq {c d : Cost} {eats : Nat} {s t u : State} (ht : Moved c eats s t) (hu : Moved d 0 t u) :
    Moved (c.seq d) eats s u := by
  have hpt := ht.patience
  have hlt := ht.shorter
  have hpu := hu.patience
  have hlu := hu.shorter
  refine ⟨hu.sane, by omega, ?_, fun hpos => ?_⟩
  · simp only [Cost.seq]
    omega
  · have := ht.fresh hpos
    simp only [Cost.seq]
    omega

/-- What is left behind by a part that consumes a token and then by another. -/
theorem eat {c d : Cost} {s t u : State} (ht : Moved c 1 s t) (hu : Moved d 0 t u) : Moved (c.eat d) 1 s u := by
  have hfresh := ht.fresh Nat.one_pos
  have hlt := ht.shorter
  have hpu := hu.patience
  have hlu := hu.shorter
  have hall : maxPatience ≤ u.patience + (c.eat d).since := by
    simp only [Cost.eat]
    omega
  exact ⟨hu.sane, by omega, .inr hall, fun _ => hall⟩

end Moved

/-- A routine is safe where `κ` holds, with room for `rank` nested rules and patience for `c`, and consumes `eats` tokens. -/
def Progress (n : Nat) (κ : Sight) (rank : Nat) (c : Cost) (eats : Nat) (x : Routine α) : Prop :=
  c.since ≤ maxPatience → ∀ s : State, s.Sane → κ.Holds s → c.total ≤ s.patience → 8 * s.unread.length + rank ≤ n →
    Safe n x s fun _ t => Moved c eats s t

/-! ## What actions do to tokens and patience -/

/-- Two states agree in tokens and patience, except that trivia may have been passed over. -/
structure Quiet (s t : State) : Prop where
  unread : t.unread = s.unread ∨ t.unread = s.skip.unread
  patience : t.patience = s.patience
  separating : t.separating = s.separating
  overflowed : t.overflowed = s.overflowed
  exhausted : t.exhausted = s.exhausted

namespace State

theorem skips_congr {s t : State} (h : t.separating = s.separating) : t.skips = s.skips := by
  funext token
  simp only [skips, h]

theorem skips_skip (s : State) : s.skip.skips = s.skips := skips_congr (by rw [skip_eq])

/-- After trivia was passed over, the next token is not passed over. -/
theorem ready_skip (s : State) : ∀ t rest, s.skip.unread = t :: rest → s.skip.skips t = false := by
  intro t rest h
  rw [unread_skip] at h
  rw [skips_skip]
  have hhead := List.head?_dropWhile_not s.skips s.unread
  rw [h] at hhead
  exact hhead

theorem At.skip_unread {s : State} {k : Kind} (h : s.At k) : s.skip.unread = s.unread := by
  rw [unread_skip]
  cases hs : s.unread with
  | nil => rfl
  | cons t rest => rw [List.dropWhile_cons, if_neg (by simp [h.ready t rest hs])]

theorem At.nextKind_skip {s : State} {k : Kind} (h : s.At k) : s.skip.nextKind = k := by
  rw [← h.kind]
  simp only [nextKind, h.skip_unread]

/-- At a kind that is not the one of the end, there is a token. -/
theorem At.exists_token {s : State} {k : Kind} (h : s.At k) (hk : k ≠ .error) :
    ∃ t rest, s.unread = t :: rest ∧ t.kind = k := by
  have hkind := h.kind
  unfold nextKind at hkind
  split at hkind
  · exact absurd hkind.symm hk
  · rename_i t rest hs
    exact ⟨t, rest, hs, hkind⟩

theorem unread_ne_nil {s : State} (h : s.nextKind ≠ .error) : s.unread ≠ [] := by
  intro hu
  simp [nextKind, hu] at h

/-- Nothing passes over a token that is neither trivia nor a newline. -/
theorem at_of_nextKind {s : State} {k : Kind} (h : s.nextKind = k) (htrivia : k.isTrivia = false) (hne : k ≠ .newline) :
    s.At k := by
  refine ⟨fun t rest hs => ?_, h⟩
  simp only [nextKind, hs] at h
  simp [skips, h, htrivia, hne]

theorem at_skip (s : State) : s.skip.At s.skip.nextKind := ⟨s.ready_skip, rfl⟩

theorem Stopped.mono {s t : State} (h : s.Stopped) (hu : t.unread <:+ s.unread) (he : s.exhausted = true → t.exhausted = true) :
    t.Stopped := by
  rcases h with hnil | hex
  · rw [hnil, List.suffix_nil] at hu
    exact .inl hu
  · exact .inr (he hex)

/-- What comes next stays the same when trivia is passed over. -/
theorem At.transfer {s t : State} {k : Kind} (hs : s.At k) (hu : t.unread = s.unread ∨ t.unread = s.skip.unread)
    (hsep : t.separating = s.separating) : t.unread = s.unread ∧ t.At k := by
  have hu : t.unread = s.unread := hu.elim id fun hu => hu.trans hs.skip_unread
  refine ⟨hu, ?_, ?_⟩
  · rw [hu, State.skips_congr hsep]
    exact hs.ready
  · rw [← hs.kind]
    simp only [State.nextKind, hu]

end State

/-- What is known depends on the tokens, on how newlines are read and on the fuel. -/
theorem Sight.Holds.transfer {κ : Sight} {s t : State} (hs : κ.Holds s)
    (hu : t.unread = s.unread ∨ t.unread = s.skip.unread) (hsep : t.separating = s.separating)
    (hex : t.exhausted = s.exhausted) : κ.Holds t := by
  cases κ with
  | blank => trivial
  | ahead k =>
    have hskip : t.skip.unread = s.skip.unread := by
      rw [t.unread_skip, State.skips_congr hsep]
      rcases hu with hu | hu
      · rw [hu, s.unread_skip]
      · rw [hu, ← s.skips_skip, ← s.skip.unread_skip]
        exact s.at_skip.skip_unread
    simp only [Sight.Holds, State.nextKind, hskip]
    exact hs
  | here k live =>
    obtain ⟨hu, hk⟩ := State.At.transfer hs.1 hu hsep
    refine ⟨hk, fun hl hstop => hs.2 hl ?_⟩
    simpa [State.Stopped, hu, hex] using hstop
  | pair k =>
    obtain ⟨hu, hk⟩ := State.At.transfer hs.1 hu hsep
    exact ⟨hk, hu ▸ hs.2⟩
  | callee =>
    obtain ⟨hu, hk⟩ := State.At.transfer hs.1 hu hsep
    exact ⟨hk, hu ▸ hs.2⟩

namespace Quiet

theorem refl (s : State) : Quiet s s := ⟨.inl rfl, rfl, rfl, rfl, rfl⟩

theorem skip (s : State) : Quiet s s.skip := by
  refine ⟨.inr rfl, ?_, ?_, ?_, ?_⟩ <;> rw [State.skip_eq]

variable {s t : State} (h : Quiet s t)

include h

theorem suffix : t.unread <:+ s.unread := by
  rcases h.unread with hu | hu
  · rewrite [hu]
    exact List.suffix_refl _
  · rw [hu]
    exact s.suffix_skip

theorem length_le : t.unread.length ≤ s.unread.length := h.suffix.length_le

theorem sane (hs : s.Sane) : t.Sane where
  patient := h.patience ▸ hs.patient
  overflow := by
    rw [h.overflowed]
    exact fun ho => (hs.overflow ho).mono h.suffix (by simp [h.exhausted])

theorem at_kind {k : Kind} (hs : s.At k) : t.unread = s.unread ∧ t.At k := hs.transfer h.unread h.separating

theorem holds {κ : Sight} (hs : κ.Holds s) : κ.Holds t := hs.transfer h.unread h.separating h.exhausted

theorem moved {c : Cost} {eats : Nat} {u : State} (hm : Moved c eats t u) : Moved c eats s u where
  sane := hm.sane
  shorter := Nat.le_trans hm.shorter h.length_le
  patience := h.patience ▸ hm.patience
  fresh := hm.fresh

theorem moved_after {c : Cost} {eats : Nat} {r : State} (hm : Moved c eats r s) : Moved c eats r t where
  sane := h.sane hm.sane
  shorter := Nat.le_trans (Nat.add_le_add_right h.length_le _) hm.shorter
  patience := by
    rw [h.patience]
    exact hm.patience
  fresh := by
    rw [h.patience]
    exact hm.fresh

end Quiet

/-- Whether an action leaves tokens and patience alone, trivia apart. -/
def Action.isQuiet : {α : Type} → Action α → Bool
  | _, .peek | _, .peekRaw | _, .advance | _, .enter | _, .leave | _, .setSeparating _ => false
  | _, _ => true

theorem quiet_report (s : State) (d : Diagnostic) : Quiet s (s.report d) := by
  rw [State.report_eq]
  exact ⟨.inl rfl, rfl, rfl, rfl, rfl⟩

theorem quiet_drain (s : State) : Quiet s s.drain := by
  rw [State.drain_eq]
  exact ⟨.inl rfl, rfl, rfl, rfl, rfl⟩

theorem quiet_pushed (s : State) (label : Option Kind) : Quiet s (s.pushed label) := by
  have h := quiet_drain s
  exact ⟨h.unread, h.patience, h.separating, h.overflowed, h.exhausted⟩

/-- Passing over trivia, then something that does not. -/
theorem Quiet.skip_trans {s t : State} (h : Quiet s.skip t) : Quiet s t := by
  have hs := Quiet.skip s
  refine ⟨.inr ?_, h.patience.trans hs.patience, h.separating.trans hs.separating, h.overflowed.trans hs.overflowed,
    h.exhausted.trans hs.exhausted⟩
  rcases h.unread with hu | hu
  · exact hu
  · exact hu.trans s.at_skip.skip_unread

/-- A quiet action breaks down only over nesting. -/
theorem quiet_perform {action : Action α} (hq : action.isQuiet = true) (s : State) :
    Ends (· = .misnested) (fun _ t => Quiet s t) (action.perform s) := by
  cases action with
  | touches => exact .skip s
  | ahead q => exact .refl s
  | atEnd => exact .refl s
  | stopped => exact .refl s
  | settle => exact .skip_trans (quiet_drain _)
  | openNode k | mark => exact quiet_pushed s _
  | closeNode =>
    simp only [Action.perform]
    split
    · exact ⟨.inl rfl, rfl, rfl, rfl, rfl⟩
    · rfl
  | wrap k =>
    simp only [Action.perform]
    split
    · exact ⟨.inl rfl, rfl, rfl, rfl, rfl⟩
    · rfl
  | unmark =>
    simp only [Action.perform]
    split
    · exact ⟨.inl rfl, rfl, rfl, rfl, rfl⟩
    · rfl
  | report p d => exact .skip_trans (quiet_report _ _)
  | reportUnclosed closer =>
    simp only [Action.perform]
    split
    · exact .skip s
    · exact .skip_trans (quiet_report _ _)
  | reportTarget flaw => exact quiet_report s _
  | checkParameters =>
    simp only [Action.perform, State.reportParameters_eq]
    obtain ⟨reports, lastReport, h⟩ := State.foldl_report s.parameterProblems s
    rw [h]
    exact ⟨.inl rfl, rfl, rfl, rfl, rfl⟩
  | pushDelimiter k =>
    have h := Quiet.skip s
    exact ⟨h.unread, h.patience, h.separating, h.overflowed, h.exhausted⟩
  | popDelimiter => exact ⟨.inl rfl, rfl, rfl, rfl, rfl⟩
  | _ => cases hq

namespace State

variable {s : State}

theorem perform_peek (h : 1 ≤ s.patience) : Action.peek.perform s = .ok (s.looked.nextKind, s.looked) := by
  have hp : s.skip.patience = s.patience := (Quiet.skip s).patience
  simp only [Action.perform, look, hp]
  rw [if_neg (by omega)]
  rfl

theorem at_looked (s : State) : s.looked.At s.looked.nextKind := ⟨s.ready_skip, rfl⟩

theorem sane_looked (h : s.Sane) : s.looked.Sane where
  patient := Nat.le_trans (Nat.sub_le _ _) h.patient
  overflow := ((Quiet.skip s).sane h).overflow

theorem length_looked (s : State) : s.looked.unread.length ≤ s.unread.length := (Quiet.skip s).length_le

/-- A look where the next token is known finds it and leaves it there. -/
theorem At.looked {k : Kind} (h : s.At k) : s.looked.nextKind = k ∧ s.looked.unread = s.unread ∧ s.looked.At k := by
  obtain ⟨hu, hk⟩ := (Quiet.skip s).at_kind h
  exact ⟨hk.kind, hu, hk.ready, hk.kind⟩

theorem holds_looked {κ : Sight} (h : κ.Holds s) : κ.Holds s.looked :=
  h.transfer (.inr rfl) (Quiet.skip s).separating (Quiet.skip s).exhausted

theorem moved_looked {c : Cost} {eats : Nat} {t : State} (hp : 1 ≤ s.patience) (h : Moved c eats s.looked t) :
    Moved c.look eats s t where
  sane := h.sane
  shorter := Nat.le_trans h.shorter s.length_looked
  patience := by
    have := h.patience
    simp only [State.looked, Cost.look] at this ⊢
    omega
  fresh := h.fresh

end State

/-! ## Routines that make progress -/

namespace Progress

variable {n rank : Nat} {κ : Sight} {c d : Cost} {eats eats' : Nat} {x : Routine α} {f : α → Routine β}

/-- More may be allowed for. -/
theorem fits (h : Progress n κ rank c eats x) (hc : c.fits d = true) : Progress n κ rank d eats x := by
  intro hd s hs hκ hp hn
  have hle := Cost.fits_iff.mp hc
  exact (h (by omega) s hs hκ (by omega) hn).imp fun _ t ht => ht.fits hc

/-- Less may be promised. -/
theorem promise (h : Progress n κ rank c eats x) (he : eats' ≤ eats) : Progress n κ rank c eats' x :=
  fun hc s hs hκ hp hn => (h hc s hs hκ hp hn).imp fun _ _ ht => ht.promise he

/-- What needs to know nothing may be run anywhere. -/
theorem anywhere (h : Progress n .blank rank c eats x) : Progress n κ rank c eats x :=
  fun hc s hs _ hp hn => h hc s hs trivial hp hn

theorem done (a : α) : Progress n κ rank .none 0 (pure a : Routine α) := by
  intro _ s hs _ _ _
  exact Safe.done (.refl hs)

/-- A value is handed on at once. -/
theorem pure_bind {a : α} (h : Progress n κ rank c eats (f a)) : Progress n κ rank c eats (pure a >>= f) := h

/-- There is patience for a second part where there was for both, after the first. -/
theorem after {κ' : Sight} {s t : State} {y : Routine β} (h : Progress n κ' rank d 0 y) (hc : (c.seq d).since ≤ maxPatience)
    (hp : (c.seq d).total ≤ s.patience) (hn : 8 * s.unread.length + rank ≤ n) (ht : Moved c eats s t) (hκ : κ'.Holds t) :
    Safe n y t fun _ u => Moved (c.seq d) eats s u := by
  simp only [Cost.seq] at hc hp
  have hpt := ht.patience
  have hlt := ht.shorter
  refine (h (by omega) t ht.sane hκ (by omega) (by omega)).imp fun b u hu => ?_
  exact ht.seq hu

/-- One routine after another. -/
theorem seq (hx : Progress n κ rank c eats x) (hf : ∀ a, Progress n .blank rank d 0 (f a)) :
    Progress n κ rank (c.seq d) eats (x >>= f) := by
  intro hc s hs hκ hp hn
  have hc' := hc
  have hp' := hp
  simp only [Cost.seq] at hc' hp'
  refine Safe.bind ((hx (by omega) s hs hκ (by omega) hn).imp fun a t ht => ?_)
  exact (hf a).after hc hp hn ht trivial

/-- After something that consumes a token there is all the patience again, and room for more rules. -/
theorem after_eating {s : State} (hf : ∀ a, Progress n .blank (rank + 8) d 0 (f a))
    (hx : Safe n x s fun _ t => Moved c 1 s t) (hc : (c.eat d).since ≤ maxPatience) (hn : 8 * s.unread.length + rank ≤ n) :
    Safe n (x >>= f) s fun _ t => Moved (c.eat d) 1 s t := by
  simp only [Cost.eat] at hc
  refine Safe.bind (hx.imp fun a t ht => ?_)
  have hfresh := ht.fresh Nat.one_pos
  have hlt := ht.shorter
  refine (hf a (by omega) t ht.sane trivial (by omega) (by omega)).imp fun b u hu => ?_
  exact ht.eat hu

theorem eat (hx : Progress n κ rank c 1 x) (hf : ∀ a, Progress n .blank (rank + 8) d 0 (f a)) :
    Progress n κ rank (c.eat d) 1 (x >>= f) := by
  intro hc s hs hκ hp hn
  have hc' := hc
  simp only [Cost.eat] at hc' hp
  exact after_eating hf (hx (by omega) s hs hκ hp hn) hc hn

theorem ite {p : Prop} [Decidable p] {y : Routine α} (hx : p → Progress n κ rank c eats x)
    (hy : ¬ p → Progress n κ rank d eats y) : Progress n κ rank (c.alt d) eats (if p then x else y) := by
  split
  · rename_i h
    exact (hx h).fits (c.fits_alt_left d)
  · rename_i h
    exact (hy h).fits (c.fits_alt_right d)

/-- A quiet action, and then more. -/
theorem quiet {action : Action α} (ha : action.isQuiet = true) (hf : ∀ a, Progress n κ rank c eats (f a)) :
    Progress n κ rank c eats (act action >>= f) := by
  intro hc s hs hκ hp hn
  refine Safe.bind ?_
  unfold Safe
  rw [Routine.run_single]
  refine (quiet_perform ha s).mono (fun _ h => .inl h) fun a t ht => ?_
  have := ht.length_le
  refine (hf a hc t (ht.sane hs) (ht.holds hκ) (ht.patience ▸ hp) (by omega)).imp fun b u hu => ?_
  exact ht.moved hu

/-- A quiet action as the last thing. -/
theorem last {action : Action α} (ha : action.isQuiet = true) : Progress n κ rank .none 0 (act action) := by
  intro hc s hs hκ hp hn
  unfold Safe
  rw [Routine.run_single]
  refine (quiet_perform ha s).mono (fun _ h => .inl h) fun a t ht => ?_
  exact ht.moved (.refl (ht.sane hs))

/-- A routine, and then a quiet action; the routine's value is returned. -/
theorem beforeQuiet {action : Action β} (ha : action.isQuiet = true) (h : Progress n κ rank c eats x) :
    Progress n κ rank c eats (x >>= fun a => act action >>= fun _ => pure a) := by
  intro hc s hs hκ hp hn
  refine Safe.bind ((h hc s hs hκ hp hn).imp fun a t ht => Safe.bind ?_)
  unfold Safe
  rw [Routine.run_single]
  refine (quiet_perform ha t).mono (fun _ h => .inl h) fun b u hu => ?_
  exact Safe.done (hu.moved_after ht)

theorem node {k : Kind} (h : Progress n κ rank c eats x) : Progress n κ rank c eats (Parser.node k x) :=
  .quiet rfl fun _ => .beforeQuiet rfl h

theorem marked (h : Progress n κ rank c eats x) : Progress n κ rank c eats (Parser.marked x) :=
  .quiet rfl fun _ => .beforeQuiet rfl h

theorem wrapped {k : Kind} (h : Progress n κ rank c eats x) : Progress n κ rank c eats (Parser.wrapped k x) :=
  .quiet rfl fun _ => .beforeQuiet rfl h

/-! Looking at what comes next. -/

/-- What follows a look is run from the state after it, with one lookahead less. -/
theorem looked {κ' : Sight} {s : State} (h : Progress n κ' rank c eats x) (hc : c.since ≤ maxPatience) (hs : s.Sane)
    (hκ : κ'.Holds s.looked) (hp : c.look.total ≤ s.patience) (hn : 8 * s.unread.length + rank ≤ n) :
    Safe n x s.looked fun _ t => Moved c.look eats s t := by
  simp only [Cost.look] at hp
  have hlength := s.length_looked
  refine (h hc _ (State.sane_looked hs) hκ (Nat.le_sub_of_add_le hp) (by omega)).imp fun _ t ht => ?_
  exact State.moved_looked (by omega) ht

theorem peek_here {k : Kind} {live : Bool} {f : Kind → Routine β} (h : Progress n (.here k live) rank c eats (f k)) :
    Progress n (.here k live) rank c.look eats (peek >>= f) := by
  intro hc s hs hκ hp hn
  refine Safe.act (State.perform_peek (Nat.le_trans (Nat.le_add_left 1 c.total) hp)) ?_
  rw [hκ.1.looked.1]
  exact h.looked hc hs (State.holds_looked hκ) hp hn

theorem peek_pair {k : Kind} {f : Kind → Routine β} (h : Progress n (.pair k) rank c eats (f k)) :
    Progress n (.pair k) rank c.look eats (peek >>= f) := by
  intro hc s hs hκ hp hn
  refine Safe.act (State.perform_peek (Nat.le_trans (Nat.le_add_left 1 c.total) hp)) ?_
  rw [hκ.1.looked.1]
  exact h.looked hc hs (State.holds_looked hκ) hp hn

theorem peek_blank {f : Kind → Routine β} (h : ∀ k, Progress n (.here k false) rank c eats (f k)) :
    Progress n κ rank c.look eats (peek >>= f) := by
  intro hc s hs hκ hp hn
  refine Safe.act (State.perform_peek (Nat.le_trans (Nat.le_add_left 1 c.total) hp)) ?_
  exact (h _).looked hc hs ⟨s.at_looked, nofun⟩ hp hn

/-- A look at the very next token passes over nothing. -/
theorem peekRaw {f : Kind → Routine β} (h : ∀ s : State, s.Sane → c.total ≤ s.patience → 8 * s.unread.length + rank ≤ n →
    Safe n (f s.nextKind) s fun _ t => Moved c eats s t) : Progress n κ rank c.look eats (peekRaw >>= f) := by
  intro _ s hs _ hp hn
  simp only [Cost.look] at hp
  have hlook : Action.peekRaw.perform s = .ok (s.nextKind, { s with patience := s.patience - 1 }) := by
    simp only [Action.perform, Parser.look]
    rw [if_neg (by omega)]
  have hs' : { s with patience := s.patience - 1 }.Sane := ⟨Nat.le_trans (Nat.sub_le _ _) hs.patient, hs.overflow⟩
  refine Safe.act hlook ((h _ hs' (Nat.le_sub_of_add_le hp) hn).imp fun _ t ht => ?_)
  have hpatience := ht.patience
  simp only [Cost.look] at hpatience ⊢
  exact ⟨ht.sane, ht.shorter, by simp only; omega, ht.fresh⟩

/-- What is consumed depends on what the look finds. -/
theorem peek_first {first : KindSet} {f : Kind → Routine β}
    (h : ∀ k live, Progress n (.here k live) rank c ((Sight.here k live).begins first) (f k)) :
    Progress n κ rank c.look (κ.begins first) (peek >>= f) := by
  cases κ with
  | here k live => exact .peek_here (h k live)
  | blank | ahead k | pair k | callee => exact .peek_blank fun k => h k false

/-- A test of the next token. -/
theorem peekIs_first {first : KindSet} {k : Kind} {f : Bool → Routine β}
    (h : ∀ k' live, Progress n (.here k' live) rank c ((Sight.here k' live).begins first) (f (k' == k))) :
    Progress n κ rank c.look (κ.begins first) (peekIs k >>= f) :=
  peek_first (f := fun k' => f (k' == k)) h

theorem peekIs_here {k k' : Kind} {live : Bool} {f : Bool → Routine β}
    (h : Progress n (.here k' live) rank c eats (f (k' == k))) :
    Progress n (.here k' live) rank c.look eats (peekIs k >>= f) :=
  peek_here (f := fun k' => f (k' == k)) h

theorem peekIs_blank {k : Kind} {f : Bool → Routine β} (htrue : Progress n (.here k false) rank c eats (f true))
    (hfalse : ∀ k', k' ≠ k → Progress n (.here k' false) rank d eats (f false)) :
    Progress n κ rank (c.alt d).look eats (peekIs k >>= f) := by
  refine peek_blank (f := fun k' => f (k' == k)) fun k' => ?_
  by_cases hk : k' = k
  · subst hk
    rw [beq_self_eq_true]
    exact htrue.fits (c.fits_alt_left d)
  · rw [beq_false_of_ne hk]
    exact (hfalse k' hk).fits (c.fits_alt_right d)

theorem require_here {k : Kind} {live : Bool} {f : Unit → Routine β} (h : Progress n (.here k live) rank c eats (f ())) :
    Progress n (.here k live) rank c.look eats (require k >>= f) := by
  intro hc s hs hκ hp hn
  refine Safe.bind (Safe.act (State.perform_peek (Nat.le_trans (Nat.le_add_left 1 c.total) hp)) ?_)
  rw [hκ.1.looked.1, if_pos rfl]
  exact h.looked hc hs (State.holds_looked hκ) hp hn

theorem require_ahead {k : Kind} {f : Unit → Routine β} (h : Progress n (.here k false) rank c eats (f ())) :
    Progress n (.ahead k) rank c.look eats (require k >>= f) := by
  intro hc s hs hκ hp hn
  refine Safe.bind (Safe.act (State.perform_peek (Nat.le_trans (Nat.le_add_left 1 c.total) hp)) ?_)
  have hk : s.looked.nextKind = k := hκ
  rw [hk, if_pos rfl]
  exact h.looked hc hs ⟨⟨s.ready_skip, hk⟩, nofun⟩ hp hn

/-- If the parser need not stop at a token that is known, that is known too. -/
theorem stopped_here {k : Kind} {live : Bool} {f : Bool → Routine β} (htrue : Progress n (.here k live) rank c eats (f true))
    (hfalse : Progress n (.here k true) rank d eats (f false)) :
    Progress n (.here k live) rank (c.alt d) eats (stopped >>= f) := by
  intro hc s hs hκ hp hn
  refine Safe.act rfl ?_
  cases hb : s.unread.isEmpty || s.exhausted with
  | true => exact htrue.fits (c.fits_alt_left d) hc s hs hκ hp hn
  | false =>
    refine hfalse.fits (c.fits_alt_right d) hc s hs ⟨hκ.1, fun _ hstop => ?_⟩ hp hn
    rcases hstop with hnil | hex
    · simp [hnil] at hb
    · simp [hex] at hb

/-- Where the parser need not stop it goes on. -/
theorem stopped_live {k : Kind} {f : Bool → Routine β} (h : Progress n (.here k true) rank c eats (f false)) :
    Progress n (.here k true) rank c eats (stopped >>= f) := by
  intro hc s hs hκ hp hn
  refine Safe.act rfl ?_
  have hb : (s.unread.isEmpty || s.exhausted) = false := by
    simpa [State.Stopped] using hκ.2 rfl
  rw [hb]
  exact h hc s hs hκ hp hn

end Progress

/-! ## Consuming -/

section Consuming

variable {n rank : Nat} {κ : Sight} {c d : Cost} {eats : Nat} {s : State}

/-- A token is consumed where there is one, and the patience is renewed. -/
theorem safe_advance (hs : s.Sane) (hu : s.unread ≠ []) : Safe n advance s fun _ t => Moved .none 1 s t := by
  cases h : s.unread with
  | nil => exact absurd h hu
  | cons token rest =>
    unfold Safe
    rw [advance, Routine.run_single, State.perform_advance h]
    refine ⟨⟨Nat.le_refl _, fun ho => ?_⟩, ?_, .inr (Nat.le_refl _), fun _ => Nat.le_refl _⟩
    · refine (hs.overflow ho).mono ?_ fun he => ?_
      · rw [h]
        exact List.suffix_cons token rest
      · simp only [State.consumed, he, Bool.true_or]
    · rw [h]
      exact Nat.le_refl _

theorem Progress.advance {k : Kind} {live : Bool} (hk : k ≠ .error) : Progress n (.here k live) rank .none 1 advance := by
  intro _ s hs hκ _ _
  obtain ⟨token, rest, hu, _⟩ := hκ.1.exists_token hk
  exact safe_advance hs (by simp [hu])

/-- Where two tokens are known to come, two can be consumed. -/
theorem Progress.eat_pair {k : Kind} {f : Unit → Routine β} (hk : k ≠ .error) (hf : ∀ a, Progress n .blank (rank + 8) d 0 (f a)) :
    Progress n (.pair k) rank (Cost.none.eat d) 1 (Parser.advance >>= fun _ => Parser.advance >>= f) := by
  intro hc s hs hκ hp hn
  obtain ⟨token, rest, hu, _⟩ := hκ.1.exists_token hk
  refine Safe.bind ((safe_advance hs (by simp [hu])).and_run.imp fun _ t ⟨ht, hrun⟩ => ?_)
  rw [Parser.advance, Routine.run_single, State.perform_advance hu] at hrun
  cases hrun
  have hrest : rest ≠ [] := by
    rintro rfl
    have := hκ.2
    simp [hu] at this
  have hlength := ht.shorter
  refine (Progress.after_eating hf (safe_advance ht.sane hrest) hc (by omega)).imp fun _ u hu => ?_
  have := hu.fresh Nat.one_pos
  have := hu.shorter
  exact ⟨hu.sane, by omega, .inr (hu.fresh Nat.one_pos), hu.fresh⟩

/-- Reading newlines in another way for a while. -/
theorem Progress.separating {b : Bool} {x : Routine α} (h : Progress n .blank rank c eats x) :
    Progress n κ rank c eats (separating b x) := by
  intro hc s hs _ hp hn
  refine Safe.act rfl (Safe.bind ?_)
  have hs' : { s with separating := b }.Sane := ⟨hs.patient, hs.overflow⟩
  refine (h hc { s with separating := b } hs' trivial hp hn).imp fun a t ht => Safe.act rfl (Safe.done ?_)
  exact ⟨⟨ht.sane.patient, ht.sane.overflow⟩, ht.shorter, ht.patience, ht.fresh⟩

end Consuming

/-! ## Nesting -/

/-- What absorbing the rest of the input leaves behind. -/
structure Absorbed (s t : State) : Prop where
  stopped : t.Stopped
  suffix : t.unread <:+ s.unread
  patience : t.patience = s.patience ∨ t.patience = maxPatience
  eaten : ¬ s.Stopped → t.unread.length < s.unread.length ∧ t.patience = maxPatience

/-- Absorbing the rest of the input never breaks down, and ends where the parser has to stop. -/
theorem absorb_run (n : Nat) (s : State) (hn : 8 * s.unread.length + 1 ≤ n) :
    ∃ t, runRule n .absorb s = .ok ((), t) ∧ Absorbed s t := by
  induction n generalizing s with
  | zero => omega
  | succ n ih =>
    simp only [runRule, grammar, absorbBody, stopped, Routine.bind_eq, Routine.pure_eq, Routine.run_bind, Routine.run_single,
      Action.perform]
    cases hb : s.unread.isEmpty || s.exhausted with
    | true =>
      have hstop : s.Stopped := by simpa [State.Stopped] using hb
      exact ⟨s, rfl, hstop, List.suffix_refl _, .inl rfl, fun h => absurd hstop h⟩
    | false =>
      cases hu : s.unread with
      | nil => simp [hu] at hb
      | cons token rest =>
        have hlength : s.unread.length = rest.length + 1 := by rw [hu, List.length_cons]
        obtain ⟨t, hrun, ht⟩ := ih (s.consumed token rest) (by simp only [State.consumed]; omega)
        have hsuffix : t.unread <:+ rest := ht.suffix
        have hpatience : t.patience = maxPatience := ht.patience.elim id id
        refine ⟨t, ?_, ht.stopped, ?_, .inr hpatience, fun _ => ⟨?_, hpatience⟩⟩
        · simp only [Bool.false_eq_true, if_false, advance, Routine.run_bind, Routine.run_single, State.perform_advance hu,
            Routine.run_rule]
          exact hrun
        · rw [hu]
          exact hsuffix.trans (List.suffix_cons token rest)
        · have := hsuffix.length_le
          omega

theorem Absorbed.quiet {s t u : State} (h : Absorbed s t) (hq : Quiet t u) : Absorbed s u where
  stopped := h.stopped.mono hq.suffix (by simp [hq.exhausted])
  suffix := hq.suffix.trans h.suffix
  patience := by
    rw [hq.patience]
    exact h.patience
  eaten hs := by
    have := hq.length_le
    have := h.eaten hs
    rw [hq.patience]
    omega

/-- Past the limit, the rest of the input becomes one error. -/
theorem safe_overflow {n : Nat} {s : State} (hn : 8 * s.unread.length + 1 ≤ n) :
    Safe n (node .error (do rule .absorb; act .settle)) s fun _ t => Absorbed s t := by
  have hquiet {γ : Type} {action : Action γ} {t : State} (ha : action.isQuiet = true) (ht : Absorbed s t) :
      Safe n (act action) t fun _ u => Absorbed s u := by
    unfold Safe
    rw [Routine.run_single]
    exact (quiet_perform ha t).mono (fun _ h => .inl h) fun _ u hu => ht.quiet hu
  refine Safe.act (s.perform_openNode .error) ?_
  have hpushed := quiet_pushed s (some .error)
  have hunread := s.unread_pushed (some .error)
  obtain ⟨t, hrun, ht⟩ := absorb_run n (s.pushed (some .error)) (by rw [hunread]; exact hn)
  have hs : Absorbed s t := by
    refine ⟨ht.stopped, hunread ▸ ht.suffix, hpushed.patience ▸ ht.patience, fun h => ?_⟩
    rw [← hunread]
    exact ht.eaten (by simpa [State.Stopped, hunread, hpushed.exhausted] using h)
  refine Safe.bind (Safe.call hrun ((hquiet rfl hs).imp fun _ u hu => ?_))
  exact Safe.bind ((hquiet rfl hu).imp fun _ v hv => Safe.done hv)

/-- Building one level deeper renews the patience. Past the limit it consumes the rest of the input. -/
theorem Progress.nested {n rank : Nat} {κ : Sight} {c : Cost} (first : KindSet) {body : Routine Kind}
    (h : Progress n κ rank c (κ.begins first) body) (hc : c.fits ⟨maxPatience, maxPatience⟩ = true) (hr : 1 ≤ rank) :
    Progress n κ rank .none (κ.begins first) (nested body) := by
  intro _ s hs hκ _ hn
  rw [Cost.fits_iff] at hc
  refine Safe.bind ?_
  unfold Safe
  rw [Routine.run_single]
  simp only [Action.perform]
  split
  · -- the limit was hit before, so the parser has to stop
    rename_i ho
    have hstop := hs.overflow ho
    have hbegins : κ.begins first = 0 := by
      refine Nat.eq_zero_of_not_pos fun hpos => ?_
      obtain ⟨k, rfl, _⟩ := Sight.begins_pos hpos
      exact hκ.2 rfl hstop
    rw [hbegins]
    exact .refl hs
  · rename_i ho
    split
    · have hs' : { s with depth := s.depth + 1 }.refresh.Sane := ⟨Nat.le_refl _, hs.overflow⟩
      have hκ' : κ.Holds { s with depth := s.depth + 1 }.refresh := hκ.transfer (.inl rfl) rfl rfl
      refine Safe.bind ((h hc.2 _ hs' hκ' hc.1 hn).imp fun k t ht => Safe.act rfl (Safe.done ?_))
      exact ⟨⟨Nat.le_refl _, ht.sane.overflow⟩, ht.shorter, .inl hs.patient, fun _ => Nat.le_refl _⟩
    · have hskip := Quiet.skip s
      have hlength := hskip.length_le
      refine Safe.bind ((safe_overflow ?_).imp fun _ t ht => ?_)
      · simp only
        omega
      · have hpatience : s.patience ≤ t.patience ∧ t.patience ≤ maxPatience := by
          have hp := hskip.patience
          have := hs.patient
          have := ht.patience
          simp only at this
          omega
        have heaten (hpos : 0 < κ.begins first) : t.unread.length < s.unread.length ∧ t.patience = maxPatience := by
          obtain ⟨k, rfl, _⟩ := Sight.begins_pos hpos
          have hu := hκ.1.skip_unread
          have := ht.eaten (by simpa [State.Stopped, hu, hskip.exhausted] using hκ.2 rfl)
          simp only [hu] at this
          exact this
        have hle := ht.suffix.length_le
        simp only at hle
        have hone := κ.begins_le_one first
        refine ⟨⟨hpatience.2, fun _ => ht.stopped⟩, ?_, .inl hpatience.1, fun hpos => (heaten hpos).2 ▸ Nat.le_refl _⟩
        rcases Nat.eq_zero_or_pos (κ.begins first) with hzero | hpos
        · omega
        · have := heaten hpos
          omega

end Remap.Parser
