import Remap.Proofs.Parser.Builds.Grammar
import Remap.Proofs.Parser.Outlook
import Remap.Proofs.Tree.Tight

/-!
# Where nodes begin and end

Trivia is placed before a node if it was passed over when the node is opened, and inside the node if not. So a node begins tightly
if the next token was looked at before it is opened, and it ends tightly if the last thing that is placed in it is a token or a
node that ends so.

A stance says what is known of the next token and of the innermost frame. `Trims n e σ x Q` says of the silent runs of `x` that
start from a state for which `σ` stands: they leave the frames below alone, what they add is tight, and what is known in the end
satisfies `Q`. A frame that is eased, for which `e` is true, may begin with blanks.
-/

namespace Remap.Parser

variable {α β : Type}

open State (SameFrame)
open Tree (Neat Trim)

/-- What is known of the next token and of the innermost frame. -/
structure Stance where
  /-- The kind of the very next token, which is not passed over. -/
  next : Option Kind := none
  /-- That token touches the one before it. -/
  near : Bool := false
  /-- The kind of the token right after it. -/
  second : Option Kind := none
  /-- The frame holds something, or may begin with blanks. -/
  begun : Bool := false
  /-- The last tree in the frame closes tightly. -/
  shut : Bool := false
  /-- A `!` is in the frame. -/
  called : Bool := false
  /-- A delimiter is open. -/
  pending : Bool := false

namespace Stance

/-- What is known after the next token was found to be of a kind. -/
def facing (σ : Stance) (k : Kind) : Stance := { σ with next := some k, near := false, second := none }

/-- What is known after a token of a kind was consumed, if the one after it is of a known kind. -/
def taken (σ : Stance) (k : Kind) (next : Option Kind) : Stance :=
  { next, begun := true, shut := true, called := σ.called || k = .bang, pending := σ.pending }

/-- What is known in a node or at a mark that was just opened. -/
def inside (σ : Stance) (e : Bool) : Stance := { next := σ.next, near := σ.near, second := σ.second, begun := e, pending := σ.pending }

/-- What is known after a node was closed in which `τ` was known. -/
def around (σ τ : Stance) : Stance :=
  { next := τ.next, near := τ.near, second := τ.second, begun := true, shut := true, called := σ.called, pending := τ.pending }

/-- The next token is known, and it is no newline. -/
def Clear (σ : Stance) : Prop := ∃ k, σ.next = some k ∧ k ≠ .newline

/-- What is known after a rule that was entered where `σ` was known: about as much as is known of the frame. -/
def after (σ : Stance) (shut : Bool) : Stance := { begun := true, shut, pending := σ.pending }

/-- The frame holds something, and closes tightly. -/
structure Closed (σ : Stance) : Prop where
  begun : σ.begun = true
  shut : σ.shut = true

end Stance

namespace State

/-- What stands next is what a stance says. -/
structure Shows (σ : Stance) (k : Kind) (s : State) : Prop where
  ready : s.Ready
  kind : s.nextKind = k
  near : σ.near = true → s.unread.head?.any (·.immediate) = true
  second : ∀ j, σ.second = some j → Next j s.unread.tail

/-- What a stance says of a state is so, and what the innermost frame holds is neat: it begins tightly unless it is eased, and if
it is empty, then nothing is to be placed in it before the next token. -/
structure Stands (e : Bool) (σ : Stance) (s : State) : Prop where
  whole : Whole s.unread
  neat : Neat s.top.built
  opens : e = true ∨ (∃ c ∈ s.top.built.getLast?, c.Opens) ∨ (s.top.built = [] ∧ s.held = [] ∧ s.Ready)
  next : ∀ k, σ.next = some k → s.Shows σ k
  begun : σ.begun = true → e = true ∨ s.top.built ≠ []
  shut : σ.shut = true → ∃ c ∈ s.top.built.head?, c.Closes
  called : σ.called = true → ∃ x, .leaf .bang x ∈ s.top.built
  pending : σ.pending = true → s.delimiters ≠ []

theorem ready_of_next {s : State} {k : Kind} (hk : Solid k) (h : Next k s.unread) : s.Ready := by
  intro t rest hunread
  rw [hunread] at h
  have hkind : t.kind = k := h
  simp [skips, hkind, hk.1, hk.2]

theorem ready_congr {s t : State} (hunread : t.unread = s.unread) (hseparating : t.separating = s.separating) (h : s.Ready) :
    t.Ready := by
  unfold Ready
  rw [hunread, skips_congr hseparating]
  exact h

namespace Stands

variable {e : Bool} {σ : Stance} {s t : State}

/-- A change to none of the tokens, of what is held back and of the innermost frame. -/
theorem congr (h : Stands e σ s) (hunread : t.unread = s.unread) (hheld : t.held = s.held) (htop : t.top.built = s.top.built)
    (hseparating : t.separating = s.separating) (hdelimiters : σ.pending = true → t.delimiters ≠ []) : Stands e σ t := by
  refine ⟨hunread ▸ h.whole, htop ▸ h.neat, ?_, fun k hk => ?_, htop ▸ h.begun, htop ▸ h.shut, htop ▸ h.called, hdelimiters⟩
  · rw [htop, hheld]
    exact h.opens.imp id (.imp id fun ⟨hbuilt, hnil, hready⟩ => ⟨hbuilt, hnil, ready_congr hunread hseparating hready⟩)
  · obtain ⟨hready, hkind, hnear, hsecond⟩ := h.next k hk
    exact ⟨ready_congr hunread hseparating hready, (nextKind_congr hunread).trans hkind, hunread ▸ hnear, hunread ▸ hsecond⟩

/-- Less may be known. -/
theorem weaken {τ : Stance} (h : Stands e σ s) (hnext : ∀ k, τ.next = some k → s.Shows τ k) (hbegun : τ.begun = true → σ.begun = true)
    (hshut : τ.shut = true → σ.shut = true) (hcalled : τ.called = true → σ.called = true)
    (hpending : τ.pending = true → σ.pending = true) : Stands e τ s :=
  ⟨h.whole, h.neat, h.opens, hnext, fun hτ => h.begun (hbegun hτ), fun hτ => h.shut (hshut hτ), fun hτ => h.called (hcalled hτ),
    fun hτ => h.pending (hpending hτ)⟩

/-- Nothing may be known of the next token. -/
theorem forget (h : Stands e σ s) : Stands e { σ with next := none } s := h.weaken nofun id id id id

/-- Passing over trivia changes nothing that is known. -/
theorem skip (h : Stands e σ s) : Stands e σ s.skip := by
  by_cases hready : s.Ready
  · rw [skip_of_ready hready]
    exact h
  · rw [skip_eq]
    refine ⟨h.whole.of_suffix (List.dropWhile_suffix _), h.neat, ?_, fun k hk => absurd (h.next k hk).ready hready, h.begun, h.shut,
      h.called, h.pending⟩
    exact h.opens.imp id (.imp id fun hempty => absurd hempty.2.2 hready)

/-- After a look the kind of the next token is known. -/
theorem look (h : Stands e σ s) : Stands e (σ.facing s.skip.nextKind) s.skip :=
  h.skip.weaken (fun _ hk => ⟨s.ready_skip, Option.some.inj hk, nofun, nofun⟩) id id id id

/-- What is held back is placed in the innermost frame, which is not empty then. -/
theorem drain (h : Stands e σ s) : Stands e { σ with shut := false } s.drain := by
  rw [drain_eq]
  refine ⟨h.whole, (Neat.of_tokens _).append h.neat, ?_, fun k hk => ?_, fun hσ => ?_, nofun, fun hσ => ?_, h.pending⟩
  · refine h.opens.imp id (.imp ?_ ?_)
    · rintro ⟨c, hc, hopens⟩
      refine ⟨c, ?_, hopens⟩
      rw [List.getLast?_append]
      exact Option.mem_def.mpr (by rw [Option.mem_def.mp hc, Option.some_or])
    · rintro ⟨hbuilt, hheld, hready⟩
      exact ⟨by rw [hbuilt, hheld]; rfl, rfl, hready⟩
  · obtain ⟨hready, hkind, hnear, hsecond⟩ := h.next k hk
    exact ⟨hready, hkind, hnear, hsecond⟩
  · exact (h.begun hσ).imp id fun hbuilt hnil => hbuilt (List.append_eq_nil_iff.mp hnil).2
  · obtain ⟨x, hx⟩ := h.called hσ
    exact ⟨x, List.mem_append_right _ hx⟩

/-- A token is placed: one that is neither trivia nor a newline, or any at all in a frame that has begun. -/
theorem consumed (h : Stands e σ s) {token : Token} {rest : List Token} (hunread : s.unread = token :: rest)
    (hk : Solid token.kind ∨ σ.begun = true) :
    Stands e { begun := true, called := σ.called, pending := σ.pending } (s.consumed token rest) := by
  refine ⟨h.whole.of_suffix (hunread ▸ List.suffix_cons _ _), ?_, ?_, nofun, fun _ => .inr (List.cons_ne_nil _ _), nofun, fun hσ => ?_, h.pending⟩
  · exact (Neat.of_tokens [token]).append ((Neat.of_tokens s.held).append h.neat)
  · have hlast {c : Tree} (hc : c ∈ s.top.built.getLast?) : c ∈ (s.consumed token rest).top.built.getLast? := by
      change c ∈ (([token.leaf] ++ (s.held.map Token.leaf).reverse) ++ s.top.built).getLast?
      rw [List.getLast?_append]
      exact Option.mem_def.mpr (by rw [Option.mem_def.mp hc, Option.some_or])
    rcases h.opens with he | ⟨c, hc, hopens⟩ | ⟨hbuilt, hheld, -⟩
    · exact .inl he
    · exact .inr (.inl ⟨c, hlast hc, hopens⟩)
    · rcases hk with hk | hσ
      · refine .inr (.inl ⟨token.leaf, ?_, ⟨_, rfl, hk⟩⟩)
        change token.leaf ∈ (token.leaf :: ((s.held.map Token.leaf).reverse ++ s.top.built)).getLast?
        rw [hbuilt, hheld]
        rfl
      · exact (h.begun hσ).elim .inl fun hne => absurd hbuilt hne
  · obtain ⟨x, hx⟩ := h.called hσ
    exact ⟨x, List.mem_cons_of_mem _ (List.mem_append_right _ hx)⟩

/-- A token that is neither trivia nor a newline is placed, and the one after it may be known. -/
theorem taken (h : Stands e σ s) (next : Option Kind) {token : Token} {rest : List Token} (hunread : s.unread = token :: rest)
    (hk : Solid token.kind) (hnext : ∀ j, next = some j → Solid j ∧ Next j rest) :
    Stands e (σ.taken token.kind next) (s.consumed token rest) := by
  have hconsumed := h.consumed hunread (.inl hk)
  refine ⟨hconsumed.whole, hconsumed.neat, hconsumed.opens, fun j hj => ?_, hconsumed.begun, fun _ => ⟨token.leaf, rfl, ⟨_, rfl, hk⟩⟩,
    fun hσ => ?_, hconsumed.pending⟩
  · obtain ⟨hsolid, hrest⟩ := hnext j hj
    exact ⟨ready_of_next hsolid hrest, nextKind_of_next hrest, nofun, nofun⟩
  · rcases Bool.or_eq_true_iff.mp hσ with hσ | hσ
    · exact hconsumed.called hσ
    · refine ⟨token.text, ?_⟩
      have hkind : token.kind = .bang := of_decide_eq_true hσ
      rw [← hkind]
      exact List.mem_cons_self

end Stands

end State

/-! ## The judgement -/

/-- The silent runs of a routine that start where `σ` stands end where something stands that satisfies `Q`. -/
def Trims (n : Nat) (e : Bool) (σ : Stance) (x : Routine α) (Q : α → Stance → Prop) : Prop :=
  ∀ s : State, s.Stands e σ → Accepts n x s fun a t => SameFrame s t ∧ ∃ τ, Q a τ ∧ t.Stands e τ

namespace Trims

variable {n : Nat} {e : Bool} {σ : Stance} {Q Q' : α → Stance → Prop}

theorem imp {x : Routine α} (h : Trims n e σ x Q) (hQ : ∀ a τ, Q a τ → Q' a τ) : Trims n e σ x Q' :=
  fun s hs => (h s hs).imp fun a _ ⟨hframe, τ, hτ, ht⟩ => ⟨hframe, τ, hQ a τ hτ, ht⟩

theorem done {a : α} (h : Q a σ) : Trims n e σ (pure a) Q := fun s hs => .done ⟨.refl s, σ, h, hs⟩

theorem fail (f : Fault) : Trims n e σ (.fail f) Q := fun _ _ => .fail f

/-- One routine after another. -/
theorem bind {P : β → Stance → Prop} {x : Routine β} {f : β → Routine α} (hx : Trims n e σ x P)
    (hf : ∀ b τ, P b τ → Trims n e τ (f b) Q) : Trims n e σ (x >>= f) Q := by
  refine fun s hs => .bind ((hx s hs).imp fun b t ⟨hframe, τ, hτ, ht⟩ => ?_)
  exact (hf b τ hτ t ht).imp fun _ _ hu => ⟨hframe.trans hu.1, hu.2⟩

theorem ite {c : Prop} [Decidable c] {x y : Routine α} (hx : c → Trims n e σ x Q) (hy : ¬ c → Trims n e σ y Q) :
    Trims n e σ (if c then x else y) Q := by
  split
  · exact hx ‹_›
  · exact hy ‹_›

/-- What stands after an action stands before the rest. -/
theorem act {action : Action β} {f : β → Routine α}
    (h : ∀ s b t, s.Steady → s.Stands e σ → action.perform s = .ok (b, t) → t.Silent →
      SameFrame s t ∧ ∃ τ, t.Stands e τ ∧ Trims n e τ (f b) Q) : Trims n e σ (Parser.act action >>= f) Q := by
  refine fun s hs => .act fun hsteady b t hperform hsilent => ?_
  obtain ⟨hframe, τ, ht, hf⟩ := h s b t hsteady hs hperform hsilent
  exact (hf t ht).imp fun _ _ hu => ⟨hframe.trans hu.1, hu.2⟩

/-- No silent run comes to a report. -/
theorem report {p : Problem} {d : Option Detail} {f : Unit → Routine α} : Trims n e σ (Parser.report p d >>= f) Q :=
  fun _ _ => .report p d _

theorem reportTarget {flaw : TargetFlaw} {f : Unit → Routine α} : Trims n e σ (Parser.act (.reportTarget flaw) >>= f) Q :=
  fun _ _ => .reportTarget flaw _

/-- Nothing comes after what never returns silently. -/
theorem never {x : Routine β} {f : β → Routine α} (h : Trims n e σ x fun _ _ => False) : Trims n e σ (x >>= f) Q :=
  h.bind fun _ _ hfalse => hfalse.elim

/-! ## Looking -/

/-- The next token is looked at. -/
theorem peek {f : Kind → Routine α} (h : ∀ k, Trims n e (σ.facing k) (f k) Q) : Trims n e σ (Parser.peek >>= f) Q := by
  refine .act fun s k t _ hs hperform _ => ?_
  simp only [Action.perform, look] at hperform
  split at hperform <;> cases hperform
  exact ⟨(s.still_looked _).frame, _, hs.look.congr rfl rfl rfl rfl hs.look.pending, h _⟩

/-- The next token is known. -/
theorem peek_next {k : Kind} {f : Kind → Routine α} (hk : σ.next = some k) (h : Trims n e σ (f k) Q) :
    Trims n e σ (Parser.peek >>= f) Q := by
  refine .act fun s k' t _ hs hperform _ => ?_
  have hfaces := hs.next k hk
  simp only [Action.perform, look, State.skip_of_ready hfaces.ready] at hperform
  split at hperform <;> cases hperform
  rw [hfaces.kind]
  exact ⟨⟨rfl, rfl⟩, σ, hs.congr rfl rfl rfl rfl hs.pending, h⟩

theorem peekIs {k : Kind} {f : Bool → Routine α} (htrue : Trims n e (σ.facing k) (f true) Q)
    (hfalse : ∀ k', k' ≠ k → Trims n e (σ.facing k') (f false) Q) : Trims n e σ (Parser.peekIs k >>= f) Q := by
  refine .peek (f := fun k' => f (k' == k)) fun k' => ?_
  by_cases hk : k' = k
  · subst hk
    rw [beq_self_eq_true]
    exact htrue
  · rw [beq_false_of_ne hk]
    exact hfalse k' hk

theorem peekIs_next {k j : Kind} {f : Bool → Routine α} (hk : σ.next = some j) (h : Trims n e σ (f (j == k)) Q) :
    Trims n e σ (Parser.peekIs k >>= f) Q :=
  .peek_next (f := fun k' => f (k' == k)) hk h

/-- The very next token is looked at, trivia or not. -/
theorem peekRaw {f : Kind → Routine α} (hsolid : ∀ k, Solid k → Trims n e (σ.facing k) (f k) Q)
    (hblank : ∀ k, ¬ Solid k → Trims n e { σ with next := none } (f k) Q) : Trims n e σ (Parser.peekRaw >>= f) Q := by
  refine .act fun s k t _ hs hperform _ => ?_
  simp only [Action.perform, look] at hperform
  split at hperform <;> cases hperform
  refine ⟨⟨rfl, rfl⟩, ?_⟩
  by_cases hk : Solid s.nextKind
  · have hready := State.ready_of_next hk s.next_nextKind
    have hlook := hs.look
    rw [State.skip_of_ready hready] at hlook
    exact ⟨_, hlook.congr rfl rfl rfl rfl hlook.pending, hsolid _ hk⟩
  · exact ⟨_, hs.forget.congr rfl rfl rfl rfl hs.pending, hblank _ hk⟩

theorem peekRaw_next {k : Kind} {f : Kind → Routine α} (hk : σ.next = some k) (h : Trims n e σ (f k) Q) :
    Trims n e σ (Parser.peekRaw >>= f) Q := by
  refine .act fun s k' t _ hs hperform _ => ?_
  simp only [Action.perform, look, (hs.next k hk).kind] at hperform
  split at hperform <;> cases hperform
  exact ⟨⟨rfl, rfl⟩, σ, hs.congr rfl rfl rfl rfl hs.pending, h⟩

/-- Breaking down unless a token of a kind comes next. -/
theorem require {k : Kind} {f : Unit → Routine α} (h : Trims n e (σ.facing k) (f ()) Q) : Trims n e σ (Parser.require k >>= f) Q := by
  rw [require_bind]
  exact .peek fun k' => .ite (fun hk => hk ▸ h) fun _ => .fail _

/-- A required token that is known. -/
theorem require_next {k : Kind} {f : Unit → Routine α} (hk : σ.next = some k) (h : Trims n e σ (f ()) Q) :
    Trims n e σ (Parser.require k >>= f) Q := by
  rw [require_bind]
  refine .peek_next hk ?_
  rw [if_pos rfl]
  exact h

/-- Whether the next token touches the one before it is known from then on. -/
theorem touches {k : Kind} {f : Bool → Routine α} (hk : σ.next = some k) (htrue : Trims n e { σ with near := true } (f true) Q)
    (hfalse : Trims n e σ (f false) Q) : Trims n e σ (Parser.touches >>= f) Q := by
  refine .act fun s b t _ hs hperform _ => ?_
  have hfaces := hs.next k hk
  simp only [Action.perform, State.skip_of_ready hfaces.ready, Except.ok.injEq, Prod.mk.injEq] at hperform
  obtain ⟨hb, rfl⟩ := hperform
  refine ⟨.refl s, ?_⟩
  cases b with
  | false => exact ⟨σ, hs, hfalse⟩
  | true =>
    refine ⟨{ σ with near := true }, hs.weaken (fun j hj => ?_) id id id id, htrue⟩
    obtain ⟨hready, hkind, -, hsecond⟩ := hs.next j hj
    exact ⟨hready, hkind, fun _ => hb, hsecond⟩

/-- The next token is known to touch the one before it. -/
theorem touches_near {k : Kind} {f : Bool → Routine α} (hk : σ.next = some k) (hnear : σ.near = true) (h : Trims n e σ (f true) Q) :
    Trims n e σ (Parser.touches >>= f) Q := by
  refine .act fun s b t _ hs hperform _ => ?_
  have hfaces := hs.next k hk
  simp only [Action.perform, State.skip_of_ready hfaces.ready, Except.ok.injEq, Prod.mk.injEq] at hperform
  obtain ⟨hb, rfl⟩ := hperform
  rw [hfaces.near hnear] at hb
  exact ⟨.refl s, σ, hs, hb ▸ h⟩

/-- The answer to a question about the tokens ahead. -/
theorem ahead {q : Lookahead} {f : Bool → Routine α} (h : ∀ b, Trims n e σ (f b) Q) : Trims n e σ (Parser.ahead q >>= f) Q := by
  refine .act fun s b t _ hs hperform _ => ?_
  cases hperform
  exact ⟨.refl s, σ, hs, h _⟩

/-- The number that a sign touches comes right after it. -/
theorem signs {number : Kind} {f : Bool → Routine α} (htrue : Trims n e { σ with second := some number } (f true) Q)
    (hfalse : Trims n e σ (f false) Q) : Trims n e σ (Parser.ahead (.signs number) >>= f) Q := by
  refine .act fun s b t _ hs hperform _ => ?_
  simp only [Action.perform, Except.ok.injEq, Prod.mk.injEq] at hperform
  obtain ⟨hb, rfl⟩ := hperform
  refine ⟨.refl s, ?_⟩
  cases b with
  | false => exact ⟨σ, hs, hfalse⟩
  | true =>
    refine ⟨{ σ with second := some number }, hs.weaken (fun k hk => ?_) id id id id, htrue⟩
    obtain ⟨hready, hkind, hnear, -⟩ := hs.next k hk
    refine ⟨hready, hkind, hnear, fun j hj => ?_⟩
    cases hj
    cases hunread : s.unread with
    | nil =>
      rw [hunread] at hb
      cases hb
    | cons token rest =>
      rw [hunread] at hb
      exact next_of_signs hb

theorem stopped {f : Bool → Routine α} (h : ∀ b, Trims n e σ (f b) Q) : Trims n e σ (Parser.stopped >>= f) Q := by
  refine .act fun s b t _ hs hperform _ => ?_
  cases hperform
  exact ⟨.refl s, σ, hs, h _⟩

/-- The parameters of a closure are checked. -/
theorem checkParameters {f : Unit → Routine α} (h : Trims n e σ (f ()) Q) : Trims n e σ (Parser.act .checkParameters >>= f) Q := by
  refine .act fun s b t _ hs hperform _ => ?_
  cases hperform
  rw [State.reportParameters_eq]
  obtain ⟨reports, lastReport, hfold⟩ := State.foldl_report s.parameterProblems s
  rw [hfold]
  exact ⟨⟨rfl, rfl⟩, σ, hs.congr rfl rfl rfl rfl hs.pending, h⟩

/-- A delimiter that comes next is open from then on. -/
theorem pushDelimiter {k j : Kind} {f : Unit → Routine α} (hj : σ.next = some j) (h : Trims n e { σ with pending := true } (f ()) Q) :
    Trims n e σ (Parser.act (.pushDelimiter k) >>= f) Q := by
  refine .act fun s b t _ hs hperform _ => ?_
  simp only [Action.perform, State.skip_of_ready (hs.next j hj).ready, Except.ok.injEq, Prod.mk.injEq, true_and] at hperform
  subst hperform
  refine ⟨⟨rfl, rfl⟩, { σ with pending := true }, ?_, h⟩
  exact ⟨hs.whole, hs.neat, hs.opens, fun k hk => ⟨(hs.next k hk).ready, (hs.next k hk).kind, (hs.next k hk).near, (hs.next k hk).second⟩,
    hs.begun, hs.shut, hs.called, fun _ => List.cons_ne_nil _ _⟩

/-! ## Consuming -/

/-- A known token that is no newline is consumed, and the one after it may be known. -/
theorem advance_to {k : Kind} (next : Option Kind) {f : Unit → Routine α} (hk : σ.next = some k) (hne : k ≠ .newline)
    (hnext : ∀ j, next = some j → Solid j ∧ σ.second = some j) (h : Trims n e (σ.taken k next) (f ()) Q) :
    Trims n e σ (Parser.advance >>= f) Q := by
  refine .act fun s b t _ hs hperform _ => ?_
  have hfaces := hs.next k hk
  obtain ⟨token, rest, hunread, rfl⟩ := State.of_perform_advance hperform
  have hkind : token.kind = k := by simpa [State.nextKind, hunread] using hfaces.kind
  have htrivia := hfaces.ready token rest hunread
  simp only [State.skips, Bool.or_eq_false_iff] at htrivia
  refine ⟨⟨rfl, rfl⟩, _, hs.taken next hunread ⟨htrivia.1, hkind ▸ hne⟩ fun j hj => ?_, hkind ▸ h⟩
  obtain ⟨hj, hsecond⟩ := hnext j hj
  have hrest := hfaces.second j hsecond
  rw [hunread] at hrest
  exact ⟨hj, hrest⟩

theorem advance {k : Kind} {f : Unit → Routine α} (hk : σ.next = some k) (hne : k ≠ .newline) (h : Trims n e (σ.taken k none) (f ()) Q) :
    Trims n e σ (Parser.advance >>= f) Q :=
  advance_to none hk hne nofun h

/-- Any token at all is consumed where the frame has begun. -/
theorem advance_begun {f : Unit → Routine α} (hσ : σ.begun = true)
    (h : Trims n e { begun := true, called := σ.called, pending := σ.pending } (f ()) Q) : Trims n e σ (Parser.advance >>= f) Q := by
  refine .act fun s b t _ hs hperform _ => ?_
  obtain ⟨token, rest, hunread, rfl⟩ := State.of_perform_advance hperform
  exact ⟨⟨rfl, rfl⟩, _, hs.consumed hunread (.inr hσ), h⟩

/-- A token is consumed if it is there. -/
theorem eat {k : Kind} {f : Bool → Routine α} (hk : k ≠ .newline) (htrue : Trims n e (σ.taken k none) (f true) Q)
    (hfalse : ∀ k', k' ≠ k → Trims n e (σ.facing k') (f false) Q) : Trims n e σ (Parser.eat k >>= f) Q := by
  rw [eat_bind]
  refine .peek fun k' => .ite (fun hk' => ?_) fun hk' => hfalse k' fun h => hk' (beq_iff_eq.mpr h)
  rw [eq_of_beq hk']
  exact .advance rfl hk htrue

/-! ## Nodes and marks -/

/-- What stands in a node or at a mark that was just opened. -/
theorem pushed {s : State} {e' : Bool} (hs : s.Stands e σ) (he : e' = true ∨ σ.next ≠ none) (label : Option Kind) :
    (s.pushed label).Stands e' (σ.inside e') := by
  have hseparating : (s.pushed label).separating = s.separating := by simp only [State.pushed, State.drain_eq]
  have hheld : (s.pushed label).held = [] := by simp only [State.pushed, State.drain_eq]
  have hdelimiters : (s.pushed label).delimiters = s.delimiters := by simp only [State.pushed, State.drain_eq]
  have hunread := s.unread_pushed label
  refine ⟨hunread ▸ hs.whole, .nil, ?_, fun k hk => ?_, .inl, (fun h => by cases h), (fun h => by cases h), hdelimiters ▸ hs.pending⟩
  · refine he.imp id fun hnext => .inr ⟨rfl, hheld, ?_⟩
    obtain ⟨k, hk⟩ := Option.ne_none_iff_exists'.mp hnext
    exact State.ready_congr hunread hseparating (hs.next k hk).ready
  · obtain ⟨hready, hkind, hnear, hsecond⟩ := hs.next k hk
    exact ⟨State.ready_congr hunread hseparating hready, (State.nextKind_congr hunread).trans hkind, hunread ▸ hnear, hunread ▸ hsecond⟩

/-- What stands after a node or a mark was closed, in which the last thing closes tightly: the frame around it holds what it held
and what it was given. -/
theorem closed {s t u : State} {e' : Bool} {τ : Stance} (given : List Tree) (hs : s.Stands e σ) (ht : t.Stands e' τ)
    (hneat : Neat (given ++ s.drain.top.built)) (hclose : ∃ c ∈ given.head?, c.Closes)
    (hopen : e' = true ∧ σ.begun = true ∨ ∃ c ∈ given.getLast?, c.Opens)
    (hu : u = { t with top := { s.drain.top with built := given ++ s.drain.top.built }, below := s.drain.below }) :
    u.Stands e (σ.around τ) := by
  subst hu
  have hdrain := hs.drain
  obtain ⟨c, hc, hcloses⟩ := hclose
  have hne : given ++ s.drain.top.built ≠ [] := by
    intro hnil
    rw [(List.append_eq_nil_iff.mp hnil).1] at hc
    cases hc
  refine ⟨ht.whole, hneat, ?_, fun k hk => ?_, fun _ => .inr hne, fun _ => ⟨c, ?_, hcloses⟩, fun hσ => ?_, ht.pending⟩
  · have hlast {d : Tree} (hd : d ∈ s.drain.top.built.getLast?) : d ∈ (given ++ s.drain.top.built).getLast? := by
      rw [List.getLast?_append]
      exact Option.mem_def.mpr (by rw [Option.mem_def.mp hd, Option.some_or])
    rcases hdrain.opens with he | ⟨d, hd, hopens⟩ | ⟨hbuilt, -, -⟩
    · exact .inl he
    · exact .inr (.inl ⟨d, hlast hd, hopens⟩)
    · rcases hopen with ⟨-, hσ⟩ | ⟨d, hd, hopens⟩
      · exact (hdrain.begun hσ).elim .inl fun hne => absurd hbuilt hne
      · refine .inr (.inl ⟨d, ?_, hopens⟩)
        rw [hbuilt, List.append_nil]
        exact hd
  · obtain ⟨hready, hkind, hnear, hsecond⟩ := ht.next k hk
    exact ⟨hready, hkind, hnear, hsecond⟩
  · rw [List.head?_append]
    exact Option.mem_def.mpr (by rw [Option.mem_def.mp hc, Option.some_or])
  · obtain ⟨x, hx⟩ := hdrain.called hσ
    exact ⟨x, List.mem_append_right _ hx⟩

/-- The first tree of a frame that closes tightly opens tightly, unless the frame is eased. -/
theorem opens_of_shut {s : State} (hs : s.Stands e σ) (hshut : σ.shut = true) :
    e = true ∨ ∃ c ∈ s.top.built.getLast?, c.Opens := by
  rcases hs.opens with he | hopens | ⟨hbuilt, -, -⟩
  · exact .inl he
  · exact .inr hopens
  · obtain ⟨c, hc, -⟩ := hs.shut hshut
    rw [hbuilt] at hc
    cases hc

/-- A node is opened where the next token is known, or it is one of those that may begin with blanks. -/
theorem node {k : Kind} {body : Routine α} {e' : Bool}
    (he : e' = false ∧ σ.next ≠ none ∨ e' = true ∧ σ.begun = true ∧ (k = .closureParams ∨ (k = .argumentList ∧ σ.called = true)))
    (h : Trims n e' (σ.inside e') body fun a τ => τ.shut = true ∧ Q a (σ.around τ)) : Trims n e σ (Parser.node k body) Q := by
  refine fun s hs => .bind (.single fun hsteady _ s₁ hopen _ => ?_)
  cases hopen
  refine .bind ((h _ (pushed hs (he.elim (fun h => .inr h.2) fun h => .inl h.1) _)).imp fun a t hbody => ?_)
  obtain ⟨hframe, τ, ⟨hshut, hQ⟩, ht⟩ := hbody
  refine .bind (.single fun _ _ u hclose _ => .done ?_)
  have hlabel : t.top.label = some k := hframe.label
  have hbelow : t.below = s.drain.top :: s.drain.below := hframe.below
  simp only [Action.perform, hlabel, hbelow, Except.ok.injEq, Prod.mk.injEq, true_and] at hclose
  have hframe' := hsteady.still_drain.frame
  obtain ⟨c, hc, hcloses⟩ := ht.shut hshut
  have hopens : e' = true ∨ (Tree.node k t.top.built.reverse).Opens := by
    refine (opens_of_shut ht hshut).imp id fun hfirst => ?_
    obtain ⟨d, hd, hopens⟩ := hfirst
    exact hopens.of_getLast? hd k
  refine ⟨?_, _, hQ, closed [.node k t.top.built.reverse] hs ht ?_ ⟨_, rfl, hcloses.of_head? hc k⟩ ?_ hclose.symm⟩
  · subst hclose
    exact ⟨hframe'.label, hframe'.below⟩
  · refine hs.drain.neat.cons (ht.neat.reverse.node k) ⟨hcloses.of_head? hc k, ?_⟩
    rcases he with ⟨rfl, -⟩ | ⟨-, -, hk | ⟨hk, hσ⟩⟩
    · exact .inr (hopens.resolve_left Bool.false_ne_true)
    · exact .inl (.inl hk)
    · obtain ⟨x, hx⟩ := hs.drain.called hσ
      exact .inl (.inr ⟨hk, x, List.mem_cons_of_mem _ hx⟩)
  · rcases he with ⟨rfl, -⟩ | ⟨he, hσ, -⟩
    · exact .inr ⟨_, rfl, hopens.resolve_left Bool.false_ne_true⟩
    · exact .inl ⟨he, hσ⟩

/-- A node that is opened where the next token is known, and that ends with what closes tightly. -/
theorem shaped {k j : Kind} {body : Routine α} (hj : σ.next = some j)
    (h : Trims n false (σ.inside false) body fun _ τ => τ.Closed) : Trims n e σ (Parser.node k body) fun _ τ => τ.Closed :=
  .node (.inl ⟨rfl, by rw [hj]; nofun⟩) (h.imp fun _ _ hτ => ⟨hτ.shut, rfl, rfl⟩)

/-- What is built at a mark is added to the frame around it. -/
theorem marked {j : Kind} {body : Routine α} (hj : σ.next = some j)
    (h : Trims n false (σ.inside false) body fun a τ => τ.shut = true ∧ Q a (σ.around τ)) : Trims n e σ (Parser.marked body) Q := by
  refine fun s hs => .bind (.single fun hsteady _ s₁ hmark _ => ?_)
  cases hmark
  refine .bind ((h _ (pushed hs (.inr (by rw [hj]; exact Option.some_ne_none j)) _)).imp fun a t hbody => ?_)
  obtain ⟨hframe, τ, ⟨hshut, hQ⟩, ht⟩ := hbody
  refine .bind (.single fun _ _ u hunmark _ => .done ?_)
  have hlabel : t.top.label = none := hframe.label
  have hbelow : t.below = s.drain.top :: s.drain.below := hframe.below
  simp only [Action.perform, hlabel, hbelow, Except.ok.injEq, Prod.mk.injEq, true_and] at hunmark
  have hframe' := hsteady.still_drain.frame
  have hopens := (opens_of_shut ht hshut).resolve_left Bool.false_ne_true
  refine ⟨?_, _, hQ, closed t.top.built hs ht (ht.neat.append hs.drain.neat) (ht.shut hshut) (.inr hopens) hunmark.symm⟩
  subst hunmark
  exact ⟨hframe'.label, hframe'.below⟩

/-- A node that begins at the innermost mark takes up what was built there. -/
theorem wrapped {k : Kind} {body : Routine α}
    (h : Trims n false σ body fun a τ => τ.shut = true ∧ Q a (Stance.around {} τ)) : Trims n false σ (Parser.wrapped k body) Q := by
  refine fun s hs => .bind (.single fun _ _ s₁ hwrap _ => ?_)
  cases hmark : s.top.label with
  | some label => simp [Action.perform, hmark] at hwrap
  | none =>
    simp only [Action.perform, hmark, Except.ok.injEq, Prod.mk.injEq, true_and] at hwrap
    subst hwrap
    have hinner : State.Stands false σ
        { s with top := { s.top with label := some k }, below := ⟨none, s.top.start, []⟩ :: s.below } :=
      hs.congr rfl rfl rfl rfl hs.pending
    refine .bind ((h _ hinner).imp fun a t hbody => ?_)
    obtain ⟨hframe, τ, ⟨hshut, hQ⟩, ht⟩ := hbody
    refine .bind (.single fun _ _ u hclose _ => .done ?_)
    have hlabel : t.top.label = some k := hframe.label
    have hbelow : t.below = ⟨none, s.top.start, []⟩ :: s.below := hframe.below
    simp only [Action.perform, hlabel, hbelow, Except.ok.injEq, Prod.mk.injEq, true_and] at hclose
    subst hclose
    obtain ⟨c, hc, hcloses⟩ := ht.shut hshut
    obtain ⟨d, hd, hopens⟩ := (opens_of_shut ht hshut).resolve_left Bool.false_ne_true
    refine ⟨⟨hmark.symm, rfl⟩, _, hQ, ht.whole, ?_, .inr (.inl ⟨_, rfl, hopens.of_getLast? hd k⟩), fun j hj => ?_,
      fun _ => .inr (List.cons_ne_nil _ _), fun _ => ⟨_, rfl, hcloses.of_head? hc k⟩, (fun hcalled => by cases hcalled), ht.pending⟩
    · exact Neat.nil.cons (ht.neat.reverse.node k) ⟨hcloses.of_head? hc k, .inr (hopens.of_getLast? hd k)⟩
    · obtain ⟨hready, hkind, hnear, hsecond⟩ := ht.next j hj
      exact ⟨hready, hkind, hnear, hsecond⟩

/-- A node that begins at the innermost mark ends with what closes tightly. -/
theorem folded {k : Kind} {body : Routine α} (h : Trims n false σ body fun _ τ => τ.Closed) :
    Trims n false σ (Parser.wrapped k body) fun _ τ => τ.Closed :=
  .wrapped (h.imp fun _ _ hτ => ⟨hτ.shut, rfl, rfl⟩)

/-- After what closes tightly, that much is known. -/
theorem seq {x : Routine β} {f : β → Routine α} (hx : Trims n e σ x fun _ τ => τ.Closed)
    (hf : ∀ b, Trims n e (Stance.after {} true) (f b) Q) : Trims n e σ (x >>= f) Q :=
  hx.bind fun b _ hτ s hs => hf b s (hs.weaken nofun (fun _ => hτ.begun) (fun _ => hτ.shut) nofun nofun)

/-- Newlines may be read in another way where the frame has begun. -/
theorem separating {b : Bool} {body : Routine α} (hσ : σ.begun = true)
    (h : Trims n e { σ with next := none } body fun a τ => τ.begun = true ∧ Q a { τ with next := none }) :
    Trims n e σ (Parser.separating b body) Q := by
  have hset {s : State} {σ : Stance} (hs : s.Stands e σ) (hσ : σ.begun = true) (b : Bool) :
      State.Stands e { σ with next := none } { s with separating := b } := by
    refine ⟨hs.whole, hs.neat, ?_, nofun, hs.begun, hs.shut, hs.called, hs.pending⟩
    rcases hs.opens with he | hopens | ⟨hbuilt, -, -⟩
    · exact .inl he
    · exact .inr (.inl hopens)
    · exact .inl ((hs.begun hσ).resolve_right fun hne => hne hbuilt)
  refine fun s hs => .bind (.single fun _ before s₁ hperform _ => ?_)
  cases hperform
  refine .bind ((h _ (hset hs hσ b)).imp fun a t hbody => ?_)
  obtain ⟨hframe, τ, ⟨hτ, hQ⟩, ht⟩ := hbody
  refine .bind (.single fun _ _ u hperform _ => .done ?_)
  cases hperform
  exact ⟨⟨hframe.label, hframe.below⟩, _, hQ, hset ht hτ _⟩

/-- The limit is not hit in a silent run. -/
theorem nested {body : Routine Kind} {Q : Kind → Stance → Prop} (h : Trims n e σ body Q) : Trims n e σ (Parser.nested body) Q := by
  refine fun s hs => .bind (.single fun hsteady entry s₁ henter hsilent => ?_)
  obtain ⟨hover, -⟩ := hsteady.calm ((hushes_perform henter).silent hsilent).reports
  simp only [Action.perform] at henter
  rw [if_neg (by simp [hover])] at henter
  split at henter
  · cases henter
    have hdeeper : s.deeper.Stands e σ := hs.congr rfl rfl rfl rfl hs.pending
    refine .bind ((h _ hdeeper).imp fun a t hbody => ?_)
    obtain ⟨hframe, τ, hQ, ht⟩ := hbody
    refine .bind (.single fun _ _ u hleave _ => .done ?_)
    cases hleave
    exact ⟨⟨hframe.label, hframe.below⟩, τ, hQ, ht.congr rfl rfl rfl rfl ht.pending⟩
  · cases henter
    cases hsilent.reports

end Trims

end Remap.Parser
