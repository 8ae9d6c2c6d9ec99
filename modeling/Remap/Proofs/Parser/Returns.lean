import Remap.Program
import Remap.Proofs.Parser.Silent

/-!
# What every run leaves behind

`Returns n x s Q` is partial correctness for all runs of `x` that end with the fuel they were given, reports or not: what is
returned satisfies `Q`. Such a run gives back the frames around the innermost one, the depth and the limit; and once the limit
was hit nothing is left to read.

The rules say which state a routine ends in, given the one its body ends in. Wrapping needs no rule about marks here: a run
that wraps where there is no mark returns nothing.
-/

namespace Remap.Parser

variable {α β : Type}

namespace State

/-- Once the limit was hit, nothing is left to read. -/
def Spent (s : State) : Prop := s.overflowed = true → s.unread = []

/-- What a later state has in common with an earlier one: the frames apart from what the innermost one holds, and the depth.
If nothing was left to read after the limit was hit, nothing is left now. -/
structure Follows (s t : State) : Prop where
  label : t.top.label = s.top.label
  below : t.below = s.below
  depth : t.depth = s.depth
  limit : t.limit = s.limit
  spent : s.Spent → t.Spent

theorem Follows.refl (s : State) : Follows s s := ⟨rfl, rfl, rfl, rfl, id⟩

theorem Follows.trans {s t u : State} (h : Follows s t) (h' : Follows t u) : Follows s u :=
  ⟨h'.label.trans h.label, h'.below.trans h.below, h'.depth.trans h.depth, h'.limit.trans h.limit,
    fun hs => h'.spent (h.spent hs)⟩

/-- The innermost frame was given a row of leaves, and nothing else was added to it. -/
def AddsLeaves (s t : State) : Prop := ∃ ts : List Token, t.top.built = ts.map Token.leaf ++ s.top.built

theorem AddsLeaves.of_eq {s t : State} (h : t.top.built = s.top.built) : AddsLeaves s t := ⟨[], h⟩

theorem AddsLeaves.trans {s t u : State} (h : AddsLeaves s t) (h' : AddsLeaves t u) : AddsLeaves s u := by
  obtain ⟨ts, hts⟩ := h
  obtain ⟨us, hus⟩ := h'
  exact ⟨us ++ ts, by rw [hus, hts, List.map_append, List.append_assoc]⟩

theorem follows_skip (s : State) : Follows s s.skip := by
  rw [skip_eq]
  refine ⟨rfl, rfl, rfl, rfl, fun hs hover => ?_⟩
  rw [hs hover, List.dropWhile_nil]

theorem follows_drain (s : State) : Follows s s.drain := by
  rw [drain_eq]
  exact ⟨rfl, rfl, rfl, rfl, id⟩

theorem follows_report (s : State) (d : Diagnostic) : Follows s (s.report d) := by
  rw [report_eq]
  exact ⟨rfl, rfl, rfl, rfl, id⟩

theorem built_skip (s : State) : s.skip.top.built = s.top.built := by rw [skip_eq]

theorem built_drain (s : State) : s.drain.top.built = s.held.reverse.map Token.leaf ++ s.top.built := by
  rw [drain_eq, List.map_reverse]

theorem built_report (s : State) (d : Diagnostic) : (s.report d).top.built = s.top.built := by rw [report_eq]

end State

/-- A parse starts in a steady state. -/
theorem State.Steady.start (tokens : List Token) (limit : Nat) (fuel : Option Nat) : (State.start tokens limit fuel).Steady :=
  ⟨fun _ => ⟨rfl, rfl⟩, fun _ ht => absurd ht List.not_mem_nil⟩

open State (Follows AddsLeaves)

/-- Whether an action leaves the frames and the depth as they are. -/
def Action.isLook : {α : Type} → Action α → Bool
  | _, .openNode _ | _, .closeNode | _, .mark | _, .wrap _ | _, .unmark | _, .enter | _, .leave | _, .advance | _, .settle => false
  | _, _ => true

/-- Whether an action leaves the frames and the depth as they are, except for leaves it adds to the innermost frame. -/
def Action.isFlat : {α : Type} → Action α → Bool
  | _, .advance | _, .settle => true
  | _, action => action.isLook

theorem look_perform {action : Action α} {s t : State} {a : α} (hlook : action.isLook = true)
    (h : action.perform s = .ok (a, t)) : Follows s t ∧ t.top.built = s.top.built := by
  have hskip := s.follows_skip
  cases action with
  | peek =>
    obtain ⟨-, rfl⟩ := State.of_perform_peek h
    exact ⟨⟨hskip.label, hskip.below, hskip.depth, hskip.limit, hskip.spent⟩, s.built_skip⟩
  | peekRaw =>
    simp only [Action.perform, look] at h
    split at h <;> cases h
    exact ⟨⟨rfl, rfl, rfl, rfl, id⟩, rfl⟩
  | touches =>
    cases h
    exact ⟨hskip, s.built_skip⟩
  | ahead q | atEnd | stopped =>
    cases h
    exact ⟨.refl s, rfl⟩
  | report p d =>
    cases h
    exact ⟨hskip.trans (State.follows_report _ _), (State.built_report _ _).trans s.built_skip⟩
  | reportUnclosed closer =>
    simp only [Action.perform] at h
    split at h <;> cases h
    · exact ⟨hskip, s.built_skip⟩
    · exact ⟨hskip.trans (State.follows_report _ _), (State.built_report _ _).trans s.built_skip⟩
  | reportTarget flaw =>
    cases h
    exact ⟨State.follows_report _ _, State.built_report _ _⟩
  | checkParameters =>
    cases h
    rw [State.reportParameters_eq]
    obtain ⟨reports, lastReport, hfold⟩ := State.foldl_report s.parameterProblems s
    rw [hfold]
    exact ⟨⟨rfl, rfl, rfl, rfl, id⟩, rfl⟩
  | pushDelimiter k =>
    cases h
    exact ⟨⟨hskip.label, hskip.below, hskip.depth, hskip.limit, hskip.spent⟩, s.built_skip⟩
  | popDelimiter | setSeparating b =>
    cases h
    exact ⟨⟨rfl, rfl, rfl, rfl, id⟩, rfl⟩
  | _ => cases hlook

theorem flat_perform {action : Action α} {s t : State} {a : α} (hflat : action.isFlat = true)
    (h : action.perform s = .ok (a, t)) : Follows s t ∧ AddsLeaves s t := by
  cases hlook : action.isLook with
  | true => exact (look_perform hlook h).imp id .of_eq
  | false =>
    cases action with
    | advance =>
      obtain ⟨token, rest, hu, rfl⟩ := State.of_perform_advance h
      refine ⟨⟨rfl, rfl, rfl, rfl, fun hs hover => ?_⟩, token :: s.held.reverse, ?_⟩
      · cases hu.symm.trans (hs hover)
      · simp [State.consumed]
    | settle =>
      cases h
      exact ⟨s.follows_skip.trans s.skip.follows_drain, s.skip.held.reverse, by rw [State.built_drain, State.built_skip]⟩
    | _ => cases hlook.symm.trans hflat

/-! ## The judgement -/

/-- What a routine returns from a steady state, with the fuel it was given, follows that state and satisfies `Q`. -/
def Returns (n : Nat) (x : Routine α) (s : State) (Q : α → State → Prop) : Prop :=
  s.Steady → ∀ a t, x.run (runRule n) s = .ok (a, t) → t.exhausted = false → Follows s t ∧ Q a t

namespace State

/-- The state after the node that was opened in `s` is closed in `t`. -/
def closed (s : State) (k : Kind) (t : State) : State :=
  { t with top := { s.drain.top with built := .node k t.top.built.reverse :: s.drain.top.built }, below := s.drain.below }

/-- The state after the mark that was made in `s` is given up in `t`. -/
def joined (s t : State) : State :=
  { t with top := { s.drain.top with built := t.top.built ++ s.drain.top.built }, below := s.drain.below }

/-- The state after a node was opened at the mark that is innermost in `s`. -/
def wrapping (s : State) (k : Kind) : State :=
  { s with top := { s.top with label := some k }, below := { s.top with built := [] } :: s.below }

/-- The state after the node that was opened at the mark of `s` is closed in `t`. -/
def wrapped (s : State) (k : Kind) (t : State) : State :=
  { t with top := { s.top with built := [.node k t.top.built.reverse] }, below := s.below }

end State

namespace Returns

variable {n : Nat} {s : State} {Q Q' : α → State → Prop}

theorem imp {x : Routine α} (h : Returns n x s Q) (hQ : ∀ a t, Q a t → Q' a t) : Returns n x s Q' :=
  fun hs a t hrun hfuel => (h hs a t hrun hfuel).imp id (hQ a t)

/-- What is known of a run in two ways is known. -/
theorem and {x : Routine α} (h : Returns n x s Q) (h' : Returns n x s Q') : Returns n x s fun a t => Q a t ∧ Q' a t :=
  fun hs a t hrun hfuel => ⟨(h hs a t hrun hfuel).1, (h hs a t hrun hfuel).2, (h' hs a t hrun hfuel).2⟩

/-- What a run ends in follows the state it started in. -/
theorem follows {x : Routine α} (h : Returns n x s Q) : Returns n x s fun a t => Follows s t ∧ Q a t :=
  fun hs a t hrun hfuel => ⟨(h hs a t hrun hfuel).1, h hs a t hrun hfuel⟩

/-- Every run that matters starts in a steady state. -/
theorem of_steady {x : Routine α} (h : s.Steady → Returns n x s Q) : Returns n x s Q := fun hs => h hs hs

theorem done {a : α} (h : Q a s) : Returns n (pure a) s Q := by
  intro _ b t hrun _
  cases hrun
  exact ⟨.refl s, h⟩

theorem fail (f : Fault) : Returns n (.fail f) s Q := by
  intro _ a t hrun _
  cases hrun

/-- One routine after another. -/
theorem bind {x : Routine β} {f : β → Routine α} (h : Returns n x s fun b t => Returns n (f b) t Q) :
    Returns n (x >>= f) s Q := by
  intro hs a u hrun hfuel
  obtain ⟨b, t, hx, hf⟩ := Routine.run_bind_eq_ok.mp hrun
  have ht := respected_hushes.run hx
  have hu := respected_hushes.run hf
  obtain ⟨hfollows, hnext⟩ := h hs b t hx (hu.fuelled hfuel)
  obtain ⟨hfollows', hQ⟩ := hnext (ht.steady hs) a u hf hfuel
  exact ⟨hfollows.trans hfollows', hQ⟩

/-- An action that leaves the frames and the depth alone. -/
theorem flat {action : Action α} (hflat : action.isFlat = true)
    (h : ∀ b t, action.perform s = .ok (b, t) → AddsLeaves s t → Q b t) : Returns n (act action) s Q := by
  intro _ a t hrun _
  rw [Routine.run_single] at hrun
  obtain ⟨hfollows, hadds⟩ := flat_perform hflat hrun
  exact ⟨hfollows, h a t hrun hadds⟩

/-- An action that leaves the frames and the depth as they are. -/
theorem look {action : Action α} (hlook : action.isLook = true)
    (h : ∀ b t, action.perform s = .ok (b, t) → t.top.built = s.top.built → Q b t) : Returns n (act action) s Q := by
  intro _ a t hrun _
  rw [Routine.run_single] at hrun
  obtain ⟨hfollows, hbuilt⟩ := look_perform hlook hrun
  exact ⟨hfollows, h a t hrun hbuilt⟩

/-- Where no rule may be entered nothing is returned. -/
theorem zero (r : Rule α) (s : State) : Returns 0 (Parser.rule r) s Q := by
  intro _ a t hrun
  cases hrun

/-- A rule does what its body does. -/
theorem rule {r : Rule α} (h : Returns n (grammar r) s Q) : Returns (n + 1) (Parser.rule r) s Q := h

theorem of_rule {r : Rule α} (h : ∀ m, Returns m (grammar r) s Q) : Returns n (Parser.rule r) s Q := by
  cases n with
  | zero => exact .zero _ _
  | succ n => exact .rule (h n)

/-- Something done between two actions, where the second undoes what the first did to the frames. -/
theorem between {first last : Action Unit} {body : Routine α} {s₁ : State} {g : State → State}
    (hfirst : ∀ s', first.perform s = .ok ((), s') → s' = s₁)
    (hlast : ∀ t u, Follows s₁ t → last.perform t = .ok ((), u) → u = g t ∧ Follows s (g t))
    (h : Returns n body s₁ fun a t => Q a (g t)) :
    Returns n (do act first; let a ← body; act last; return a) s Q := by
  intro hs a u hrun hfuel
  obtain ⟨_, s', hopen, hrest⟩ := Routine.run_bind_eq_ok.mp hrun
  obtain ⟨b, t, hbody, hend⟩ := Routine.run_bind_eq_ok.mp hrest
  obtain ⟨_, t', hclose, hdone⟩ := Routine.run_bind_eq_ok.mp hend
  rw [Routine.run_single] at hopen hclose
  cases hdone
  have hsteady := (hushes_perform hopen).steady hs
  obtain rfl := hfirst s' hopen
  obtain ⟨hfollows, hQ⟩ := h hsteady a t hbody ((hushes_perform hclose).fuelled hfuel)
  obtain ⟨rfl, hfollows'⟩ := hlast t u hfollows hclose
  exact ⟨hfollows', hQ⟩

/-- Building a node. -/
theorem node {k : Kind} {body : Routine α} (h : Returns n body (s.pushed (some k)) fun a t => Q a (s.closed k t)) :
    Returns n (Parser.node k body) s Q := by
  refine between (fun s' hopen => by cases hopen; rfl) (fun t u hfollows hclose => ?_) h
  have hdrain := s.follows_drain
  have hlabel : t.top.label = some k := hfollows.label
  have hbelow : t.below = s.drain.top :: s.drain.below := hfollows.below
  simp only [Action.perform, hlabel, hbelow, Except.ok.injEq, Prod.mk.injEq, true_and] at hclose
  exact ⟨hclose.symm, hdrain.label, hdrain.below, hfollows.depth.trans hdrain.depth, hfollows.limit.trans hdrain.limit,
    fun hspent => hfollows.spent (hdrain.spent hspent)⟩

/-- Building from a mark on. -/
theorem marked {body : Routine α} (h : Returns n body (s.pushed none) fun a t => Q a (s.joined t)) :
    Returns n (Parser.marked body) s Q := by
  refine between (fun s' hopen => by cases hopen; rfl) (fun t u hfollows hclose => ?_) h
  have hdrain := s.follows_drain
  have hlabel : t.top.label = none := hfollows.label
  have hbelow : t.below = s.drain.top :: s.drain.below := hfollows.below
  simp only [Action.perform, hlabel, hbelow, Except.ok.injEq, Prod.mk.injEq, true_and] at hclose
  exact ⟨hclose.symm, hdrain.label, hdrain.below, hfollows.depth.trans hdrain.depth, hfollows.limit.trans hdrain.limit,
    fun hspent => hfollows.spent (hdrain.spent hspent)⟩

/-- Building a node that begins at the innermost mark. -/
theorem wrapped {k : Kind} {body : Routine α} (h : Returns n body (s.wrapping k) fun a t => Q a (s.wrapped k t)) :
    Returns n (Parser.wrapped k body) s Q := by
  refine between (fun s' hopen => ?_) (fun t u hfollows hclose => ?_) h
  · cases hmark : s.top.label with
    | some label => simp [Action.perform, hmark] at hopen
    | none =>
      simp only [Action.perform, hmark, Except.ok.injEq, Prod.mk.injEq, true_and] at hopen
      rw [← hopen, State.wrapping]
      simp only [hmark]
  · have hlabel : t.top.label = some k := hfollows.label
    have hbelow : t.below = { s.top with built := [] } :: s.below := hfollows.below
    simp only [Action.perform, hlabel, hbelow, Except.ok.injEq, Prod.mk.injEq, true_and] at hclose
    exact ⟨hclose.symm, rfl, rfl, hfollows.depth, hfollows.limit, hfollows.spent⟩

/-- Absorbing everything adds leaves, and leaves nothing to read. -/
theorem absorb (n : Nat) (s : State) : Returns n (Parser.rule .absorb) s fun _ t => t.unread = [] ∧ AddsLeaves s t := by
  induction n generalizing s with
  | zero => exact .zero _ _
  | succ n ih =>
    refine .rule <| .bind <| .flat rfl fun b t hstopped _ => ?_
    cases hstopped
    split
    · rename_i hstop
      intro _ a t hrun hfuel
      cases hrun
      rw [hfuel, Bool.or_false, List.isEmpty_iff] at hstop
      exact ⟨.refl s, hstop, .of_eq rfl⟩
    · exact .bind <| .flat rfl fun _ t _ hadds => (ih t).imp fun _ u hu => ⟨hu.1, hadds.trans hu.2⟩

/-- The rest of the input becomes one error, which holds leaves only. -/
theorem swallow (n : Nat) (s : State) :
    Returns n (Parser.node .error (do Parser.rule .absorb; act .settle)) s fun _ t =>
      t.unread = [] ∧ t.held = [] ∧
        ∃ ts : List Token, t.top.built = .node .error (ts.map Token.leaf) :: s.drain.top.built := by
  refine .node <| .bind <| (absorb n _).imp fun _ t ht => .flat rfl fun _ u hsettle hadds => ⟨?_, ?_, ?_⟩
  · cases hsettle
    show t.skip.drain.unread = []
    rw [State.unread_drain, State.unread_skip, ht.1, List.dropWhile_nil]
  · cases hsettle
    show t.skip.drain.held = []
    rw [State.drain_eq]
  · obtain ⟨ts, hts⟩ := ht.2.trans hadds
    refine ⟨ts.reverse, ?_⟩
    have hbuilt : u.top.built = ts.map Token.leaf := by
      rw [hts]
      exact List.append_nil _
    simp only [State.closed, hbuilt, List.map_reverse]

/-- Building one level deeper: there is room for the body, or the limit was hit before, or the rest of the input becomes an
error. -/
theorem nested_swallow {body : Routine Kind} {Q : Kind → State → Prop}
    (hbody : s.depth < s.limit → Returns n body s.deeper fun k t => Q k t.shallower)
    (hblocked : s.overflowed = true → Q .error s)
    (hstranded : s.limit ≤ s.depth →
      Returns n (Parser.node .error (do Parser.rule .absorb; act .settle)) s.overrun fun _ t => Q .error t) :
    Returns n (Parser.nested body) s Q := by
  intro hs a u hrun hfuel
  obtain ⟨entry, s₁, henter, hrest⟩ := Routine.run_bind_eq_ok.mp hrun
  rw [Routine.run_single] at henter
  have hsteady := (hushes_perform henter).steady hs
  rw [State.perform_enter] at henter
  split at henter
  · rename_i hover
    cases henter
    cases hrest
    exact ⟨.refl s, hblocked hover⟩
  · split at henter
    · rename_i hroom
      cases henter
      obtain ⟨k, t, hinner, hend⟩ := Routine.run_bind_eq_ok.mp hrest
      obtain ⟨_, t₁, hleave, hdone⟩ := Routine.run_bind_eq_ok.mp hend
      rw [Routine.run_single] at hleave
      cases hdone
      cases hleave
      obtain ⟨hfollows, hQ⟩ := hbody hroom hsteady a t hinner hfuel
      have hdepth : t.depth - 1 = s.depth := by
        rw [hfollows.depth]
        exact Nat.add_sub_cancel _ _
      exact ⟨⟨hfollows.label, hfollows.below, hdepth, hfollows.limit, hfollows.spent⟩, hQ⟩
    · rename_i hfull
      cases henter
      obtain ⟨_, t, hrun, hdone⟩ := Routine.run_bind_eq_ok.mp hrest
      cases hdone
      obtain ⟨hfollows, hunread, -⟩ := swallow n _ hsteady _ _ hrun hfuel
      have hskip := s.follows_skip
      exact ⟨⟨hfollows.label.trans hskip.label, hfollows.below.trans hskip.below, hfollows.depth.trans hskip.depth,
        hfollows.limit.trans hskip.limit, fun _ _ => hunread⟩, (hstranded (Nat.le_of_not_lt hfull) hsteady _ _ hrun hfuel).2⟩

/-- Building one level deeper, where the rest of the input becomes an error after the blanks that are passed over. -/
theorem nested {body : Routine Kind} {Q : Kind → State → Prop}
    (hbody : s.depth < s.limit → Returns n body s.deeper fun k t => Q k t.shallower)
    (hblocked : s.overflowed = true → Q .error s)
    (hstranded : s.limit ≤ s.depth → ∀ (t : State) (ts : List Token), t.unread = [] →
      t.top.built = .node .error (ts.map Token.leaf) :: s.skip.drain.top.built → Q .error t) :
    Returns n (Parser.nested body) s Q := by
  refine .nested_swallow hbody hblocked fun hfull => (swallow n _).imp fun _ t ht => ?_
  obtain ⟨hunread, -, ts, hbuilt⟩ := ht
  refine hstranded hfull t ts hunread ?_
  rw [hbuilt, State.built_drain, State.built_drain]
  rfl

/-- What every run of a program ends in holds the tree of a source that is parsed. -/
theorem of_parse {o : Options} {source : Text} {p : Parsed} {Q : State → Prop} (h : parse o source = .ok p)
    (hprogram : ∀ n, Returns n program (.start (scan source o.checkPatterns).tokens o.limit o.fuel) fun _ t => Q t) :
    ∃ t, Q t ∧ t.top.built = [p.tree] := by
  simp only [parse] at h
  split at h
  · cases h
  · rename_i r hr
    split at h
    · cases h
    · rename_i hfuel
      cases h
      obtain ⟨t, hrun, hfinish⟩ := parseTokens_eq_ok.mp hr
      have hholds := State.holds_of_finish hfinish
      have hfuelled : t.exhausted = false := by
        rw [← hholds.exhausted]
        exact Bool.eq_false_iff.mpr hfuel
      exact ⟨t, (hprogram _ (.start _ _ _) () t hrun hfuelled).2, hholds.built⟩

end Returns

end Remap.Parser
