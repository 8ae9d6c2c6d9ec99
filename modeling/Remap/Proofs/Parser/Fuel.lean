import Remap.Proofs.Parser.Progress
import Remap.Proofs.Parser.Shadow
import Remap.Proofs.Parser.Silent

/-!
# Fuel

Fuel is used up by consuming tokens, and nothing else asks for it. So a run that never consumes a token without fuel is
shadowed by the same run with more of it, or with no bound at all. Every token is consumed at most once, and one that is
neither trivia nor a newline can be passed in no other way than by consuming it: this bounds the fuel a run needs from both
sides.
-/

namespace Remap

/-- A token that is neither trivia nor a newline. -/
def Token.isSolid (t : Token) : Bool := !(t.kind.isTrivia || t.kind = .newline)

namespace Parser

variable {α β : Type}

/-! ## What an action does to the fuel -/

/-- Whether an action consumes a token. -/
def Action.consumes : {α : Type} → Action α → Bool
  | _, .advance => true
  | _, _ => false

/-- An action that consumes no token does the same with any fuel. -/
theorem perform_refuelled {action : Action α} (h : action.consumes = false) (s : State) (f : Option Nat) :
    action.perform (s.under s.limit f) = (action.perform s).map fun r => (r.1, r.2.under s.limit f) := by
  cases hset : action.isSet with
  | false => exact perform_under hset s s.limit f
  | true =>
    cases action with
    | enter => exact perform_enter_under s f
    | advance => cases h
    | _ => cases hset

/-- The fuel is left alone, and no token is passed that could not be passed over. -/
structure Spares (s t : State) : Prop where
  fuel : t.fuel = s.fuel
  exhausted : t.exhausted = s.exhausted
  unread : t.unread = s.unread ∨ t.unread = s.skip.unread

theorem spares_perform {action : Action α} {s t : State} {a : α} (hconsumes : action.consumes = false)
    (h : action.perform s = .ok (a, t)) : Spares s t := by
  have hfuel : t.fuel = s.fuel := (settings_of_under (perform_refuelled hconsumes s s.fuel) h).2
  have hskip := Quiet.skip s
  by_cases hquiet : action.isQuiet = true
  · have hends := (quiet_perform hquiet s).of_ok h
    exact ⟨hfuel, hends.exhausted, hends.unread⟩
  cases action with
  | advance => cases hconsumes
  | peek =>
    obtain ⟨-, rfl⟩ := State.of_perform_peek h
    exact ⟨hfuel, hskip.exhausted, .inr rfl⟩
  | peekRaw =>
    simp only [Action.perform, look] at h
    split at h <;> cases h
    exact ⟨hfuel, rfl, .inl rfl⟩
  | leave | setSeparating b =>
    cases h
    exact ⟨hfuel, rfl, .inl rfl⟩
  | enter =>
    rw [State.perform_enter] at h
    split at h
    · cases h
      exact ⟨rfl, rfl, .inl rfl⟩
    · split at h <;> cases h
      · exact ⟨hfuel, rfl, .inl rfl⟩
      · exact ⟨hfuel, hskip.exhausted, .inr rfl⟩
  | _ => exact absurd rfl hquiet

/-- An action consumes a token, or it spares the fuel. -/
theorem consumed_or_spares {action : Action α} {s t : State} {a : α} (h : action.perform s = .ok (a, t)) :
    (∃ token rest, s.unread = token :: rest ∧ t = s.consumed token rest) ∨ Spares s t := by
  cases hconsumes : action.consumes with
  | false => exact .inr (spares_perform hconsumes h)
  | true =>
    cases action with
    | advance => exact .inl (State.of_perform_advance h)
    | _ => cases hconsumes

/-! ## More fuel -/

/-- There is no less fuel in the second place than in the first, and perhaps no bound at all. -/
def Ample (f g : Option Nat) : Prop := ∀ n, g = some n → ∃ m ≤ n, f = some m

/-- The second state is the first one with ample fuel. -/
def Refuelled (s s' : State) : Prop := ∃ f, Ample s.fuel f ∧ s' = s.under s.limit f

theorem Ample.map_pred {f g : Option Nat} (h : Ample f g) : Ample (f.map (· - 1)) (g.map (· - 1)) := by
  intro n hn
  obtain ⟨k, hg, hk⟩ := Option.map_eq_some_iff.mp hn
  obtain ⟨m, hm, hf⟩ := h k hg
  exact ⟨m - 1, by omega, by rw [hf]; rfl⟩

/-- With ample fuel a token is consumed the same way, unless there was none to consume it with. -/
theorem refuelled_consumed {s : State} {f : Option Nat} {t : Token} {rest : List Token} (hf : Ample s.fuel f)
    (hfuel : s.fuel ≠ some 0) : Refuelled (s.consumed t rest) ((s.under s.limit f).consumed t rest) := by
  have hne : f ≠ some 0 := by
    intro h0
    obtain ⟨m, hm, hs⟩ := hf 0 h0
    obtain rfl : m = 0 := by omega
    exact hfuel hs
  refine ⟨f.map (· - 1), hf.map_pred, ?_⟩
  simp only [State.consumed, State.under, State.mk.injEq, true_and]
  simp [beq_eq_false_iff_ne.mpr hne, beq_eq_false_iff_ne.mpr hfuel]

/-- With ample fuel a run does the same, unless the first one ran out of fuel. -/
theorem shadowed_refuelled : Shadowed Refuelled fun t _ => t.exhausted = true where
  perform := by
    rintro α action s _ t a ⟨f, hf, rfl⟩ h
    cases hconsumes : action.consumes with
    | false =>
      obtain ⟨hlimit, hfuel⟩ := settings_of_under (perform_refuelled hconsumes s s.fuel) h
      exact ⟨a, t.under s.limit f, by rw [perform_refuelled hconsumes, h]; rfl, .inl ⟨rfl, f, hfuel ▸ hf, hlimit ▸ rfl⟩⟩
    | true =>
      cases action with
      | advance =>
        obtain ⟨token, rest, hs, rfl⟩ := State.of_perform_advance h
        refine ⟨(), _, State.perform_advance (s := s.under s.limit f) hs, ?_⟩
        by_cases hfuel : s.fuel = some 0
        · exact .inr (by simp [State.consumed, hfuel])
        · exact .inl ⟨rfl, refuelled_consumed hf hfuel⟩
      | _ => cases hconsumes
  left := by
    refine ⟨fun _ _ h => h, fun h h' t' hs => h' t' (h t' hs), fun {_ _ s t _} h _ hs => ?_⟩
    cases ht : t.exhausted with
    | true => rfl
    | false => rw [(respected_hushes.perform h).fuelled ht] at hs; cases hs
  right := ⟨fun _ _ h => h, fun h h' t hs => h' t (h t hs), fun _ _ hs => hs⟩

/-- A run with ample fuel returns the same, unless the first run ran out of fuel. -/
theorem run_refuelled {n : Nat} {x : Routine α} {s t : State} {a : α} {f : Option Nat} (hf : Ample s.fuel f)
    (hx : x.run (runRule n) s = .ok (a, t)) (hfuel : t.exhausted = false) :
    ∃ g, x.run (runRule n) (s.under s.limit f) = .ok (a, t.under t.limit g) := by
  rcases shadowed_refuelled.run x ⟨f, hf, rfl⟩ hx with ⟨_, hx', g, _, rfl⟩ | ⟨⟨_, hcut⟩, _⟩
  · exact ⟨g, hx'⟩
  · rw [hfuel] at hcut
    cases hcut

/-- A rule that a run comes by before the fuel runs out is visited with ample fuel as well. -/
theorem visits_refuelled {r : Rule β} {x : Routine α} {s t : State} {f : Option Nat} (hf : Ample s.fuel f)
    (hv : Visits r t x s) (hfuel : t.exhausted = false) : ∃ g, Visits r (t.under t.limit g) x (s.under s.limit f) := by
  rcases shadowed_refuelled.visits hv ⟨f, hf, rfl⟩ with ⟨_, hv', g, _, rfl⟩ | ⟨_, hcut⟩
  · exact ⟨g, hv'⟩
  · rw [hfuel] at hcut
    cases hcut

/-! ## How much is enough -/

/-- There is fuel for every token that is left. -/
structure State.Fed (s : State) : Prop where
  fuelled : s.exhausted = false
  enough : ∀ n, s.fuel = some n → s.unread.length ≤ n

/-- Fuel for every token is enough. -/
theorem respected_fed : Respected fun s t => s.Fed → t.Fed where
  refl _ := id
  trans h h' := h' ∘ h
  perform {_ _ s t _} h hs := by
    have hlength : t.unread.length ≤ s.unread.length := (suffix_perform h).length_le
    rcases consumed_or_spares h with ⟨token, rest, hunread, rfl⟩ | hspares
    · have hne : s.fuel ≠ some 0 := by
        intro h0
        have := hs.enough 0 h0
        rw [hunread] at this
        cases this
      refine ⟨by simp [State.consumed, hs.fuelled, hne], fun n hn => ?_⟩
      obtain ⟨m, hm, rfl⟩ := Option.map_eq_some_iff.mp hn
      have := hs.enough m hm
      rw [hunread, List.length_cons] at this
      simp only [State.consumed]
      omega
    · refine ⟨hspares.exhausted.trans hs.fuelled, fun n hn => ?_⟩
      have := hs.enough n (hspares.fuel ▸ hn)
      omega

/-- How many tokens of a list can be passed only by consuming them. -/
def solidCount (ts : List Token) : Nat := ts.countP Token.isSolid

theorem solidCount_skip (s : State) : solidCount s.skip.unread = solidCount s.unread := by
  have hskipped : solidCount (s.unread.takeWhile s.skips) = 0 := by
    refine List.countP_eq_zero.mpr fun t ht => ?_
    have hskips : s.skips t = true := List.all_eq_true.mp List.all_takeWhile t ht
    simp only [State.skips, Bool.or_eq_true, Bool.and_eq_true, decide_eq_true_eq] at hskips
    rcases hskips with htrivia | ⟨-, hnewline⟩
    · simp [Token.isSolid, htrivia]
    · simp [Token.isSolid, hnewline]
  have hsplit : solidCount s.unread = solidCount (s.unread.takeWhile s.skips) + solidCount (s.unread.dropWhile s.skips) := by
    simp only [solidCount, ← List.countP_append, List.takeWhile_append_dropWhile]
  rw [State.unread_skip, hsplit, hskipped, Nat.zero_add]

/-- A run that did not run out of fuel used up some for every token it passed that is neither trivia nor a newline. -/
structure Pays (s t : State) : Prop where
  fuelled : t.exhausted = false → s.exhausted = false
  paid : t.exhausted = false → ∀ n, s.fuel = some n → ∃ m, t.fuel = some m ∧ solidCount s.unread + m ≤ n + solidCount t.unread

/-- Every solid token that is passed is paid for. -/
theorem respected_pays : Respected Pays where
  refl s := ⟨id, fun _ n hn => ⟨n, hn, by omega⟩⟩
  trans {s t u} h h' := by
    refine ⟨fun hu => h.fuelled (h'.fuelled hu), fun hu n hn => ?_⟩
    obtain ⟨m, hm, hle⟩ := h.paid (h'.fuelled hu) n hn
    obtain ⟨k, hk, hle'⟩ := h'.paid hu m hm
    exact ⟨k, hk, by omega⟩
  perform {_ _ s t _} h := by
    refine ⟨(respected_hushes.perform h).fuelled, fun ht n hn => ?_⟩
    rcases consumed_or_spares h with ⟨token, rest, hunread, rfl⟩ | hspares
    · have hne : n ≠ 0 := by
        rintro rfl
        simp [State.consumed, hn] at ht
      refine ⟨n - 1, by simp [State.consumed, hn], ?_⟩
      have hcons : solidCount (token :: rest) ≤ solidCount rest + 1 := by
        simp only [solidCount, List.countP_cons]
        split <;> omega
      simp only [State.consumed, hunread]
      omega
    · refine ⟨n, hspares.fuel.trans hn, ?_⟩
      have : solidCount t.unread = solidCount s.unread := by
        rcases hspares.unread with hu | hu
        · rw [hu]
        · rw [hu, solidCount_skip]
      omega

end Parser

end Remap
