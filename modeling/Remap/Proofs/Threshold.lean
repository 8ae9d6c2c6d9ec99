import Mathlib.Data.Nat.Find
import Remap.Proofs.Breakdown
import Remap.Proofs.Parser.Fuel

/-!
# The fuel a parse needs

For every source that can be parsed at all there is a number of tokens such that any less fuel runs out and any more changes
nothing. The number lies between how many tokens there are that are neither trivia nor newlines, and how many there are in
all. A parse that runs out of fuel still ends: it goes on with its loops cut short, and never comes to the place where it
could break down.
-/

namespace Remap

namespace Parser

/-- Where skipping over an error breaks down there is fuel left, and it breaks down under all settings. -/
theorem skipTo_fails {stops : KindSet} {depth : Nat} {t : State}
    (h : runRule 1 (.skipTo stops depth) t = .error .endOfTokens) :
    t.exhausted = false ∧ ∀ l f, runRule 1 (.skipTo stops depth) (t.under l f) = .error .endOfTokens := by
  have hbody (s : State) : runRule 1 (.skipTo stops depth) s = (skipToBody stops depth).run (runRule 0) s := rfl
  simp only [hbody, skipToBody, stopped, Routine.bind_eq, Routine.pure_eq, Routine.run_bind, Routine.run_single,
    Action.perform] at h ⊢
  cases hstop : t.unread.isEmpty || t.exhausted with
  | true => simp [hstop, Routine.run] at h
  | false =>
    refine ⟨(Bool.or_eq_false_iff.mp hstop).2, fun l f => ?_⟩
    have hstop' : ((t.under l f).unread.isEmpty || (t.under l f).exhausted) = false := hstop
    have hunder : Action.peek.perform (t.under l f) = _ := perform_under rfl t l f
    simp only [hstop, hstop', Bool.false_eq_true, if_false, Routine.run_bind, peek, Routine.run_single, hunder] at h ⊢
    cases hpeek : Action.peek.perform t with
    | error e =>
      rw [hpeek] at h
      exact h
    | ok r =>
      obtain ⟨k, u⟩ := r
      rw [hpeek] at h
      simp only [Except.map] at h ⊢
      split at h
      · cases h
      · rename_i hgo
        rw [if_neg hgo]
        cases hu : u.unread with
        | nil => simp [advance, Routine.run_bind, Action.perform, hu]
        | cons token rest =>
          rw [advance, Routine.run_bind, Routine.run_single, State.perform_advance hu] at h
          cases h

/-- A parse of tokens that returns without bound on the fuel does not run out of it. -/
theorem fuelled_of_unlimited {tokens : List Token} {limit : Nat} {r : Result} (h : parseTokens tokens limit none = .ok r) :
    r.exhausted = false := by
  obtain ⟨t, hrun, hfinish⟩ := parseTokens_eq_ok.mp h
  rw [(State.holds_of_finish hfinish).exhausted]
  exact (respected_fed.run hrun ⟨rfl, nofun⟩).fuelled

section Metered

variable {tokens : List Token} {limit n : Nat} {r : Result}

/-- A parse that does not run out of fuel returns the same with ample fuel. -/
theorem parseTokens_refuelled {f : Option Nat} (hf : Ample (some n) f) (h : parseTokens tokens limit (some n) = .ok r)
    (hfuel : r.exhausted = false) : parseTokens tokens limit f = .ok r := by
  obtain ⟨t, hrun, hfinish⟩ := parseTokens_eq_ok.mp h
  have hfuelled : t.exhausted = false := (State.holds_of_finish hfinish).exhausted ▸ hfuel
  obtain ⟨g, hrun'⟩ := run_refuelled hf hrun hfuelled
  exact parseTokens_eq_ok.mpr ⟨_, hrun', hfinish⟩

/-- Fuel for every token is enough. -/
theorem fuelled_of_length_le (hn : tokens.length ≤ n) (h : parseTokens tokens limit (some n) = .ok r) :
    r.exhausted = false := by
  obtain ⟨t, hrun, hfinish⟩ := parseTokens_eq_ok.mp h
  rw [(State.holds_of_finish hfinish).exhausted]
  refine (respected_fed.run hrun ⟨rfl, fun m hm => ?_⟩).fuelled
  obtain rfl : n = m := Option.some.inj hm
  exact hn

/-- Less fuel than there are solid tokens is not enough. -/
theorem solidCount_le_of_fuelled (h : parseTokens tokens limit (some n) = .ok r) (hfuel : r.exhausted = false) :
    solidCount tokens ≤ n := by
  obtain ⟨t, hrun, hfinish⟩ := parseTokens_eq_ok.mp h
  have hfuelled : t.exhausted = false := (State.holds_of_finish hfinish).exhausted ▸ hfuel
  obtain ⟨m, _, hpaid⟩ := (respected_pays.run hrun).paid hfuelled n rfl
  rw [(nothing_left hrun hfuelled).1] at hpaid
  have : solidCount [] = 0 := rfl
  simp only [State.start] at hpaid
  omega

/-- Where parsing returns without bound on the fuel it returns with any fuel: it falls only while there is fuel left, and
then it would fall without bound as well. -/
theorem parseTokens_metered (h : parseTokens tokens limit none = .ok r) (n : Nat) :
    ∃ r', parseTokens tokens limit (some n) = .ok r' := by
  rcases parseTokens_cases tokens limit (some n) with ⟨r', hr', _⟩ | ⟨_, stops, depth, t, hv, _, hfail⟩
  · exact ⟨r', hr'⟩
  · obtain ⟨hfuelled, hfails⟩ := skipTo_fails hfail
    obtain ⟨g, hv'⟩ := visits_refuelled (f := none) nofun hv hfuelled
    obtain ⟨_, hrun, _⟩ := parseTokens_eq_ok.mp h
    exact absurd hrun (hv'.run_ne_ok (f := .endOfTokens) nofun (hfails t.limit g))

end Metered

/-- The fuel that parsing some tokens needs: with less it runs out, and with as much or more it returns what it returns
without bound. -/
theorem exists_threshold {tokens : List Token} {limit : Nat} {r : Result} (h : parseTokens tokens limit none = .ok r) :
    ∃ need, solidCount tokens ≤ need ∧ need ≤ tokens.length ∧
      (∀ n < need, ∃ r', parseTokens tokens limit (some n) = .ok r' ∧ r'.exhausted = true) ∧
      ∀ n ≥ need, parseTokens tokens limit (some n) = .ok r := by
  have hreturns := parseTokens_metered h
  have henough : ∃ n, ∃ r', parseTokens tokens limit (some n) = .ok r' ∧ r'.exhausted = false := by
    obtain ⟨r', hr'⟩ := hreturns tokens.length
    exact ⟨_, r', hr', fuelled_of_length_le (Nat.le_refl _) hr'⟩
  classical
  obtain ⟨r', hr', hfuel⟩ := Nat.find_spec henough
  refine ⟨Nat.find henough, solidCount_le_of_fuelled hr' hfuel, Nat.find_min' henough ?_, fun n hn => ?_, fun n hn => ?_⟩
  · obtain ⟨r'', hr''⟩ := hreturns tokens.length
    exact ⟨r'', hr'', fuelled_of_length_le (Nat.le_refl _) hr''⟩
  · obtain ⟨r'', hr''⟩ := hreturns n
    refine ⟨r'', hr'', ?_⟩
    cases hfuel' : r''.exhausted with
    | true => rfl
    | false => exact absurd ⟨r'', hr'', hfuel'⟩ (Nat.find_min henough hn)
  · have hunlimited := parseTokens_refuelled (f := none) nofun hr' hfuel
    rw [h] at hunlimited
    cases hunlimited
    exact parseTokens_refuelled (fun m hm => ⟨_, Option.some.inj hm ▸ hn, rfl⟩) hr' hfuel

end Parser

/-- A parse without bound on the fuel never runs out of it. If it does not break down either, there is a number of tokens,
between how many of them are neither trivia nor newlines and how many there are, such that with less fuel the parse runs out
of it, and with as much or more it gives the same tree and diagnostics as without bound. -/
theorem parse_fuel_threshold (o : Options) (source : Text) :
    parse { o with fuel := none } source ≠ .error .outOfFuel ∧
    ((∀ f, parse { o with fuel := none } source ≠ .error (.broken f)) →
      ∃ p need, parse { o with fuel := none } source = .ok p ∧
        Parser.solidCount (scan source o.checkPatterns).tokens ≤ need ∧ need ≤ (scan source o.checkPatterns).tokens.length ∧
        (∀ n < need, parse { o with fuel := some n } source = .error .outOfFuel) ∧
        ∀ n ≥ need, parse { o with fuel := some n } source = .ok p) := by
  cases hr : Parser.parseTokens (scan source o.checkPatterns).tokens o.limit none with
  | error f =>
    have hparse : parse { o with fuel := none } source = .error (.broken f) := by simp only [parse, hr]
    exact ⟨by simp [hparse], fun h => absurd hparse (h f)⟩
  | ok r =>
    have hfuel := Parser.fuelled_of_unlimited hr
    have hparse : parse { o with fuel := none } source =
        .ok ⟨r.tree, (((scan source o.checkPatterns).diagnostics ++ r.diagnostics).sortByPosition).locate source⟩ := by
      simp only [parse, hr, hfuel, Bool.false_eq_true, if_false]
    refine ⟨by simp [hparse], fun _ => ?_⟩
    obtain ⟨need, hleast, hmost, hless, hmore⟩ := Parser.exists_threshold hr
    refine ⟨_, need, hparse, hleast, hmost, fun n hn => ?_, fun n hn => ?_⟩
    · obtain ⟨r', hr', hout⟩ := hless n hn
      simp only [parse, hr', hout, if_true]
    · simp only [parse, hmore n hn, hfuel, Bool.false_eq_true, if_false]

/-- A call over two lines with a comment after it: nine tokens, of which six have to be consumed. -/
theorem parse_fuel_threshold_call :
    ∃ p need, parse {} "f(1,\n2) #".toList = .ok p ∧ 6 ≤ need ∧ need ≤ 9 ∧
      (∀ n < need, parse { fuel := some n } "f(1,\n2) #".toList = .error .outOfFuel) ∧
      ∀ n ≥ need, parse { fuel := some n } "f(1,\n2) #".toList = .ok p := by
  have hreturns : (parse {} "f(1,\n2) #".toList).isOk = true := by decide +kernel
  have hunbroken : ∀ f, parse {} "f(1,\n2) #".toList ≠ .error (.broken f) := by
    intro f hf
    rw [hf] at hreturns
    cases hreturns
  obtain ⟨p, need, hp, hleast, hmost, hless, hmore⟩ := (parse_fuel_threshold {} "f(1,\n2) #".toList).2 hunbroken
  have hsolid : Parser.solidCount (scan "f(1,\n2) #".toList false).tokens = 6 := by decide +kernel
  have hlength : (scan "f(1,\n2) #".toList false).tokens.length = 9 := by decide +kernel
  exact ⟨p, need, hp, hsolid ▸ hleast, hlength ▸ hmost, hless, hmore⟩

end Remap
