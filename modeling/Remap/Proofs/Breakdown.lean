import Remap.Program
import Remap.Proofs.Parser.Ordered
import Remap.Proofs.Parser.Progress.Grammar
import Remap.Proofs.Parser.Scope

/-!
# When parsing breaks down

Parsing always ends. It returns, it runs out of fuel, or it breaks down in one way: while it skips over an error it looks past
the trivia at the very end of the input, and finds no token to consume. A source whose last token is none that could be passed
over never breaks it.
-/

namespace Remap

namespace Parser

/-- A program makes progress from the first token to the last. -/
theorem safe_program (tokens : List Token) (limit : Nat) (fuel : Option Nat) :
    Safe (stepsFor tokens.length) program (.start tokens limit fuel) fun _ _ => True := by
  have hstatements : Progress (stepsFor tokens.length) .blank 6 ⟨5, 10⟩ 0 (rule (.statements none)) :=
    progress_runRule _ .blank (.statements none)
  have hprogram : Progress (stepsFor tokens.length) .blank 6 ⟨5, 10⟩ 0 program :=
    .fits (.node <| .seq hstatements fun _ => .last rfl) rfl
  have hsane : (State.start tokens limit fuel).Sane := ⟨Nat.le_refl _, nofun⟩
  have hpatience : 5 ≤ (State.start tokens limit fuel).patience := Nat.le_of_ble_eq_true rfl
  refine (hprogram (by decide) _ hsane trivial hpatience ?_).imp fun _ _ _ => trivial
  simp only [stepsFor, State.start]
  omega

/-- After a program was read, its node is all that is left. -/
theorem finish_program {n : Nat} {tokens : List Token} {limit : Nat} {fuel : Option Nat} {u : Unit} {t : State}
    (h : program.run (runRule n) (.start tokens limit fuel) = .ok (u, t)) :
    ∃ tree, t.finish = .ok ⟨tree, t.reports.reverse, t.exhausted⟩ := by
  have hbody : Scoped (runRule n) false (do rule (.statements none); act .settle) :=
    .bind (scoped_runRule n (.statements none)) fun _ => .plain rfl
  obtain ⟨_, s₁, hopen, hnode⟩ := Routine.run_bind_eq_ok.mp h
  obtain ⟨_, s₂, hrun, hend⟩ := Routine.run_bind_eq_ok.mp hnode
  obtain ⟨_, s₃, hclose, hdone⟩ := Routine.run_bind_eq_ok.mp hend
  rw [Routine.run_single, State.perform_openNode] at hopen
  cases hopen
  cases hdone
  have hkept := (hbody _ nofun).of_ok hrun
  have hlabel : s₂.top.label = some .program := hkept.label
  have hbelow : s₂.below = [⟨none, 0, []⟩] := hkept.below
  have hdelimiters : s₂.delimiters = [] := hkept.delimiters
  simp only [Routine.run_single, Action.perform, hlabel, hbelow, Except.ok.injEq, Prod.mk.injEq, true_and] at hclose
  subst hclose
  exact ⟨.node .program s₂.top.built.reverse, by simp only [State.finish, hdelimiters]⟩

/-- Parsing tokens gives a tree and diagnostics whose spans run forward, or it falls. -/
theorem parseTokens_cases (tokens : List Token) (limit : Nat) (fuel : Option Nat) :
    (∃ r, parseTokens tokens limit fuel = .ok r ∧ ∀ d ∈ r.diagnostics, d.Ordered) ∨
      parseTokens tokens limit fuel = .error .endOfTokens ∧ Falls program (.start tokens limit fuel) := by
  have hsafe := safe_program tokens limit fuel
  have hkept := program_kept (stepsFor tokens.length) (.start tokens limit fuel)
  unfold parseTokens
  cases hrun : program.run (runRule (stepsFor tokens.length)) (.start tokens limit fuel) with
  | error f =>
    unfold Safe at hsafe
    rw [hrun] at hsafe hkept
    rcases hsafe with hf | ⟨hf, hfalls⟩
    · exact absurd hf hkept
    · exact .inr ⟨congrArg Except.error hf, hfalls⟩
  | ok r =>
    obtain ⟨u, t⟩ := r
    obtain ⟨tree, hfinish⟩ := finish_program hrun
    have hordered : t.Ordered := respected_ordered.run hrun ⟨by simp [State.start], by simp [State.start]⟩
    exact .inl ⟨_, hfinish, fun d hd => hordered.reports d (List.mem_reverse.mp hd)⟩

/-- Where parsing falls, the last token is one that may be passed over. -/
theorem Falls.getLast {α : Type} {x : Routine α} {s : State} (h : Falls x s) :
    ∃ t, s.unread.getLast? = some t ∧ (t.kind.isTrivia = true ∨ t.kind = .newline) := by
  obtain ⟨stops, depth, t, hv, ⟨hne, hskips⟩, _⟩ := h
  obtain ⟨before, hsuffix⟩ := hv.suffix
  refine ⟨t.unread.getLast hne, ?_, ?_⟩
  · rw [← hsuffix, List.getLast?_append, List.getLast?_eq_some_getLast hne, Option.some_or]
  · have hlast := hskips _ (List.getLast_mem hne)
    simp only [State.skips, Bool.or_eq_true, Bool.and_eq_true, decide_eq_true_eq] at hlast
    exact hlast.imp id And.right

end Parser

/-- Parsing returns diagnostics whose spans all run forward, or runs out of fuel, or breaks down for want of a token to
consume: right in the body of the rule that skips over errors, where tokens are left but all of them would be passed over.
Unless the last token of the source is trivia or a newline, it does not break down at all. -/
theorem parse_broken_in_hole (o : Options) (source : Text) :
    ((∃ p, parse o source = .ok p ∧ ∀ d ∈ p.diagnostics, d.Ordered) ∨
      parse o source = .error .outOfFuel ∨
      parse o source = .error (.broken .endOfTokens) ∧
        ∃ stops depth t, Parser.Visits (.skipTo stops depth) t Parser.program
            (.start (scan source o.checkPatterns).tokens o.limit o.fuel) ∧
          t.Hole ∧ Parser.runRule 1 (.skipTo stops depth) t = .error .endOfTokens) ∧
    ((∀ t, (scan source o.checkPatterns).tokens.getLast? = some t → t.kind.isTrivia = false ∧ t.kind ≠ .newline) →
      ∀ f, parse o source ≠ .error (.broken f)) := by
  rcases Parser.parseTokens_cases (scan source o.checkPatterns).tokens o.limit o.fuel with ⟨r, hr, hordered⟩ | ⟨hr, hfalls⟩
  · by_cases hfuel : r.exhausted = true
    · have hparse : parse o source = .error .outOfFuel := by simp only [parse, hr, hfuel, if_true]
      rw [hparse]
      exact ⟨.inr (.inl rfl), fun _ _ => nofun⟩
    · have hparse : parse o source =
          .ok ⟨r.tree, (((scan source o.checkPatterns).diagnostics ++ r.diagnostics).sortByPosition).locate source⟩ := by
        simp only [parse, hr]
        rw [if_neg hfuel]
      rw [hparse]
      refine ⟨.inl ⟨_, rfl, fun d hd => ?_⟩, fun _ _ => nofun⟩
      obtain ⟨x, hx, rfl⟩ := List.mem_map.mp hd
      rcases List.mem_append.mp (List.mem_mergeSort.mp hx) with hx | hx
      · exact (Lexeme.lexical_problemsOf _ _ _ _ x hx).ordered
      · exact hordered x hx
  · have hparse : parse o source = .error (.broken .endOfTokens) := by simp only [parse, hr]
    rw [hparse]
    refine ⟨.inr (.inr ⟨rfl, hfalls⟩), fun hlast => ?_⟩
    obtain ⟨t, ht, hkind⟩ := hfalls.getLast
    obtain ⟨htrivia, hnewline⟩ := hlast t ht
    simp [htrivia, hnewline] at hkind

/-- A group that is not closed, with a blank at the end of the input: parsing comes to a hole. -/
theorem parse_broken_in_hole_unclosed :
    ∃ stops depth t, Parser.Visits (.skipTo stops depth) t Parser.program
      (.start (scan ['(', '1', ' ', '2', ' '] false).tokens 256 none) ∧ t.Hole := by
  have hbroken : (parse {} ['(', '1', ' ', '2', ' ']).toOption.isNone = true := by decide +kernel
  have hfuel : (match parse {} ['(', '1', ' ', '2', ' '] with
    | .error .outOfFuel => true
    | _ => false) = false := by decide +kernel
  rcases (parse_broken_in_hole {} ['(', '1', ' ', '2', ' ']).1 with ⟨p, hp, _⟩ | hp | ⟨_, stops, depth, t, hv, hole, _⟩
  · rw [hp] at hbroken
    cases hbroken
  · rw [hp] at hfuel
    cases hfuel
  · exact ⟨stops, depth, t, hv, hole⟩

end Remap
