import Remap.Proofs.Parser.Delimiters
import Remap.Proofs.Parser.Founded
import Remap.Proofs.RaisedLimit

/-!
# What diagnostics point to

Whatever a parse says is said about a place in the source: every span of a diagnostic can be cut out of the source, and is empty only
at its end. What ends too early is reported at the end. What is unexpected or missing is reported at a token that is no trivia. And
a remark about an open delimiter points to the token that opened it, while the message names what would close it.
-/

namespace Remap

/-- A remark about an open delimiter stands with what closes it. -/
def Diagnostic.Mated (d : Diagnostic) : Prop :=
  ∀ r ∈ d.related, ∀ k, r.remark = .opened k →
    ∃ closer, k.mate? = some closer ∧ d.detail = some (.expected (.delimiter closer))

namespace Parser

variable {α : Type}

theorem mated_of_related {d : Diagnostic} (h : d.related = []) : d.Mated := by
  intro r hr
  rw [h] at hr
  cases hr

theorem mated_parameterProblems (s : State) : ∀ d ∈ s.parameterProblems, d.Mated := by
  intro d hd
  unfold State.parameterProblems at hd
  split at hd
  · obtain ⟨x, -, rfl⟩ := List.mem_map.mp hd
    intro r hr k hk
    rw [List.mem_singleton.mp hr] at hk
    cases hk
  · cases hd

/-- An action says about an open delimiter only what closes it. -/
theorem mated_perform {action : Action α} {ks : List Kind} {s t : State} {a : α} (h : action.perform s = .ok (a, t))
    (hpairs : action.pairs ks) (hks : ks <+: s.openKinds) (hs : ∀ d ∈ s.reports, d.Mated) : ∀ d ∈ t.reports, d.Mated := by
  have hskip : s.skip.reports = s.reports := by rw [State.skip_eq]
  have hreport {u : State} (hu : ∀ d ∈ u.reports, d.Mated) {d : Diagnostic} (hd : d.Mated) : ∀ e ∈ (u.report d).reports, e.Mated := by
    intro e he
    rw [State.report_eq] at he
    simp only at he
    split at he
    · exact hu e he
    · exact (List.mem_cons.mp he).elim (fun he => he ▸ hd) (hu e)
  cases action with
  | report p d =>
    cases h
    exact hreport (hskip ▸ hs) (mated_of_related rfl)
  | reportUnclosed closer =>
    simp only [Action.perform] at h
    split at h
    · cases h
      exact hskip ▸ hs
    · rename_i d ds hd
      cases h
      refine hreport (hskip ▸ hs) fun r hr k hk => ⟨closer, ?_, rfl⟩
      rw [List.mem_singleton.mp hr] at hk
      obtain rfl : d.kind = k := Remark.opened.inj hk
      -- the innermost delimiter is the one that the routine opened
      have hkinds : s.openKinds = d.kind :: ds.map (·.kind) := by
        have hsame : s.skip.delimiters = s.delimiters := by rw [State.skip_eq]
        rw [State.openKinds, ← hsame, hd, List.map_cons]
      cases ks with
      | nil => cases hpairs
      | cons k ks =>
        obtain rfl : k = d.kind := (List.cons_prefix_cons.mp (hkinds ▸ hks)).1
        exact hpairs
  | reportTarget flaw =>
    cases h
    exact hreport hs (mated_of_related rfl)
  | checkParameters =>
    cases h
    rw [State.reportParameters_eq]
    have hfold (ds : List Diagnostic) (hds : ∀ d ∈ ds, d.Mated) (u : State) (hu : ∀ d ∈ u.reports, d.Mated) :
        ∀ d ∈ (ds.foldl State.report u).reports, d.Mated := by
      induction ds generalizing u with
      | nil => exact hu
      | cons d ds ih =>
        exact ih (fun e he => hds e (List.mem_cons_of_mem _ he)) _ (hreport hu (hds d List.mem_cons_self))
    exact hfold _ (mated_parameterProblems s) s hs
  | enter =>
    rw [State.perform_enter] at h
    split at h
    · cases h
      exact hs
    · split at h <;> cases h
      · exact hs
      · intro d hd
        rcases List.mem_cons.mp hd with rfl | hd
        · exact mated_of_related rfl
        · exact hs d (hskip ▸ hd)
  | _ =>
    have hsame : t.reports = s.reports := congrArg Prod.fst (said_perform rfl h)
    exact hsame ▸ hs

end Parser

/-- What is written where a delimiter is opened, and where it is closed. -/
def Kind.delimiterPairs : List (String × String) := [("(", ")"), ("[", "]"), ("\x7b", "\x7d"), ("|", "|")]

/-- A delimiter that can be closed is written in one way only, as is what closes it. -/
theorem Kind.mem_delimiterPairs {k closer : Kind} (h : k.mate? = some closer) :
    ∃ s, k.spelling? = some s ∧ (s, closer.delimiterText) ∈ delimiterPairs := by
  cases k <;> cases h
  all_goals exact ⟨_, rfl, by decide⟩

/-- The message about a delimiter that is not closed. -/
theorem message_unclosed (closer : Kind) : Problem.message .unexpectedEndOfInput (some (Detail.expected (.delimiter closer)).text) =
    "unexpected end of input: expected `" ++ closer.delimiterText ++ "`" := by
  have hdetail : (Detail.expected (.delimiter closer)).text = "expected `" ++ closer.delimiterText ++ "`" := rfl
  have hopening : "unexpected end of input: expected `" = "unexpected end of input: " ++ "expected `" := by decide +kernel
  rw [hdetail, hopening]
  generalize closer.delimiterText = text
  simp only [Problem.message, Wording.fill, Problem.wording, Problem.summary, String.append_assoc]
  rfl

/-- A diagnostic points to places in the source: all that is said about its spans. -/
structure Diagnostic.Points (source : Text) (tokens : List Token) (d : Diagnostic) : Prop where
  span : d.span.Fits source
  related : ∀ r ∈ d.related, r.span.Fits source
  ending : d.problem = .unexpectedEndOfInput → d.span = .empty source.bytes
  token : d.problem.aboutToken → d.span.start < d.span.stop ∧ ∃ t ∈ tokens, t.kind.isTrivia = false ∧ d.span = t.span
  opener : d.problem = .unexpectedEndOfInput → ∀ r ∈ d.related, ∃ t ∈ tokens, ∃ closer : Kind,
    r.span = t.span ∧ (String.ofList t.text, closer.delimiterText) ∈ Kind.delimiterPairs ∧
      d.message = "unexpected end of input: expected `" ++ closer.delimiterText ++ "`"

/-- What the scanner says points to places in the source. -/
theorem Diagnostic.Cites.points {source : Text} {d : Diagnostic} (h : d.Cites source) (tokens : List Token) : d.Points source tokens := by
  obtain ⟨t, ht, hholds⟩ := h.span
  have hnot {p : Problem} (hp : p.isLexical = false) (hd : d.problem = p) : False := by
    have hlexical := h.lexical
    rw [hd, hp] at hlexical
    cases hlexical
  refine ⟨hholds.fits ht, fun r hr => ?_, fun hend => (hnot rfl hend).elim, fun htoken => ?_, fun hend => (hnot rfl hend).elim⟩
  · rw [h.related] at hr
    cases hr
  · rcases htoken with hd | hd | hd <;> exact (hnot rfl hd).elim

/-- What the parser says points to places in the source. -/
theorem Diagnostic.Founded.points {source : Text} {checkPatterns : Bool} {d : Diagnostic}
    (h : d.Founded ((scan source checkPatterns).tokens.map Token.piece)) (hmated : d.Mated) :
    d.Points source (scan source checkPatterns).tokens := by
  have htokens : Token.place 0 none ((scan source checkPatterns).tokens.map Token.piece) = (scan source checkPatterns).tokens := by
    rw [scan, Token.map_piece_place]
  obtain ⟨hspan, hrelated, hending, htoken⟩ := h
  rw [spelled_scan] at hspan hrelated hending
  rw [htokens] at hending htoken
  refine ⟨hspan, hrelated, fun hend => (hending hend).1, fun hproblem => ?_, fun hend r hr => ?_⟩
  · obtain ⟨t, ht, htrivia, heq⟩ := htoken hproblem
    refine ⟨?_, t, ht, htrivia, heq⟩
    have hpos := Text.bytes_pos (fit_scan ht).1
    simp only [heq, Token.span, Token.stop]
    omega
  · obtain ⟨t, ht, rfl⟩ := (hending hend).2 r hr
    obtain ⟨closer, hmate, hdetail⟩ := hmated _ hr t.kind rfl
    obtain ⟨s, hspelling, hpair⟩ := Kind.mem_delimiterPairs hmate
    refine ⟨t, ht, closer, rfl, ?_, ?_⟩
    · rw [(fit_scan ht).2 s hspelling, String.ofList_toList]
      exact hpair
    · rw [Diagnostic.message, hend, hdetail]
      exact message_unclosed closer

/-- A source that is parsed, whatever the options. Every span of a diagnostic can be cut out of the source and is empty only at the end
of the source. An unexpected end is reported there; a missing expression or separator and an unexpected token at a token that is no
trivia and not empty. A remark about an unexpected end points to a token that opens a delimiter, and the message names what closes it. -/
theorem parse_points {o : Options} {source : Text} {p : Parsed} (hp : parse o source = .ok p) :
    ∀ d ∈ p.diagnostics, d.Points source (scan source o.checkPatterns).tokens := by
  obtain ⟨r, hr, hfuel, rfl⟩ := parse_eq_ok hp
  obtain ⟨t, hrun, hfinish⟩ := Parser.parseTokens_eq_ok.mp hr
  have hholds := Parser.State.holds_of_finish hfinish
  have htokens : Token.place 0 none ((scan source o.checkPatterns).tokens.map Token.piece) = (scan source o.checkPatterns).tokens := by
    rw [scan, Token.map_piece_place]
  intro d hd
  obtain ⟨e, he, rfl⟩ := List.mem_map.mp hd
  have hpoints : e.Points source (scan source o.checkPatterns).tokens := by
    rcases List.mem_append.mp (List.mem_mergeSort.mp he) with he | he
    · exact (cites_scan source o.checkPatterns e he).points _
    · rw [hholds.reports, List.mem_reverse] at he
      have hmated := Parser.balanced_program.keeps Parser.mated_perform hrun fun d hd => absurd hd List.not_mem_nil
      rw [← htokens] at hrun
      have hpieces : ∀ p ∈ (scan source o.checkPatterns).tokens.map Token.piece, p.2 ≠ [] := by
        intro p hp
        obtain ⟨t, ht, rfl⟩ := List.mem_map.mp hp
        exact (fit_scan ht).1
      have hfounded := Parser.founded_program hpieces hrun (hholds.exhausted ▸ hfuel)
      exact (hfounded.reports e he).points (hmated e he)
  exact ⟨hpoints.span, hpoints.related, hpoints.ending, hpoints.token, hpoints.opener⟩

/-- Behind a character of two bytes, an operator where a value should stand, and then a bracket that is never closed. -/
theorem parse_points_unclosed :
    ∃ p d r, parse {} "[é = ; (1".toList = .ok p ∧ d ∈ p.diagnostics ∧ d.problem = .unexpectedEndOfInput ∧ r ∈ d.related ∧
      d.Points "[é = ; (1".toList (scan "[é = ; (1".toList false).tokens := by
  have hreported : (Parser.parseTokens (scan "[é = ; (1".toList false).tokens 256 none).toOption.any (fun r =>
      !r.exhausted && r.diagnostics.any fun d => d.problem == .unexpectedEndOfInput && !d.related.isEmpty) = true := by
    decide +kernel
  cases hr : Parser.parseTokens (scan "[é = ; (1".toList false).tokens 256 none with
  | error f => rw [hr] at hreported; cases hreported
  | ok result =>
    rw [hr] at hreported
    simp only [Except.toOption, Option.any_some, Bool.and_eq_true, Bool.not_eq_true'] at hreported
    obtain ⟨d, hd, hproblem⟩ := List.any_eq_true.mp hreported.2
    simp only [Bool.and_eq_true, beq_iff_eq, Bool.not_eq_true', List.isEmpty_eq_false_iff] at hproblem
    obtain ⟨r, more, hrelated⟩ := List.exists_cons_of_ne_nil hproblem.2
    have hp : ∃ p, parse {} "[é = ; (1".toList = .ok p ∧ d.locate "[é = ; (1".toList ∈ p.diagnostics := by
      refine ⟨_, by rw [parse, hr]; exact if_neg (by simp [hreported.1]), ?_⟩
      exact List.mem_map_of_mem (List.mem_mergeSort.mpr (List.mem_append_right _ hd))
    obtain ⟨p, hp, hmem⟩ := hp
    exact ⟨p, _, r, hp, hmem, hproblem.1, hrelated ▸ List.mem_cons_self, parse_points hp _ hmem⟩

end Remap
