import Remap.Parser.Action

/-!
# What the operations of a state change

Each operation of the parser's state is a record update. The equations here say which fields it writes and with what, so
that any other field is seen to be unchanged by looking at the equation.
-/

namespace Remap

/-- The leaf a token becomes. -/
def Token.leaf (t : Token) : Tree := .leaf t.kind t.text

/-- The kind and text of a token: what its leaf keeps of it. -/
def Token.piece (t : Token) : Kind × Text := (t.kind, t.text)

namespace Parser

namespace State

/-- Passing over trivia moves the longest run of skipped tokens from the unread ones to the held ones. -/
theorem skip_eq (s : State) :
    s.skip = { s with held := s.held ++ s.unread.takeWhile s.skips, unread := s.unread.dropWhile s.skips } := by
  obtain ⟨unread, held, top, below, placed, lastEnd, reports, lastReport, delimiters, separating, depth, limit, overflowed,
    patience, fuel, exhausted⟩ := s
  cases unread with
  | nil => simp [skip]
  | cons t rest =>
    simp only [skip]
    split
    · rfl
    · rename_i h
      simp [h]

/-- The state after a look at the next token, which passes over the trivia before it. -/
def looked (s : State) : State := { s.skip with patience := s.patience - 1 }

/-- Looking at the next token replies with its kind. -/
theorem of_perform_peek {s t : State} {k : Kind} (h : Action.peek.perform s = .ok (k, t)) : k = s.looked.nextKind ∧ t = s.looked := by
  have hpatience : s.skip.patience = s.patience := by rw [skip_eq]
  simp only [Action.perform, look, hpatience] at h
  split at h <;> cases h
  exact ⟨rfl, rfl⟩

/-- The size of a row of tokens. -/
def sizeOfTokens (ts : List Token) : Nat := Tree.bytesOf (ts.map Token.leaf)

theorem foldl_place (ts : List Token) (s : State) :
    ts.foldl (fun s t => s.place (.leaf t.kind t.text)) s =
      { s with
        top := { s.top with built := (ts.map Token.leaf).reverse ++ s.top.built }
        placed := s.placed + sizeOfTokens ts } := by
  induction ts generalizing s with
  | nil => simp [sizeOfTokens, Tree.bytesOf]
  | cons t ts ih =>
    rw [List.foldl_cons, ih]
    simp [place, sizeOfTokens, Tree.bytesOf, Tree.bytes, Token.leaf, Nat.add_assoc]

/-- Placing the held trivia adds its leaves to the innermost frame. -/
theorem drain_eq (s : State) :
    s.drain =
      { s with
        top := { s.top with built := (s.held.map Token.leaf).reverse ++ s.top.built }
        placed := s.placed + sizeOfTokens s.held
        held := [] } := by
  rw [drain, foldl_place]

/-- The state with a new innermost frame after the trivia held back: a node if it has a label, else a mark. -/
def pushed (s : State) (label : Option Kind) : State :=
  { s.drain with top := ⟨label, s.drain.placed, []⟩, below := s.drain.top :: s.drain.below }

theorem perform_openNode (s : State) (k : Kind) : (Action.openNode k).perform s = .ok ((), s.pushed (some k)) := rfl

theorem perform_mark (s : State) : Action.mark.perform s = .ok ((), s.pushed none) := rfl

/-- The state one level deeper. -/
def deeper (s : State) : State := { s with depth := s.depth + 1 }.refresh

/-- The state one level less deep. -/
def shallower (s : State) : State := { s with depth := s.depth - 1 }.refresh

/-- The diagnostic of a limit that is hit at the next token. -/
def limitProblem (s : State) : Diagnostic :=
  { problem := .recursionLimitExceeded, span := s.here, detail := some (.levels s.limit) }

/-- The state in which the limit was just hit. -/
def overrun (s : State) : State :=
  { s.skip with reports := s.skip.limitProblem :: s.skip.reports, overflowed := true }

theorem perform_enter (s : State) :
    Action.enter.perform s =
      if s.overflowed then .ok (.blocked, s)
      else if s.depth < s.limit then .ok (.entered, s.deeper)
      else .ok (.overflow, s.overrun) := rfl

/-- Using up fuel touches the fuel and whether it ran out. -/
theorem burn_eq (s : State) :
    s.burn = { s with fuel := s.fuel.map (· - 1), exhausted := s.exhausted || s.fuel == some 0 } := by
  obtain ⟨unread, held, top, below, placed, lastEnd, reports, lastReport, delimiters, separating, depth, limit, overflowed,
    patience, fuel, exhausted⟩ := s
  rcases fuel with _ | _ | n <;> simp [burn]

/-- Noting an end touches nothing else. -/
theorem noteEnd_eq (s : State) (t : Token) :
    s.noteEnd t =
      { s with lastEnd := if t.kind.isTrivia || t.kind = .newline then s.lastEnd else some t.stop } := by
  unfold noteEnd
  split <;> rfl

/-- The state after a token was consumed, with `rest` left to read. -/
def consumed (s : State) (t : Token) (rest : List Token) : State :=
  { s with
    unread := rest
    held := []
    top := { s.top with built := t.leaf :: ((s.held.map Token.leaf).reverse ++ s.top.built) }
    placed := s.placed + sizeOfTokens s.held + t.text.bytes
    lastEnd := if t.kind.isTrivia || t.kind = .newline then s.lastEnd else some t.stop
    patience := maxPatience
    fuel := s.fuel.map (· - 1)
    exhausted := s.exhausted || s.fuel == some 0 }

/-- Consuming a token places it after what was held back, renews the patience and uses up fuel. -/
theorem perform_advance {s : State} {t : Token} {rest : List Token} (h : s.unread = t :: rest) :
    Action.advance.perform s = .ok ((), s.consumed t rest) := by
  simp only [Action.perform, h, noteEnd_eq, drain_eq, place, refresh, burn_eq, consumed]
  rfl

theorem of_perform_advance {s t : State} {a : Unit} (h : Action.advance.perform s = .ok (a, t)) :
    ∃ token rest, s.unread = token :: rest ∧ t = s.consumed token rest := by
  cases hunread : s.unread with
  | nil => simp [Action.perform, hunread] at h
  | cons token rest =>
    rw [perform_advance hunread] at h
    cases h
    exact ⟨token, rest, rfl, rfl⟩

/-- Whether a diagnostic at an offset is left out. -/
def mutes (s : State) (offset : Nat) : Bool := s.overflowed || s.lastReport = some offset

/-- Reporting touches the reports and where the last one was made. -/
theorem report_eq (s : State) (d : Diagnostic) :
    s.report d =
      { s with
        reports := if s.mutes d.span.start then s.reports else d :: s.reports
        lastReport := if s.mutes d.span.start then s.lastReport else some d.span.start } := by
  unfold report mutes
  split <;> rfl

/-- Reporting several diagnostics in turn touches the reports and where the last one was made. -/
theorem foldl_report (ds : List Diagnostic) (s : State) :
    ∃ reports lastReport, ds.foldl State.report s = { s with reports := reports, lastReport := lastReport } := by
  induction ds generalizing s with
  | nil => exact ⟨s.reports, s.lastReport, rfl⟩
  | cons d ds ih =>
    obtain ⟨reports, lastReport, h⟩ := ih (s.report d)
    refine ⟨reports, lastReport, ?_⟩
    rw [List.foldl_cons, h, report_eq]

/-- The diagnostics about the repeated names in the parameter list just built. -/
def parameterProblems (s : State) : List Diagnostic :=
  match s.top.built with
  | .node .closureParams cs :: _ =>
    (repeatedParameters [] (parametersOf (s.placed - Tree.bytesOf cs) cs)).map fun (name, span, first) =>
      { problem := .duplicateClosureParam, span, detail := some (.quote name), related := [⟨first, .firstDefined⟩] }
  | _ => []

/-- Checking the parameters reports what is wrong with them, one diagnostic after the other. -/
theorem reportParameters_eq (s : State) : s.reportParameters = s.parameterProblems.foldl State.report s := by
  unfold reportParameters
  split
  · rename_i cs rest h
    simp only [parameterProblems, h, List.foldl_map]
  · rename_i h
    unfold parameterProblems
    split
    · rename_i h'
      exact absurd h' (h _ _)
    · rfl

/-! ## What is left to read -/

@[simp] theorem unread_report (s : State) (d : Diagnostic) : (s.report d).unread = s.unread := by
  rw [report_eq]

@[simp] theorem unread_reportParameters (s : State) : s.reportParameters.unread = s.unread := by
  rw [reportParameters_eq]
  obtain ⟨reports, lastReport, h⟩ := foldl_report s.parameterProblems s
  rw [h]

@[simp] theorem unread_drain (s : State) : s.drain.unread = s.unread := by
  rw [drain_eq]

theorem unread_skip (s : State) : s.skip.unread = s.unread.dropWhile s.skips := by
  rw [skip_eq]

@[simp] theorem unread_pushed (s : State) (label : Option Kind) : (s.pushed label).unread = s.unread := s.unread_drain

/-- What comes first when less is dropped comes first when more is, unless it is dropped itself. -/
theorem dropWhile_eq_of_le {p q : Token → Bool} (hpq : ∀ t, p t = true → q t = true) {ts : List Token}
    (h : (ts.dropWhile p).head?.any (!q ·) = true) : ts.dropWhile q = ts.dropWhile p := by
  induction ts with
  | nil => rfl
  | cons t ts ih =>
    rw [List.dropWhile_cons] at h ⊢
    rw [List.dropWhile_cons]
    by_cases hp : p t = true
    · rw [if_pos hp] at h ⊢
      rw [if_pos (hpq t hp)]
      exact ih h
    · rw [if_neg hp] at h ⊢
      rw [if_neg (by simpa using h)]

/-- The token that a question about the tokens ahead finds is the one after trivia. -/
theorem nextKind_skip_of_startsWith {s : State} {k : Kind} (htrivia : k.isTrivia = false) (hne : k ≠ .newline)
    (h : Lookahead.startsWith k (Lookahead.significant false s.unread) = true) : s.skip.nextKind = k := by
  cases hts : Lookahead.significant false s.unread with
  | nil => simp [hts, Lookahead.startsWith] at h
  | cons t rest =>
    have hkind : t.kind = k := by simpa [hts, Lookahead.startsWith] using h
    have hdrop : s.skip.unread = Lookahead.significant false s.unread := by
      rw [unread_skip]
      refine dropWhile_eq_of_le (fun t ht => ?_) ?_
      · simp only [Bool.false_and, Bool.or_false] at ht
        simp [skips, ht]
      · unfold Lookahead.significant at hts
        rw [hts]
        simp [skips, hkind, htrivia, hne]
    simp only [nextKind, hdrop, hts, hkind]

end State

end Parser

end Remap
