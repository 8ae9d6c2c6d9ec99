import Remap.Proofs.Parser.Closed
import Remap.Proofs.Parser.Offsets

/-!
# What the parser reports

Every report of a run is there before or is made by one of its actions, and an action reports few problems. So what the parser reports
is never a problem that the scanner finds.
-/

namespace Remap.Parser

variable {α β : Type}

namespace State

theorem reports_report (s : State) (d : Diagnostic) : ∃ ds, (s.report d).reports = ds ++ s.reports ∧ ∀ e ∈ ds, e = d := by
  rw [report_eq]
  simp only
  split
  · exact ⟨[], rfl, fun e he => absurd he List.not_mem_nil⟩
  · exact ⟨[d], rfl, fun e he => List.mem_singleton.mp he⟩

theorem reports_foldl_report (ds : List Diagnostic) (s : State) :
    ∃ es, (ds.foldl report s).reports = es ++ s.reports ∧ ∀ e ∈ es, e ∈ ds := by
  induction ds generalizing s with
  | nil => exact ⟨[], rfl, fun e he => he⟩
  | cons d ds ih =>
    obtain ⟨xs, hxs, hx⟩ := s.reports_report d
    obtain ⟨es, hes, he⟩ := ih (s.report d)
    refine ⟨es ++ xs, by rw [List.foldl_cons, hes, hxs, List.append_assoc], fun e hmem => ?_⟩
    rcases List.mem_append.mp hmem with hmem | hmem
    · exact List.mem_cons_of_mem _ (he e hmem)
    · exact hx e hmem ▸ List.mem_cons_self

end State

/-- The problems that an action may report. -/
def Action.problems : {α : Type} → Action α → List Problem
  | _, .report p _ => [p, atEndOfInput p]
  | _, .reportUnclosed _ => [.unexpectedEndOfInput]
  | _, .reportTarget _ => [.invalidAssignmentTarget]
  | _, .checkParameters => [.duplicateClosureParam]
  | _, .enter => [.recursionLimitExceeded]
  | _, _ => []

/-- An action adds reports about its own problems only. -/
theorem reports_perform {action : Action α} {s t : State} {a : α} (h : action.perform s = .ok (a, t)) :
    ∃ ds, t.reports = ds ++ s.reports ∧ ∀ d ∈ ds, d.problem ∈ action.problems := by
  have hskip : s.skip.reports = s.reports := by rw [State.skip_eq]
  have hnone (heq : t.reports = s.reports) : ∃ ds, t.reports = ds ++ s.reports ∧ ∀ d ∈ ds, d.problem ∈ action.problems :=
    ⟨[], heq, fun d hd => absurd hd List.not_mem_nil⟩
  have hone {u : State} {d : Diagnostic} (hu : u.reports = s.reports) (ht : t = u.report d) (hd : d.problem ∈ action.problems) :
      ∃ ds, t.reports = ds ++ s.reports ∧ ∀ d ∈ ds, d.problem ∈ action.problems := by
    obtain ⟨ds, hds, hall⟩ := u.reports_report d
    exact ⟨ds, by rw [ht, hds, hu], fun e he => by rw [hall e he]; exact hd⟩
  cases action with
  | report p e =>
    cases h
    refine hone hskip rfl ?_
    simp only [Action.problems]
    split
    · exact List.mem_cons_of_mem _ List.mem_cons_self
    · exact List.mem_cons_self
  | reportUnclosed closer =>
    simp only [Action.perform] at h
    split at h <;> cases h
    · exact hnone hskip
    · exact hone hskip rfl List.mem_cons_self
  | reportTarget flaw =>
    cases h
    exact hone rfl rfl List.mem_cons_self
  | checkParameters =>
    cases h
    rw [State.reportParameters_eq]
    obtain ⟨es, hes, he⟩ := State.reports_foldl_report s.parameterProblems s
    refine ⟨es, hes, fun d hd => ?_⟩
    have hproblem := he d hd
    unfold State.parameterProblems at hproblem
    split at hproblem
    · obtain ⟨x, -, rfl⟩ := List.mem_map.mp hproblem
      exact List.mem_cons_self
    · cases hproblem
  | enter =>
    rw [State.perform_enter] at h
    split at h
    · cases h
      exact hnone rfl
    · split at h <;> cases h
      · exact hnone rfl
      · exact ⟨[s.skip.limitProblem], by rw [State.overrun, hskip]; rfl, fun d hd => by rw [List.mem_singleton.mp hd]; exact List.mem_cons_self⟩
  | _ => exact hnone (congrArg Prod.fst (said_perform rfl h))

/-! ## Problems of the scanner -/

/-- A routine reports no problem that the scanner finds. -/
def ReportsOwn (n : Nat) (x : Routine α) : Prop :=
  ∀ (s t : State) (a : α), x.run (runRule n) s = .ok (a, t) → ∀ d ∈ t.reports, d ∈ s.reports ∨ d.problem.isLexical = false

namespace ReportsOwn

variable {n : Nat}

theorem done (a : α) : ReportsOwn n (pure a : Routine α) := by
  intro s t b hrun d hd
  cases hrun
  exact .inl hd

theorem fail (f : Fault) : ReportsOwn n (.fail f : Routine α) := by
  intro s t b hrun
  cases hrun

theorem bind {x : Routine α} {f : α → Routine β} (hx : ReportsOwn n x) (hf : ∀ a, ReportsOwn n (f a)) : ReportsOwn n (x >>= f) := by
  intro s u b hrun d hd
  obtain ⟨a, t, hfirst, hrest⟩ := Routine.run_bind_eq_ok.mp hrun
  exact (hf a t u b hrest d hd).elim (hx s t a hfirst d) .inr

theorem act {action : Action α} (h : ∀ p ∈ action.problems, p.isLexical = false) : ReportsOwn n (Parser.act action) := by
  intro s t a hrun d hd
  rw [Routine.run_single] at hrun
  obtain ⟨ds, hds, hall⟩ := reports_perform hrun
  exact (List.mem_append.mp (hds ▸ hd)).symm.imp id fun hnew => h d.problem (hall d hnew)

/-- What is done between two actions that report nothing. -/
theorem between {γ δ : Type} {first : Action γ} {last : γ → Action δ} {body : Routine α} (hfirst : first.problems = [])
    (hlast : ∀ c, (last c).problems = []) (h : ReportsOwn n body) :
    ReportsOwn n (do let c ← Parser.act first; let a ← body; let _ ← Parser.act (last c); return a) :=
  .bind (.act (by simp [hfirst])) fun c => .bind h fun _ => .bind (.act (by simp [hlast c])) fun _ => .done _

theorem node {k : Kind} {body : Routine α} (h : ReportsOwn n body) : ReportsOwn n (Parser.node k body) :=
  between rfl (fun _ => rfl) h

theorem separating {body : Routine α} (b : Bool) (h : ReportsOwn n body) : ReportsOwn n (Parser.separating b body) :=
  between rfl (fun _ => rfl) h

theorem nested {body : Routine Kind} (hswallow : ReportsOwn n (rule .absorb)) (h : ReportsOwn n body) : ReportsOwn n (Parser.nested body) := by
  refine .bind (.act (by simp [Action.problems, Problem.isLexical, Problem.category])) fun entry => ?_
  cases entry with
  | entered => exact .bind h fun _ => .bind (.act nofun) fun _ => .done _
  | blocked => exact .done _
  | overflow => exact .bind (.node (.bind hswallow fun _ => .act nofun)) fun _ => .done _

end ReportsOwn

theorem isLexical_of_isCommon {action : Action α} (h : action.isCommon = true) : ∀ p ∈ action.problems, p.isLexical = false := by
  cases action with
  | report p d => cases p <;> first | (simp [Action.problems, atEndOfInput]; decide) | cases h
  | reportUnclosed closer | reportTarget flaw => simp [Action.problems, Problem.isLexical, Problem.category]
  | checkParameters | enter => cases h
  | _ => exact fun _ hp => absurd hp List.not_mem_nil

theorem reportsOwn_rule (n : Nat) (r : Rule α) : ReportsOwn n (rule r) := by
  induction n generalizing α with
  | zero => exact fun _ _ _ hrun => by cases hrun
  | succ n ih =>
    have l : Level fun {_} x => ReportsOwn n x := {
      done := .done, fail := .fail, bind := .bind, rule := fun _ => ih _
      simple := fun h => .act (isLexical_of_isCommon h)
      marked := .between rfl fun _ => rfl
      nested := .nested (ih _)
      node := fun _ => .node
      wrapped := fun _ => .between rfl fun _ => rfl
      levelNode := fun _ => .node
      levelWrapped := fun _ => .between rfl fun _ => rfl }
    have hclosure (hblock : ReportsOwn n block) : ReportsOwn n closure := by
      refine .node <| .bind (.act nofun) fun _ => .bind (.node (closed_parameterListBody l.toParts)) fun _ => ?_
      refine .bind (.act ?_) fun _ => .bind (closed_newlines l.toParts) fun _ => .bind hblock fun _ => .done _
      simp [Action.problems, Problem.isLexical, Problem.category]
    intro s t a hrun
    exact level_grammar l .separating (fun h _ _ => .node h) (.act nofun) (ih _) hclosure r s t a hrun

/-- Nothing that is reported about a program is a problem that the scanner finds. -/
theorem isLexical_program {n : Nat} {s t : State} (hs : s.reports = []) (hrun : program.run (runRule n) s = .ok ((), t)) :
    ∀ d ∈ t.reports, d.problem.isLexical = false := by
  have hprogram : ReportsOwn n program := .node <| .bind (reportsOwn_rule n _) fun _ => .act nofun
  intro d hd
  refine (hprogram s t () hrun d hd).resolve_left ?_
  rw [hs]
  exact List.not_mem_nil

end Remap.Parser
