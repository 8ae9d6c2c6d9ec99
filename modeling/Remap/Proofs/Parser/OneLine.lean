import Remap.Proofs.Parser.Closed
import Remap.Proofs.Parser.Visit

/-!
# Reading one line

Where no newline is left to read it makes no difference whether newlines separate statements: every routine does the same either
way, and leaves this as it was (`blind_rule`).
-/

namespace Remap.Parser

variable {α β : Type} {n : Nat}

namespace State

/-- No newline is left to read. -/
def OneLine (s : State) : Prop := ∀ t ∈ s.unread, t.kind ≠ .newline

theorem OneLine.of_suffix {s t : State} (h : s.OneLine) (hsuffix : t.unread <:+ s.unread) : t.OneLine :=
  fun x hx => h x (hsuffix.subset hx)

/-- The state where newlines separate statements, or where they do not. -/
def parted (s : State) (b : Bool) : State := { s with separating := b }

variable {s : State} (b : Bool)

theorem OneLine.skips (h : s.OneLine) {t : Token} (ht : t ∈ s.unread) : (s.parted b).skips t = s.skips t := by
  have hne : decide (t.kind = .newline) = false := decide_eq_false (h t ht)
  rw [State.skips, State.skips, hne, Bool.and_false, Bool.and_false]

theorem OneLine.skip (h : s.OneLine) : (s.parted b).skip = s.skip.parted b := by
  have hsame (ts : List Token) (hts : ∀ t ∈ ts, t ∈ s.unread) :
      ts.takeWhile (s.parted b).skips = ts.takeWhile s.skips ∧ ts.dropWhile (s.parted b).skips = ts.dropWhile s.skips := by
    induction ts with
    | nil => exact ⟨rfl, rfl⟩
    | cons t ts ih =>
      obtain ⟨htake, hdrop⟩ := ih fun x hx => hts x (List.mem_cons_of_mem _ hx)
      simp only [List.takeWhile_cons, List.dropWhile_cons, h.skips b (hts t List.mem_cons_self), htake, hdrop, and_self]
  obtain ⟨htake, hdrop⟩ := hsame s.unread fun _ ht => ht
  rw [skip_eq, skip_eq, show (s.parted b).unread = s.unread from rfl, htake, hdrop]
  rfl

theorem report_parted (s : State) (d : Diagnostic) : (s.parted b).report d = (s.report d).parted b := by
  rw [report_eq, report_eq]
  rfl

theorem foldl_report_parted (ds : List Diagnostic) (s : State) : ds.foldl report (s.parted b) = (ds.foldl report s).parted b := by
  induction ds generalizing s with
  | nil => rfl
  | cons d ds ih => rw [List.foldl_cons, List.foldl_cons, report_parted, ih]

end State

open State (OneLine)

/-- Whether an action has to do with whether newlines separate statements. -/
def Action.parts : {α : Type} → Action α → Bool
  | _, .setSeparating _ => true
  | _, _ => false

/-- Where no newline is left to read, any other action does the same whether newlines separate statements or not. -/
theorem perform_parted {action : Action α} (hparts : action.parts = false) {s : State} (h : s.OneLine) (b : Bool) :
    action.perform (s.parted b) = (action.perform s).map fun r => (r.1, r.2.parted b) := by
  cases action with
  | setSeparating c => cases hparts
  | peek | peekRaw =>
    simp only [Action.perform, h.skip, look]
    split <;> simp_all [State.parted, Except.map, State.nextKind]
  | touches | pushDelimiter k =>
    simp only [Action.perform, h.skip]
    rfl
  | settle =>
    simp only [Action.perform, h.skip]
    rw [State.drain_eq, State.drain_eq]
    rfl
  | openNode k | mark =>
    simp only [Action.perform]
    rw [State.drain_eq, State.drain_eq]
    rfl
  | closeNode | wrap k | unmark =>
    simp only [Action.perform, State.parted]
    split <;> simp_all [Except.map]
  | advance =>
    cases hu : s.unread with
    | nil => simp [Action.perform, State.parted, hu, Except.map]
    | cons t rest =>
      rw [State.perform_advance hu, State.perform_advance (show (s.parted b).unread = t :: rest from hu)]
      rfl
  | report p d =>
    simp only [Action.perform, h.skip, State.report_parted]
    rfl
  | reportUnclosed closer =>
    simp only [Action.perform, h.skip, show (s.skip.parted b).delimiters = s.skip.delimiters from rfl, State.report_parted]
    split <;> rfl
  | reportTarget flaw =>
    simp only [Action.perform, State.report_parted]
    rfl
  | checkParameters =>
    simp only [Action.perform]
    rw [State.reportParameters_eq, State.reportParameters_eq]
    exact congrArg (fun u => Except.ok ((), u)) (State.foldl_report_parted b s.parameterProblems s)
  | enter =>
    rw [State.perform_enter, State.perform_enter, apply_ite (Except.map _), apply_ite (Except.map _)]
    simp only [State.overrun, h.skip]
    rfl
  | ahead q | atEnd | stopped | leave | popDelimiter => rfl

/-- Where no newline is left to read, a routine does the same whether newlines separate statements or not. -/
def Blind (n : Nat) (x : Routine α) : Prop :=
  ∀ (s : State) (b : Bool), s.OneLine → x.run (runRule n) (s.parted b) = (x.run (runRule n) s).map fun r => (r.1, r.2.parted b)

/-- A routine inside which newlines separate, or do not. -/
theorem run_separating {c : Bool} {body : Routine α} (s : State) : (separating c body).run (runRule n) s =
    (body.run (runRule n) (s.parted c)).map fun r => (r.1, r.2.parted s.separating) := by
  show (body >>= fun a => act (.setSeparating s.separating) >>= fun _ => pure a).run (runRule n) (s.parted c) = _
  rw [Routine.bind_eq, Routine.run_bind]
  cases body.run (runRule n) (s.parted c) <;> rfl

namespace Blind

theorem done (a : α) : Blind n (pure a : Routine α) := fun _ _ _ => rfl

theorem fail (f : Fault) : Blind n (.fail f : Routine α) := fun _ _ _ => rfl

theorem act {action : Action α} (hparts : action.parts = false) : Blind n (Parser.act action) := by
  intro s b h
  rw [Routine.run_single, Routine.run_single, perform_parted hparts h]

theorem bind {x : Routine α} {f : α → Routine β} (hx : Blind n x) (hf : ∀ a, Blind n (f a)) : Blind n (x >>= f) := by
  intro s b h
  rw [Routine.bind_eq, Routine.run_bind, Routine.run_bind, hx s b h]
  cases hrun : x.run (runRule n) s with
  | error e => rfl
  | ok r => exact hf r.1 r.2 b (h.of_suffix (respected_suffix.run hrun))

/-- Inside it is the same, and after it what it was before. -/
theorem separating {c : Bool} {body : Routine α} : Blind n (Parser.separating c body) := by
  intro s b _
  rw [run_separating, run_separating, show (s.parted b).parted c = s.parted c from rfl]
  cases body.run (runRule n) (s.parted c) <;> rfl

theorem node {k : Kind} {body : Routine α} (h : Blind n body) : Blind n (Parser.node k body) :=
  .bind (.act rfl) fun _ => .bind h fun _ => .bind (.act rfl) fun _ => .done _

theorem marked {body : Routine α} (h : Blind n body) : Blind n (Parser.marked body) :=
  .bind (.act rfl) fun _ => .bind h fun _ => .bind (.act rfl) fun _ => .done _

theorem wrapped {k : Kind} {body : Routine α} (h : Blind n body) : Blind n (Parser.wrapped k body) :=
  .bind (.act rfl) fun _ => .bind h fun _ => .bind (.act rfl) fun _ => .done _

theorem nested {body : Routine Kind} (habsorb : Blind n (rule .absorb)) (h : Blind n body) : Blind n (Parser.nested body) := by
  refine .bind (.act rfl) fun entry => ?_
  cases entry with
  | entered => exact .bind h fun _ => .bind (.act rfl) fun _ => .done _
  | blocked => exact .done _
  | overflow => exact .bind (.node (.bind habsorb fun _ => .act rfl)) fun _ => .done _

end Blind

theorem Action.parts_of_isSimple {action : Action α} (h : action.isSimple = true) : action.parts = false := by
  cases action <;> first | rfl | cases h

theorem uniform_blind_of_rule (hrule : ∀ {γ : Type} (r : Rule γ), Blind n (rule r)) : Uniform fun {_} x => Blind n x where
  done := .done
  fail := .fail
  bind := .bind
  rule := hrule
  simple h := .act (Action.parts_of_isSimple h)
  marked := .marked
  separating _ _ := .separating
  nested := .nested (hrule .absorb)
  node _ := .node
  wrapped _ := .wrapped
  anyNode _ := .node
  anyWrapped _ := .wrapped

/-- Every rule does the same, by induction on the bound on nested rules. -/
theorem blind_rule (n : Nat) (r : Rule α) : Blind n (rule r) := by
  induction n generalizing α with
  | zero => exact fun _ _ _ => rfl
  | succ n ih =>
    have u : Uniform fun {_} x => Blind n x := uniform_blind_of_rule ih
    exact uniform_grammar u (uniform_objectOrBlock u (.act rfl)) r

theorem uniform_blind (n : Nat) : Uniform fun {_} x => Blind n x := uniform_blind_of_rule (blind_rule n)

end Remap.Parser
