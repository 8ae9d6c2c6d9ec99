import Remap.Proofs.Parser.Closed
import Remap.Proofs.Parser.Mirror
import Remap.Proofs.Parser.Scope
import Remap.Proofs.Parser.Visit
import Remap.Proofs.Token.Join

/-!
# Reading up to a seam

One run reads a row of tokens by itself, another one reads it with other trivia at its end and then a token that stops it and a second row,
or nothing. As long as a token is left in the first row that is not passed over, the two take the same steps (`perform_abreast`). So
whatever ends before a closing delimiter does the same in both runs (`Fences`), and whatever needs a closing delimiter to end without a
report does the same if it does end so (`Brackets`).
-/

namespace Remap

/-- What closes a delimited region. -/
def Kind.isFence : Kind → Bool
  | .parenClose | .bracketClose | .braceClose | .pipe => true
  | _ => false

theorem Kind.of_isFence {k : Kind} (h : k.isFence = true) :
    k.isTrivia = false ∧ k ≠ .newline ∧ k ≠ .doubleQuote ∧ k ≠ .braceOpen ∧
      k ∉ [Kind.strText, .escape, .templateOpen, .whitespace, .id, .templateClose] := by
  revert h
  cases k <;> decide

namespace Parser

variable {α β : Type}

namespace State

/-- The state with other tokens left to read and others held back. -/
def reading (s : State) (unread held : List Token) : State := { s with unread := unread, held := held }

/-- There is a token left to read that is not passed over. -/
def Stops (s : State) : Prop := ∃ t ∈ s.unread, s.skips t = false

variable (s : State) (u h : List Token)

theorem report_reading (d : Diagnostic) : (s.reading u h).report d = (s.report d).reading u h := by
  rw [report_eq, report_eq]
  rfl

theorem foldl_report_reading (ds : List Diagnostic) : ds.foldl report (s.reading u h) = (ds.foldl report s).reading u h := by
  induction ds generalizing s with
  | nil => rfl
  | cons d ds ih => rw [List.foldl_cons, List.foldl_cons, report_reading, ih]

theorem reportParameters_reading : (s.reading u h).reportParameters = s.reportParameters.reading u h := by
  rw [reportParameters_eq, reportParameters_eq]
  exact foldl_report_reading s u h _

end State

/-- Whether an action looks neither at what is left to read nor at what is held back. -/
def Action.isInner : {α : Type} → Action α → Bool
  | _, .closeNode | _, .wrap _ | _, .unmark | _, .leave | _, .popDelimiter | _, .setSeparating _ | _, .reportTarget _
  | _, .checkParameters => true
  | _, _ => false

theorem perform_reading {action : Action α} (hinner : action.isInner = true) (s : State) (u h : List Token) :
    action.perform (s.reading u h) = (action.perform s).map fun r => (r.1, r.2.reading u h) := by
  cases action with
  | closeNode | wrap k | unmark =>
    simp only [Action.perform, State.reading]
    split <;> simp_all [Except.map]
  | leave | popDelimiter | setSeparating b => rfl
  | reportTarget flaw =>
    simp only [Action.perform, State.report_reading]
    rfl
  | checkParameters =>
    simp only [Action.perform, State.reportParameters_reading]
    rfl
  | _ => cases hinner

/-- An inner action leaves the tokens alone. -/
theorem reading_of_isInner {action : Action α} (hinner : action.isInner = true) {s t : State} {a : α}
    (hp : action.perform s = .ok (a, t)) : t.unread = s.unread ∧ t.held = s.held := by
  have heq := perform_reading hinner s s.unread s.held
  rw [show s.reading s.unread s.held = s from rfl, hp] at heq
  simp only [Except.map, Except.ok.injEq, Prod.mk.injEq, true_and] at heq
  rw [heq]
  exact ⟨rfl, rfl⟩

/-! ## Two runs abreast -/

/-- What may be left of the first row: it does not end with trivia, and together with its tail it has no open template, and
tidy tokens after every brace. -/
structure Fronts {stop : Kind} (j : Seam stop) (front : List Token) : Prop where
  firm : Firm front
  whole : Whole (front ++ j.tail)
  braced : Braced (front ++ j.tail)

theorem Fronts.of_suffix {stop : Kind} {j : Seam stop} {ts us : List Token} (h : Fronts j ts) (hus : us <:+ ts) : Fronts j us := by
  have hsuffix : us ++ j.tail <:+ ts ++ j.tail := by
    obtain ⟨before, rfl⟩ := hus
    exact ⟨before, (List.append_assoc _ _ _).symm⟩
  exact ⟨h.firm.of_suffix hus, h.whole.of_suffix hsuffix, h.braced.of_suffix hsuffix⟩

/-- Both states stand at the same token of the first row, and differ in nothing but what comes after that row. -/
def Abreast {stop : Kind} (j : Seam stop) (s s' : State) : Prop :=
  ∃ front, Fronts j front ∧ s.unread = front ++ j.tail ∧ s' = s.reading (front ++ j.rest) s.held

section Abreast

variable {stop : Kind} {j : Seam stop} {s s' : State}

theorem skips_tail (s : State) {t : Token} (ht : t ∈ j.tail) : s.skips t = true := by
  rw [State.skips, j.tail_trivia t ht, Bool.true_or]

/-- What the grammar asks for before it reads on is neither trivia nor what stops the first row. -/
theorem sought (j : Seam stop) {k : Kind} (hk : k ∈ [Kind.parenOpen, .colon, .integer, .float, .bang]) :
    k.isTrivia = false ∧ k ≠ stop := by
  simp only [List.mem_cons, List.not_mem_nil, or_false] at hk
  rcases j.kind_cases with rfl | rfl | rfl <;> rcases hk with rfl | rfl | rfl | rfl | rfl <;> decide

/-- A question about the next token that is no trivia finds neither trivia nor the end of the first row. -/
theorem startsWith_significant {k : Kind} (hk : k ≠ stop) (ts : List Token) :
    Lookahead.startsWith k (Lookahead.significant false (ts ++ j.rest)) =
      Lookahead.startsWith k (Lookahead.significant false (ts ++ j.tail)) := by
  have htail : Lookahead.significant false j.tail = [] := by
    unfold Lookahead.significant
    rw [← List.append_nil j.tail, List.dropWhile_append_of_pos fun t ht => by simp [j.tail_trivia t ht], List.dropWhile_nil]
  have hrest : Lookahead.significant false j.rest = j.next := by
    unfold Lookahead.significant Seam.rest
    rw [List.dropWhile_append_of_pos fun t ht => by simp [j.gap_trivia t ht]]
    cases hnext : j.next with
    | nil => rfl
    | cons x after =>
      have hx := j.kind_of_mem_next x (by rw [hnext]; rfl)
      simp [hx, j.solid]
  unfold Lookahead.significant at htail hrest ⊢
  rw [List.dropWhile_append, List.dropWhile_append]
  split
  · rw [htail, hrest]
    refine (Bool.eq_false_iff.mpr fun hstarts => ?_).trans (show Lookahead.startsWith k [] = false from rfl).symm
    obtain ⟨x, hx, hkind⟩ := (Option.any_eq_true _ _).mp hstarts
    exact hk ((of_decide_eq_true hkind).symm.trans (j.kind_of_mem_next x hx))
  · rename_i hne
    rw [List.isEmpty_iff] at hne
    obtain ⟨t, more, hdrop⟩ := List.exists_cons_of_ne_nil hne
    rw [hdrop]
    rfl

theorem head?_any_tail {p : Token → Bool} (hp : ∀ t, p t = true → t.kind.isTrivia = false ∧ t.kind ≠ stop) :
    j.rest.head?.any p = false ∧ j.tail.head?.any p = false := by
  have hnone {ts : List Token} (hts : ∀ t ∈ ts.head?, t.kind.isTrivia = true ∨ t.kind = stop) : ts.head?.any p = false := by
    refine Bool.eq_false_iff.mpr fun h => ?_
    obtain ⟨t, ht, hk⟩ := (Option.any_eq_true _ _).mp h
    obtain ⟨hsolid, hne⟩ := hp t hk
    rcases hts t ht with h | h
    · rw [hsolid] at h
      cases h
    · exact hne h
  exact ⟨hnone j.head?_rest, hnone fun t ht => .inl (j.tail_trivia t (List.mem_of_mem_head? ht))⟩

theorem isCall_eq {ts : List Token} (h : ts.head?.any (fun t => decide (t.kind = .bang)) = false) :
    Lookahead.isCall ts = Lookahead.startsWith .parenOpen (Lookahead.significant false ts) := by
  cases ts with
  | nil => rfl
  | cons t ts =>
    have ht : t.kind ≠ .bang := by simpa using h
    simp [Lookahead.isCall, ht]

/-- A question about the tokens close by has the same answer. -/
theorem holds_abreast {q : Lookahead} (hq : q.isNear = true) {front : List Token} (hne : front ≠ []) :
    q.holds (front ++ j.rest) = q.holds (front ++ j.tail) := by
  obtain ⟨t, ts, rfl⟩ := List.exists_cons_of_ne_nil hne
  cases q with
  | opensObject => cases hq
  | namesArgument => exact startsWith_significant (sought j (by decide)).2 ts
  | signs number =>
    cases ts with
    | cons u ts => rfl
    | nil =>
      have hnumber : ∀ t : Token, (decide (t.kind = number) && t.immediate) = true → t.kind.isTrivia = false ∧ t.kind ≠ stop := by
        intro t ht
        simp only [Bool.and_eq_true, decide_eq_true_eq] at ht
        simp only [Lookahead.isNear, Bool.or_eq_true, decide_eq_true_eq] at hq
        rcases hq with rfl | rfl <;> rw [ht.1] <;> exact sought j (by decide)
      obtain ⟨hrest, htail⟩ := head?_any_tail (j := j) hnumber
      exact hrest.trans htail.symm
  | startsCall =>
    cases ts with
    | nil =>
      have hbang : ∀ t : Token, decide (t.kind = .bang) = true → t.kind.isTrivia = false ∧ t.kind ≠ stop := by
        intro t ht
        rw [of_decide_eq_true ht]
        exact sought j (by decide)
      obtain ⟨hrest, htail⟩ := head?_any_tail (j := j) hbang
      show Lookahead.isCall j.rest = Lookahead.isCall j.tail
      rw [isCall_eq hrest, isCall_eq htail]
      exact startsWith_significant (sought j (by decide)).2 []
    | cons u ts =>
      show Lookahead.isCall (u :: ts ++ j.rest) = Lookahead.isCall (u :: ts ++ j.tail)
      simp only [Lookahead.isCall, List.cons_append]
      have hparen : Kind.parenOpen ≠ stop := (sought j (by decide)).2
      have hcall := startsWith_significant (j := j) hparen (u :: ts)
      have hbang := startsWith_significant (j := j) hparen ts
      simp only [List.cons_append] at hcall
      rw [hcall, hbang]

theorem Abreast.drain (h : Abreast j s s') : Abreast j s.drain s'.drain := by
  obtain ⟨front, hfronts, hunread, rfl⟩ := h
  refine ⟨front, hfronts, by rw [State.unread_drain, hunread], ?_⟩
  rw [State.drain_eq, State.drain_eq]
  rfl

theorem Abreast.pushed (h : Abreast j s s') (label : Option Kind) : Abreast j (s.pushed label) (s'.pushed label) := by
  obtain ⟨front, hfronts, hunread, heq⟩ := h.drain
  exact ⟨front, hfronts, hunread, by simp only [State.pushed, heq]; rfl⟩

/-- If a token is left that is not passed over, it is one of the first row. -/
theorem Abreast.exists_mem (h : Abreast j s s') (hstop : s.Stops) :
    ∃ front, Fronts j front ∧ s.unread = front ++ j.tail ∧ s' = s.reading (front ++ j.rest) s.held ∧ ∃ t ∈ front, s.skips t = false := by
  obtain ⟨front, hfronts, hunread, heq⟩ := h
  obtain ⟨t, ht, hskips⟩ := hstop
  refine ⟨front, hfronts, hunread, heq, t, ?_, hskips⟩
  rw [hunread] at ht
  refine (List.mem_append.mp ht).resolve_right fun htail => ?_
  rw [skips_tail s htail] at hskips
  cases hskips

theorem Abreast.exists_cons (h : Abreast j s s') (hstop : s.Stops) :
    ∃ t ts, Fronts j (t :: ts) ∧ s.unread = t :: (ts ++ j.tail) ∧ s' = s.reading (t :: ts ++ j.rest) s.held := by
  obtain ⟨front, hfronts, hunread, heq, x, hx, -⟩ := h.exists_mem hstop
  obtain ⟨t, ts, rfl⟩ := List.exists_cons_of_ne_nil (List.ne_nil_of_mem hx)
  exact ⟨t, ts, hfronts, hunread, heq⟩

/-- Passing over trivia comes to the same token of the first row, if there is one to come to. -/
theorem Abreast.skip (h : Abreast j s s') (hstop : s.Stops) :
    ∃ t ts held, Fronts j (t :: ts) ∧ s.skip = s.reading (t :: ts ++ j.tail) held ∧ s'.skip = s.reading (t :: ts ++ j.rest) held := by
  obtain ⟨front, hfronts, hunread, rfl, x, hx, hskips⟩ := h.exists_mem hstop
  have hne : front.dropWhile s.skips ≠ [] := by
    intro hnil
    have hall := List.takeWhile_append_dropWhile (p := s.skips) (l := front)
    rw [hnil, List.append_nil] at hall
    rw [← hall] at hx
    rw [List.all_eq_true.mp List.all_takeWhile x hx] at hskips
    cases hskips
  obtain ⟨t, ts, hdrop⟩ := List.exists_cons_of_ne_nil hne
  have ht : s.skips t = false := by
    have hhead := List.head?_dropWhile_not s.skips front
    rw [hdrop] at hhead
    simpa using hhead
  have hread (rest : List Token) : (s.reading (front ++ rest) s.held).skip =
      s.reading (t :: ts ++ rest) (s.held ++ front.takeWhile s.skips) := by
    have hskips : (s.reading (front ++ rest) s.held).skips = s.skips := rfl
    have hsplit : front ++ rest = front.takeWhile s.skips ++ (t :: ts ++ rest) := by
      rw [← List.append_assoc, ← hdrop, List.takeWhile_append_dropWhile]
    have hpassed : ∀ x ∈ front.takeWhile s.skips, s.skips x = true := List.all_eq_true.mp List.all_takeWhile
    rw [State.skip_eq, hskips]
    simp only [State.reading, hsplit, List.takeWhile_append_of_pos hpassed, List.dropWhile_append_of_pos hpassed, List.cons_append,
      List.takeWhile_cons_of_neg (p := s.skips) (a := t) (by rw [ht]; exact Bool.false_ne_true),
      List.dropWhile_cons_of_neg (p := s.skips) (a := t) (by rw [ht]; exact Bool.false_ne_true), List.append_nil]
  refine ⟨t, ts, s.held ++ front.takeWhile s.skips, hfronts.of_suffix (hdrop ▸ List.dropWhile_suffix _), ?_, hread _⟩
  rw [← hread, ← hunread]
  rfl

/-- Whether an action asks at most for the tokens close by. -/
def Action.isNear : {α : Type} → Action α → Bool
  | _, .ahead q => q.isNear
  | _, _ => true

/-- As long as there is a token left in the first row that is not passed over, an action does the same in both runs. -/
theorem perform_abreast {action : Action α} (hnear : action.isNear = true) {t : State} {a : α}
    (h : Abreast j s s') (hstop : s.Stops) (hp : action.perform s = .ok (a, t)) :
    ∃ t', action.perform s' = .ok (a, t') ∧ Abreast j t t' := by
  obtain ⟨x, ts, held, hfronts, hskip, hskip'⟩ := h.skip hstop
  have habreast : Abreast j (s.reading (x :: ts ++ j.tail) held) (s.reading (x :: ts ++ j.rest) held) :=
    ⟨x :: ts, hfronts, rfl, rfl⟩
  cases hinner : action.isInner with
  | true =>
    obtain ⟨front, hfronts', hunread, rfl⟩ := h
    obtain ⟨hunread', hheld'⟩ := reading_of_isInner hinner hp
    rw [perform_reading hinner, hp]
    exact ⟨_, rfl, front, hfronts', hunread'.trans hunread, by rw [← hheld']⟩
  | false =>
    cases action with
    | peek =>
      simp only [Action.perform, hskip, hskip', look] at hp ⊢
      split at hp <;> cases hp
      rename_i hpatience
      exact ⟨_, if_neg hpatience, x :: ts, hfronts, rfl, rfl⟩
    | touches =>
      simp only [Action.perform, hskip, hskip'] at hp ⊢
      cases hp
      exact ⟨_, rfl, habreast⟩
    | settle =>
      simp only [Action.perform, hskip, hskip'] at hp ⊢
      cases hp
      exact ⟨_, rfl, habreast.drain⟩
    | report p d =>
      simp only [Action.perform, hskip, hskip', State.report_reading] at hp ⊢
      cases hp
      exact ⟨_, rfl, x :: ts, hfronts, rfl, rfl⟩
    | reportUnclosed closer =>
      simp only [Action.perform, hskip, hskip', State.report_reading] at hp ⊢
      have hdelimiters (u : List Token) : (s.reading u held).delimiters = s.delimiters := rfl
      rw [hdelimiters] at hp ⊢
      cases hopen : s.delimiters with
      | nil =>
        rw [hopen] at hp
        cases hp
        exact ⟨_, rfl, habreast⟩
      | cons d ds =>
        rw [hopen] at hp
        cases hp
        exact ⟨_, rfl, x :: ts, hfronts, rfl, rfl⟩
    | pushDelimiter k =>
      simp only [Action.perform, hskip, hskip'] at hp ⊢
      cases hp
      exact ⟨_, rfl, x :: ts, hfronts, rfl, rfl⟩
    | enter =>
      obtain ⟨front, hfronts', hunread, heq⟩ := h
      rw [State.perform_enter] at hp ⊢
      have hoverrun : s'.overrun = s.overrun.reading (x :: ts ++ j.rest) held := by
        simp only [State.overrun, hskip, hskip']
        rfl
      have hoverrun' : s.overrun.unread = x :: ts ++ j.tail ∧ s.overrun.held = held := by
        simp only [State.overrun, hskip]
        exact ⟨rfl, rfl⟩
      rw [show s'.overflowed = s.overflowed by rw [heq]; rfl, show s'.depth = s.depth by rw [heq]; rfl,
        show s'.limit = s.limit by rw [heq]; rfl, hoverrun]
      split at hp
      · rename_i hover
        cases hp
        exact ⟨_, if_pos hover, front, hfronts', hunread, heq⟩
      · rename_i hopen
        rw [if_neg hopen]
        split at hp <;> rename_i hdepth <;> cases hp
        · exact ⟨_, if_pos hdepth, front, hfronts', hunread, by rw [heq]; rfl⟩
        · exact ⟨_, if_neg hdepth, x :: ts, hfronts, hoverrun'.1, by rw [hoverrun'.2]⟩
    | openNode k | mark =>
      cases hp
      exact ⟨_, rfl, h.pushed _⟩
    | peekRaw =>
      obtain ⟨z, zs, hfronts', hunread, rfl⟩ := h.exists_cons hstop
      simp only [Action.perform, look] at hp ⊢
      split at hp <;> cases hp
      rename_i hpatience
      rw [show s.nextKind = z.kind by simp only [State.nextKind, hunread]]
      exact ⟨_, if_neg hpatience, z :: zs, hfronts', hunread, rfl⟩
    | atEnd | stopped =>
      obtain ⟨z, zs, hfronts', hunread, rfl⟩ := h.exists_cons hstop
      simp only [Action.perform, hunread] at hp
      cases hp
      exact ⟨_, rfl, z :: zs, hfronts', hunread, rfl⟩
    | ahead q =>
      obtain ⟨z, zs, hfronts', hunread, rfl⟩ := h.exists_cons hstop
      simp only [Action.perform, hunread] at hp
      cases hp
      have hholds := holds_abreast (j := j) hnear (List.cons_ne_nil z zs)
      exact ⟨_, congrArg (fun b => Except.ok (b, s.reading (z :: zs ++ j.rest) s.held)) hholds, z :: zs, hfronts', hunread, rfl⟩
    | advance =>
      obtain ⟨z, zs, hfronts', hunread, rfl⟩ := h.exists_cons hstop
      rw [State.perform_advance hunread] at hp
      cases hp
      exact ⟨_, State.perform_advance rfl, zs, hfronts'.of_suffix (List.suffix_cons _ _), rfl, rfl⟩
    | _ => cases hinner

end Abreast

/-! ## Up to a fence -/

/-- What closes a delimited region is still to come. -/
def State.Fenced (s : State) : Prop := ∃ t ∈ s.unread, t.kind.isFence = true

theorem not_skips_of_isFence {t : Token} (h : t.kind.isFence = true) (s : State) : s.skips t = false := by
  obtain ⟨htrivia, hnewline, -⟩ := Kind.of_isFence h
  simp [State.skips, htrivia, hnewline]

theorem State.Fenced.stops {s : State} (h : s.Fenced) : s.Stops := by
  obtain ⟨t, ht, hk⟩ := h
  exact ⟨t, ht, not_skips_of_isFence hk s⟩

theorem State.Fenced.of_suffix {s t : State} (h : t.Fenced) (hsuffix : t.unread <:+ s.unread) : s.Fenced := by
  obtain ⟨x, hx, hk⟩ := h
  exact ⟨x, hsuffix.subset hx, hk⟩

/-- A routine does the same in both runs if what closes a delimited region is still to come when it ends. -/
def Fences {stop : Kind} (j : Seam stop) (n : Nat) (x : Routine α) : Prop :=
  ∀ s s' t a, Abreast j s s' → x.run (runRule n) s = .ok (a, t) → t.Fenced →
    ∃ t', x.run (runRule n) s' = .ok (a, t') ∧ Abreast j t t'

namespace Fences

variable {stop : Kind} {j : Seam stop} {n : Nat}

theorem done (a : α) : Fences j n (pure a : Routine α) := by
  intro s s' t b h hrun _
  cases hrun
  exact ⟨s', rfl, h⟩

theorem fail (f : Fault) : Fences j n (.fail f : Routine α) := by
  intro s s' t b _ hrun
  cases hrun

theorem bind {x : Routine α} {f : α → Routine β} (hx : Fences j n x) (hf : ∀ a, Fences j n (f a)) : Fences j n (x >>= f) := by
  intro s s' t b h hrun hfenced
  obtain ⟨a, u, hrun₁, hrun₂⟩ := Routine.run_bind_eq_ok.mp hrun
  obtain ⟨u', hrun₁', hu⟩ := hx s s' u a h hrun₁ (hfenced.of_suffix (respected_suffix.run hrun₂))
  obtain ⟨t', hrun₂', ht⟩ := hf a u u' t b hu hrun₂ hfenced
  exact ⟨t', Routine.run_bind_eq_ok.mpr ⟨a, u', hrun₁', hrun₂'⟩, ht⟩

theorem act {action : Action α} (hnear : action.isNear = true) : Fences j n (Parser.act action) := by
  intro s s' t a h hrun hfenced
  rw [Routine.run_single] at hrun
  obtain ⟨t', hperform, ht⟩ := perform_abreast hnear h (hfenced.of_suffix (suffix_perform hrun)).stops hrun
  exact ⟨t', by rw [Routine.run_single, hperform], ht⟩

theorem node {k : Kind} {body : Routine α} (h : Fences j n body) : Fences j n (Parser.node k body) :=
  .bind (.act rfl) fun _ => .bind h fun _ => .bind (.act rfl) fun _ => .done _

theorem wrapped {k : Kind} {body : Routine α} (h : Fences j n body) : Fences j n (Parser.wrapped k body) :=
  .bind (.act rfl) fun _ => .bind h fun _ => .bind (.act rfl) fun _ => .done _

theorem nested {body : Routine Kind} (habsorb : Fences j n (Parser.rule .absorb)) (h : Fences j n body) :
    Fences j n (Parser.nested body) := by
  refine .bind (.act rfl) fun entry => ?_
  cases entry with
  | entered => exact .bind h fun _ => .bind (.act rfl) fun _ => .done _
  | blocked => exact .done _
  | overflow => exact .bind (.node (.bind habsorb fun _ => .act rfl)) fun _ => .done _

end Fences

section Object

variable {stop : Kind} {j : Seam stop} {ts : List Token}

/-- Where a fence is to come, passing over blanks and newlines comes to a token of the first row. -/
theorem significant_abreast (h : ∃ t ∈ ts, t.kind.isFence = true) :
    ∃ t more, ts.dropWhile (fun t => t.kind.isTrivia || (true && t.kind = .newline)) = t :: more ∧
      (∃ t' ∈ t :: more, t'.kind.isFence = true) ∧ ∀ rest, Lookahead.significant true (ts ++ rest) = t :: (more ++ rest) := by
  obtain ⟨x, hx, hk⟩ := h
  obtain ⟨htrivia, hnewline, -⟩ := Kind.of_isFence hk
  have hblank : (x.kind.isTrivia || (true && decide (x.kind = .newline))) = false := by simp [htrivia, hnewline]
  have hmem : x ∈ ts.dropWhile fun t => t.kind.isTrivia || (true && t.kind = .newline) := by
    have hall := List.takeWhile_append_dropWhile (p := fun t : Token => t.kind.isTrivia || (true && t.kind = .newline)) (l := ts)
    rw [← hall] at hx
    refine (List.mem_append.mp hx).resolve_left fun htake => ?_
    have hskipped := List.all_eq_true.mp List.all_takeWhile x htake
    exact absurd (hblank.symm.trans hskipped) Bool.false_ne_true
  obtain ⟨t, more, hdrop⟩ := List.exists_cons_of_ne_nil (List.ne_nil_of_mem hmem)
  refine ⟨t, more, hdrop, ⟨x, hdrop ▸ hmem, hk⟩, fun rest => ?_⟩
  unfold Lookahead.significant
  rw [List.dropWhile_append, hdrop]
  rfl

/-- A string ends at its closing quote, whatever comes after it. -/
theorem afterString_stringBody {body rest : List Token} {e : Token} (hbody : ∀ t ∈ body, t.kind ≠ .doubleQuote ∧ t.kind ≠ .newline)
    (he : e.kind = .doubleQuote) : Lookahead.afterString (body ++ e :: rest) = some rest := by
  induction body with
  | nil => simp [Lookahead.afterString, he]
  | cons t body ih =>
    obtain ⟨hquote, hnewline⟩ := hbody t List.mem_cons_self
    simp [Lookahead.afterString, hquote, hnewline, ih fun t ht => hbody t (List.mem_cons_of_mem _ ht)]

/-- What a brace opens is decided before the seam if a fence comes after it. -/
theorem isObject_abreast {signed : Bool} (htidy : Tidy signed (ts ++ j.tail)) (h : ∃ t ∈ ts, t.kind.isFence = true) :
    Lookahead.isObject (ts ++ j.rest) = Lookahead.isObject (ts ++ j.tail) := by
  obtain ⟨t, more, hdrop, ⟨x, hx, hk⟩, hsignificant⟩ := significant_abreast h
  obtain ⟨-, -, hquote, -, hinside⟩ := Kind.of_isFence hk
  unfold Lookahead.isObject
  rw [hsignificant, hsignificant]
  by_cases hstring : t.kind = .doubleQuote
  · -- the string is closed, and the fence comes after it
    have hblanks := List.takeWhile_append_dropWhile (p := fun t : Token => t.kind.isTrivia || (true && t.kind = .newline)) (l := ts)
    rw [← hblanks, List.append_assoc, hdrop] at htidy
    obtain ⟨signed', -, htidy'⟩ := htidy.of_blanks fun t ht => by
      simpa using List.all_eq_true.mp List.all_takeWhile t ht
    obtain ⟨body, e, after, hsplit, hbody, he, -⟩ := htidy'.string_of_quote hstring
    have hmem : x ∈ more := (List.mem_cons.mp hx).resolve_left fun heq => hquote (heq ▸ hstring)
    have houtside : x ∉ body ++ [e] := by
      intro hmem
      rcases List.mem_append.mp hmem with hmem | hmem
      · exact hinside (hbody.kind hmem)
      · exact hquote (List.mem_singleton.mp hmem ▸ he)
    obtain ⟨after', rfl, rfl⟩ : ∃ after', more = (body ++ [e]) ++ after' ∧ after = after' ++ j.tail := by
      rw [show body ++ e :: after = (body ++ [e]) ++ after by simp] at hsplit
      rcases List.append_eq_append_iff.mp hsplit with ⟨mid, hmid, -⟩ | ⟨mid, hmid, hafter⟩
      · exact absurd (hmid ▸ List.mem_append_left _ hmem) houtside
      · exact ⟨mid, hmid, hafter⟩
    have hplain : ∀ t ∈ body, t.kind ≠ .doubleQuote ∧ t.kind ≠ .newline := by
      intro t ht
      have hkind := hbody.kind ht
      constructor <;> (intro hk; rw [hk] at hkind; revert hkind; decide)
    have hafter (rest : List Token) : Lookahead.afterString (body ++ [e] ++ after' ++ rest) = some (after' ++ rest) := by
      rw [List.append_assoc, List.append_assoc, List.singleton_append]
      exact afterString_stringBody hplain he
    obtain ⟨_, _, _, _, hcolon⟩ := significant_abreast ⟨x, (List.mem_append.mp hmem).resolve_left houtside, hk⟩
    simp only [hstring, hafter, hcolon]
    rfl
  · simp only [hstring, if_false]

theorem of_run_require {enter : {γ : Type} → Rule γ → Step γ} {k : Kind} {s t : State} {b : Unit}
    (h : (require k).run enter s = .ok (b, t)) : t = s.looked ∧ s.looked.nextKind = k := by
  obtain ⟨found, u, hpeek, hrest⟩ := Routine.run_bind_eq_ok.mp h
  obtain ⟨rfl, rfl⟩ := State.of_perform_peek ((Routine.run_single _ _).symm.trans hpeek)
  split at hrest
  · rename_i hfound
    cases hrest
    exact ⟨rfl, hfound⟩
  · cases hrest

/-- The brace opens the same in both runs if what closes it comes before the seam. -/
theorem holds_opensObject {s s' : State} (h : Abreast j s s') (hfenced : s.Fenced) (hbrace : s.nextKind = .braceOpen) :
    Lookahead.opensObject.holds s'.unread = Lookahead.opensObject.holds s.unread := by
  obtain ⟨x, ts, hfronts, hunread, rfl⟩ := h.exists_cons hfenced.stops
  have hx : x.kind = .braceOpen := by simpa only [State.nextKind, hunread] using hbrace
  have hfence : ∃ t ∈ ts, t.kind.isFence = true := by
    obtain ⟨y, hy, hk⟩ := hfenced
    obtain ⟨htrivia, -, -, hne, -⟩ := Kind.of_isFence hk
    rw [hunread] at hy
    rcases List.mem_cons.mp hy with rfl | hy
    · exact absurd hx hne
    · refine ⟨y, (List.mem_append.mp hy).resolve_right fun htail => ?_, hk⟩
      rw [j.tail_trivia y htail] at htrivia
      cases htrivia
  obtain ⟨signed, htidy⟩ := hfronts.braced x (ts ++ j.tail) (List.suffix_refl _) hx
  rw [hunread]
  exact isObject_abreast htidy hfence

/-- What a brace opens does the same in both runs, up to a fence. -/
theorem fences_objectOrBlock {n : Nat} (hrequire : Fences j n (require .braceOpen)) (hobject : Fences j n object)
    (hblock : Fences j n block) : Fences j n objectOrBlock := by
  intro s s' t a h hrun hfenced
  obtain ⟨_, u, hrun₁, hrun₂⟩ := Routine.run_bind_eq_ok.mp hrun
  obtain ⟨b, v, hahead, hrun₃⟩ := Routine.run_bind_eq_ok.mp hrun₂
  have hfenced' := hfenced.of_suffix (respected_suffix.run hrun₂)
  obtain ⟨u', hrun₁', hu⟩ := hrequire s s' u () h hrun₁ hfenced'
  obtain ⟨rfl, hbrace⟩ := of_run_require hrun₁
  have hholds := holds_opensObject hu hfenced' hbrace
  cases (Routine.run_single _ _).symm.trans hahead
  have hbody : Fences j n (if Lookahead.opensObject.holds s.looked.unread then object else block) := by
    split
    · exact hobject
    · exact hblock
  obtain ⟨t', hrun₃', ht⟩ := hbody _ u' t a hu hrun₃ hfenced
  refine ⟨t', Routine.run_bind_eq_ok.mpr ⟨(), u', hrun₁', Routine.run_bind_eq_ok.mpr ⟨_, u', ?_, hrun₃'⟩⟩, ht⟩
  rw [ahead, Routine.run_single, Action.perform, hholds]

/-- Routines put together from those that do the same up to a fence do so, too. -/
theorem uniform_fences {n : Nat} (hrule : ∀ {γ : Type} (r : Rule γ), Fences j n (rule r)) :
    Uniform (fun {_} x => Fences j n x) where
  done := .done
  fail := .fail
  bind := .bind
  rule := hrule
  simple {_ action} h := .act (by cases action <;> first | rfl | exact h)
  marked h := .bind (.act rfl) fun _ => .bind h fun _ => .bind (.act rfl) fun _ => .done _
  separating _ h := .bind (.act rfl) fun _ => .bind h fun _ => .bind (.act rfl) fun _ => .done _
  nested := .nested (hrule .absorb)
  node _ := .node
  wrapped _ := .wrapped
  anyNode _ := .node
  anyWrapped _ := .wrapped

/-- Every rule does the same in both runs up to a fence, by induction on the bound on nested rules. -/
theorem fences_rule (n : Nat) (r : Rule α) : Fences j n (rule r) := by
  induction n generalizing α with
  | zero => exact fun _ _ _ _ _ hrun => by cases hrun
  | succ n ih =>
    have u : Uniform fun {_} x => Fences j n x := uniform_fences ih
    have h := u.toGrammarClosed
    exact uniform_grammar u (fences_objectOrBlock (closed_require h.toParts _) ((rooted_object h.toParts h.separating).uniform u) (closed_block h)) r

end Object

/-! ## Between brackets -/

/-- A routine that looks neither at what is left to read nor at what is held back. -/
def Inert (n : Nat) (x : Routine α) : Prop :=
  ∀ s u h, x.run (runRule n) (s.reading u h) = (x.run (runRule n) s).map fun r => (r.1, r.2.reading u h)

namespace Inert

variable {n : Nat}

theorem done (a : α) : Inert n (pure a : Routine α) := fun _ _ _ => rfl

theorem act {action : Action α} (hinner : action.isInner = true) : Inert n (Parser.act action) := by
  intro s u h
  rw [Routine.run_single, Routine.run_single, perform_reading hinner]

theorem bind {x : Routine α} {f : α → Routine β} (hx : Inert n x) (hf : ∀ a, Inert n (f a)) : Inert n (x >>= f) := by
  intro s u h
  rw [Routine.bind_eq, Routine.run_bind, Routine.run_bind, hx s u h]
  cases hrun : x.run (runRule n) s with
  | error e => rfl
  | ok r => exact hf r.1 r.2 u h

/-- It leaves the tokens alone. -/
theorem reading_eq {x : Routine α} (hx : Inert n x) {s t : State} {a : α} (hrun : x.run (runRule n) s = .ok (a, t)) :
    t.unread = s.unread ∧ t.held = s.held := by
  have heq := hx s s.unread s.held
  rw [show s.reading s.unread s.held = s from rfl, hrun] at heq
  simp only [Except.map, Except.ok.injEq, Prod.mk.injEq, true_and] at heq
  rw [heq]
  exact ⟨rfl, rfl⟩

theorem run_abreast {x : Routine α} (hx : Inert n x) {stop : Kind} {j : Seam stop} {s s' t : State} {a : α} (h : Abreast j s s')
    (hrun : x.run (runRule n) s = .ok (a, t)) : ∃ t', x.run (runRule n) s' = .ok (a, t') ∧ Abreast j t t' := by
  obtain ⟨front, hfronts, hunread, rfl⟩ := h
  obtain ⟨hunread', hheld'⟩ := hx.reading_eq hrun
  rw [hx, hrun]
  exact ⟨_, rfl, front, hfronts, hunread'.trans hunread, by rw [← hheld']⟩

end Inert

/-- A routine that ends without any report only where a fence is still to come, and then does the same in both runs. If it is
`opened`, this is said only of states with an open delimiter. -/
structure Brackets {stop : Kind} (j : Seam stop) (n : Nat) (opened : Bool) (x : Routine α) : Prop where
  fenced (s : State) : (opened = true → s.delimiters ≠ []) → Accepts n x s fun _ _ => s.Fenced
  mirrors (s s' : State) : (opened = true → s.delimiters ≠ []) → Abreast j s s' → Mirrors n x s s' fun _ t t' => Abreast j t t'

/-- Where a delimiter is open, its mate comes next: no silent run goes on without it. -/
theorem accepts_close_here {n : Nat} {closer : Kind} {s : State} (hopen : s.delimiters ≠ []) :
    Accepts n (close closer) s fun _ _ => s.looked.nextKind = closer := by
  unfold close
  rw [eat_bind]
  refine .bind (.single fun _ k t hperform _ => ?_)
  obtain ⟨rfl, rfl⟩ := State.of_perform_peek hperform
  by_cases hkind : s.looked.nextKind = closer
  · exact fun _ _ _ _ _ => hkind
  · rw [beq_false_of_ne hkind]
    have hopen' : s.looked.delimiters ≠ [] := by
      simp only [State.looked]
      rw [State.skip_eq]
      exact hopen
    refine .bind (.single fun _ b t hperform hsilent => ?_)
    simp only [Action.perform, Except.ok.injEq, Prod.mk.injEq] at hperform
    obtain ⟨hb, rfl⟩ := hperform
    cases b with
    | false => exact .report _ _ _
    | true =>
      have hend : s.looked.unread.isEmpty = true := by
        have hfuelled : s.looked.exhausted = false := hsilent.fuelled
        simpa [hfuelled] using hb
      change Accepts n (atEnd >>= fun b => if b = true then act (.reportUnclosed closer) >>= fun _ => act .popDelimiter
        else act .popDelimiter) _ _
      refine .bind (.single fun _ b t hperform _ => ?_)
      cases hperform
      rw [if_pos hend]
      exact .reportUnclosed _ _ hopen'

namespace Brackets

variable {stop : Kind} {j : Seam stop} {n : Nat} {opened : Bool}

/-- Something that does the same up to a fence, before something that needs one. -/
theorem after {before : Bool} {x : Routine α} {f : α → Routine β} (hx : Fences j n x)
    (hopens : ∀ s t a, x.run (runRule n) s = .ok (a, t) → (before = true → s.delimiters ≠ []) → opened = true → t.delimiters ≠ [])
    (hf : ∀ a, Brackets j n opened (f a)) : Brackets j n before (x >>= f) := by
  constructor
  · intro s hopen hsteady b t hrun hsilent
    obtain ⟨a, u, hrun₁, hrun₂⟩ := Routine.run_bind_eq_ok.mp hrun
    have hsteady' := (respected_hushes.run hrun₁).steady hsteady
    have hfenced := (hf a).fenced u (hopens s u a hrun₁ hopen) hsteady' b t hrun₂ hsilent
    exact hfenced.of_suffix (respected_suffix.run hrun₁)
  · intro s s' hopen h hsteady b t hrun hsilent
    obtain ⟨a, u, hrun₁, hrun₂⟩ := Routine.run_bind_eq_ok.mp hrun
    have hsteady' := (respected_hushes.run hrun₁).steady hsteady
    have hfenced := (hf a).fenced u (hopens s u a hrun₁ hopen) hsteady' b t hrun₂ hsilent
    obtain ⟨u', hrun₁', hu⟩ := hx s s' u a h hrun₁ hfenced
    obtain ⟨t', hrun₂', ht⟩ := (hf a).mirrors u u' (hopens s u a hrun₁ hopen) hu hsteady' b t hrun₂ hsilent
    exact ⟨t', Routine.run_bind_eq_ok.mpr ⟨a, u', hrun₁', hrun₂'⟩, ht⟩

/-- What is scoped leaves the delimiters as they are. -/
theorem inside {x : Routine α} {f : α → Routine β} (hx : Fences j n x) (hscoped : Scoped (runRule n) false x)
    (hf : ∀ a, Brackets j n opened (f a)) : Brackets j n opened (x >>= f) := by
  refine after hx (fun s t a hrun hopen ho => ?_) hf
  rw [((hscoped.kept s).of_ok hrun).delimiters]
  exact hopen ho

/-- Noting a delimiter opens it. -/
theorem push {before : Bool} {k : Kind} {f : Unit → Routine α} (hf : Brackets j n true (f ())) :
    Brackets j n before (Parser.act (.pushDelimiter k) >>= f) := by
  refine after (.act rfl) (fun s t a hrun _ _ => ?_) fun _ => hf
  rw [Routine.run_single] at hrun
  cases hrun
  exact List.cons_ne_nil _ _

/-- Something that needs a fence, before something that does not look at the tokens. -/
theorem before {x : Routine α} {f : α → Routine β} (hx : Brackets j n opened x) (hf : ∀ a, Inert n (f a)) :
    Brackets j n opened (x >>= f) where
  fenced s hopen := .bind <| (hx.fenced s hopen).imp fun _ _ hfenced _ _ _ _ _ => hfenced
  mirrors s s' hopen h := .bind <| (hx.mirrors s s' hopen h).imp fun a _ _ ht _ _ _ hrun _ => (hf a).run_abreast ht hrun

theorem never {x : Routine α} (h : ∀ s, Accepts n x s fun _ _ => False) : Brackets j n opened x where
  fenced s _ := (h s).imp fun _ _ => False.elim
  mirrors s _ _ _ := .never (h s)

theorem ite {c : Prop} [Decidable c] {x y : Routine α} (hx : Brackets j n opened x) (hy : Brackets j n opened y) :
    Brackets j n opened (if c then x else y) := by
  split
  · exact hx
  · exact hy

theorem node {k : Kind} {body : Routine α} (h : Brackets j n opened body) : Brackets j n opened (Parser.node k body) := by
  refine after (.act rfl) (fun s t a hrun hopen ho => ?_) fun _ => h.before fun a => .bind (.act rfl) fun _ => .done a
  rw [Routine.run_single, State.perform_openNode] at hrun
  cases hrun
  simp only [State.pushed]
  rw [State.drain_eq]
  exact hopen ho

theorem separating {b : Bool} {body : Routine α} (h : Brackets j n opened body) : Brackets j n opened (Parser.separating b body) := by
  refine after (.act rfl) (fun s t a hrun hopen ho => ?_) fun _ => h.before fun a => .bind (.act rfl) fun _ => .done a
  rw [Routine.run_single] at hrun
  cases hrun
  exact hopen ho

/-- The mate of an open delimiter. -/
theorem close {k : Kind} (hk : k.isFence = true) : Brackets j n true (Parser.close k) := by
  have hfence {s : State} (hkind : s.looked.nextKind = k) : ∃ x rest, s.looked.unread = x :: rest ∧ x.kind.isFence = true := by
    cases hunread : s.looked.unread with
    | nil =>
      simp only [State.nextKind, hunread] at hkind
      rw [← hkind] at hk
      cases hk
    | cons x rest =>
      simp only [State.nextKind, hunread] at hkind
      exact ⟨x, rest, rfl, hkind ▸ hk⟩
  have hfenced {s : State} (hkind : s.looked.nextKind = k) : s.looked.Fenced := by
    obtain ⟨x, rest, hunread, hx⟩ := hfence hkind
    exact ⟨x, hunread ▸ List.mem_cons_self, hx⟩
  constructor
  · intro s hopen
    refine (accepts_close_here (hopen rfl)).imp fun _ _ hkind => (hfenced hkind).of_suffix ?_
    exact s.suffix_skip
  · intro s s' hopen h hsteady a t hrun hsilent
    have hkind := accepts_close_here (hopen rfl) hsteady a t hrun hsilent
    unfold Parser.close at hrun ⊢
    rw [eat_bind] at hrun ⊢
    obtain ⟨k', u, hpeek, hrest⟩ := Routine.run_bind_eq_ok.mp hrun
    obtain ⟨rfl, rfl⟩ := State.of_perform_peek ((Routine.run_single _ _).symm.trans hpeek)
    obtain ⟨u', hpeek', hu⟩ := Fences.act (n := n) rfl s s' _ _ h hpeek (hfenced hkind)
    rw [hkind, beq_self_eq_true] at hrest
    obtain ⟨_, v, hadvance, hpop⟩ := Routine.run_bind_eq_ok.mp hrest
    obtain ⟨v', hadvance', hv⟩ := perform_abreast rfl hu (hfenced hkind).stops ((Routine.run_single _ _).symm.trans hadvance)
    obtain ⟨t', hpop', ht⟩ := (Inert.act (n := n) rfl).run_abreast hv hpop
    refine ⟨t', Routine.run_bind_eq_ok.mpr ⟨_, u', hpeek', ?_⟩, ht⟩
    rw [hkind, beq_self_eq_true]
    exact Routine.run_bind_eq_ok.mpr ⟨(), v', (Routine.run_single _ _).trans hadvance', hpop'⟩

/-- Where no delimiter needs to be open. -/
theorem free {x : Routine α} {f : α → Routine β} (hx : Fences j n x) (hf : ∀ a, Brackets j n false (f a)) :
    Brackets j n false (x >>= f) :=
  after hx (fun _ _ _ _ _ ho => by cases ho) hf

end Brackets

section Grammar

variable {stop : Kind} (j : Seam stop) (n : Nat)

theorem uniform_fences_grammar : Uniform (fun {_} x => Fences j n x) := uniform_fences (fences_rule n)

theorem closed_fences : GrammarClosed (fun {_} x => Fences j n x) := (uniform_fences_grammar j n).toGrammarClosed

theorem scoped_rules {γ : Type} (r : Rule γ) : Scoped (runRule n) r.wraps (rule r) := scoped_runRule n r

theorem brackets_delimited (opener : Kind) (list : ItemList) : Brackets j n false (delimited opener list) := by
  have h := closed_fences j n
  have hcloser : list.closer.isFence = true := by cases list <;> rfl
  refine .push <| .inside (.act rfl) (.plain rfl) fun _ => .separating ?_
  exact .inside (h.rule (.items list)) (scoped_rules n (.items list)) fun _ => .close hcloser

theorem brackets_array : Brackets j n false array := .node <| (brackets_delimited j n _ _).before fun _ => .done _

theorem brackets_object : Brackets j n false object := .node <| (brackets_delimited j n _ _).before fun _ => .done _

theorem brackets_argumentList : Brackets j n false argumentList :=
  .node <| .free (closed_require (closed_fences j n).toParts _) fun _ => brackets_delimited j n _ _

theorem brackets_group : Brackets j n false group := by
  have h := closed_fences j n
  refine .node <| .push <| .inside (.act rfl) (.plain rfl) fun _ => .before (.separating ?_) fun _ => .done _
  refine .inside (.act rfl) (.plain rfl) fun k => .ite ?_ ?_
  · exact .inside (h.rule .assignment) (scoped_rules n .assignment) fun _ => .close rfl
  · exact .never fun s => .never (.reportFound _ _)

theorem brackets_block : Brackets j n false block := by
  have h := closed_fences j n
  refine .free (closed_peekIs h.toParts _) fun _ => .ite (.node ?_) (.never fun s => .never (.reportFound _ _))
  refine .push <| .inside (.act rfl) (.plain rfl) fun _ => .inside ?_ ?_ fun _ => .before (.close rfl) fun _ => .done _
  · exact h.separating true (h.rule (.statements (some .braceClose)))
  · exact .separating (scoped_rules n (.statements (some .braceClose)))

theorem brackets_indexSegment : Brackets j n false indexSegment := by
  have h := closed_fences j n
  have hend : Brackets j n true (do newlines; close .bracketClose) :=
    .inside (closed_newlines h.toParts) (scoped_rules n .newlines) fun _ => .close rfl
  have hexpect : Brackets j n true (do reportFound .unexpectedToken (some .indexInteger); newlines; close .bracketClose) :=
    .never fun s => .never (.reportFound _ _)
  refine .node <| .push <| .inside (.act rfl) (.plain rfl) fun _ => .inside (closed_newlines h.toParts) (scoped_rules n .newlines) fun _ =>
    .inside (.act rfl) (.plain rfl) fun k => ?_
  split
  · exact .inside (.act rfl) (.plain rfl) fun _ => hend
  · refine .inside (.act rfl) (.plain rfl) fun _ => .ite ?_ hexpect
    exact .inside (.act rfl) (.plain rfl) fun _ => .inside (.act rfl) (.plain rfl) fun _ => hend
  · exact hexpect

theorem brackets_closure : Brackets j n false closure := by
  have h := closed_fences j n
  refine .node <| .free (.act rfl) fun _ => .free (.node (.bind (.act rfl) fun k => ?_)) fun _ => .free (.act rfl) fun _ =>
    .free (closed_newlines h.toParts) fun _ => .before (brackets_block j n) fun _ => .done _
  split
  · exact .act rfl
  · exact .bind (.act rfl) fun _ => .bind (.act rfl) fun _ => .bind (h.rule (.items .parameters)) fun _ => closed_close h.toParts _
  · exact closed_reportFound h.toParts rfl _

theorem brackets_branch : Brackets j n false branch := by
  have u := uniform_fences_grammar j n
  have hgroup := u.bind (u.anyWrapped .group (u.done ())) fun _ => uniform_continuePath u .group
  exact .free (closed_predicate u.toParts hgroup) fun _ => .free (closed_newlines u.toParts) fun _ =>
    .before (brackets_block j n) fun _ => .done _

theorem brackets_objectOrBlock : Brackets j n false objectOrBlock := by
  have hbody (b : Bool) : Brackets j n false (if b then object else block) := .ite (brackets_object j n) (brackets_block j n)
  have hfenced (s : State) : Accepts n objectOrBlock s fun _ _ => s.looked.Fenced := by
    intro hsteady a t hrun hsilent
    obtain ⟨_, u, hrun₁, hrun₂⟩ := Routine.run_bind_eq_ok.mp hrun
    obtain ⟨b, v, hahead, hrun₃⟩ := Routine.run_bind_eq_ok.mp hrun₂
    obtain ⟨rfl, -⟩ := of_run_require hrun₁
    cases (Routine.run_single _ _).symm.trans hahead
    exact (hbody _).fenced _ (fun ho => by cases ho) ((respected_hushes.run hrun₁).steady hsteady) a t hrun₃ hsilent
  refine ⟨fun s _ => (hfenced s).imp fun _ _ h => h.of_suffix s.suffix_skip, ?_⟩
  intro s s' _ h hsteady a t hrun hsilent
  have hhere := hfenced s hsteady a t hrun hsilent
  obtain ⟨_, u, hrun₁, hrun₂⟩ := Routine.run_bind_eq_ok.mp hrun
  obtain ⟨b, v, hahead, hrun₃⟩ := Routine.run_bind_eq_ok.mp hrun₂
  obtain ⟨rfl, hbrace⟩ := of_run_require hrun₁
  obtain ⟨u', hrun₁', hu⟩ := closed_require (closed_fences j n).toParts .braceOpen s s' _ () h hrun₁ hhere
  have hholds := holds_opensObject hu hhere hbrace
  cases (Routine.run_single _ _).symm.trans hahead
  have hsteady' := (respected_hushes.run hrun₁).steady hsteady
  obtain ⟨t', hrun₃', ht⟩ := (hbody _).mirrors _ u' (fun ho => by cases ho) hu hsteady' a t hrun₃ hsilent
  refine ⟨t', Routine.run_bind_eq_ok.mpr ⟨(), u', hrun₁', Routine.run_bind_eq_ok.mpr ⟨_, u', ?_, hrun₃'⟩⟩, ht⟩
  rw [ahead, Routine.run_single, Action.perform, hholds]

end Grammar

end Parser

end Remap
