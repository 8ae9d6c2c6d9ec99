import Remap.Proofs.Parser.Silent
import Remap.Proofs.Token.Tidy
import Remap.Proofs.Tree.Complete

/-!
# What silent runs build

The row of a state is what its innermost frame holds, blanks apart. `Builds n κ r x Q` says of the silent runs of `x` that
start with the row `r` over tidy tokens that satisfy `κ`: they leave tidy tokens, they leave the frames below alone, every
tree they add is sound, and the row they end with satisfies `Q`.

The rules follow the syntax of routines. Opening a node starts an empty row, which has to be of the right shape when the
node is closed; wrapping goes on with the row since the innermost mark.
-/

namespace Remap.Parser

variable {α β : Type}

namespace State

/-- What the innermost frame holds, in order and without blanks. -/
def row (s : State) : List Tree := Tree.solid s.top.built.reverse

/-- A state with tidy tokens ahead and sound trees in its innermost frame. -/
structure Fit (s : State) : Prop where
  tidy : ∃ signed, Tidy signed s.unread
  sound : ∀ x ∈ s.row, x.Sound

/-- Two states with the same frames, except for what the innermost one holds. -/
structure SameFrame (s t : State) : Prop where
  label : t.top.label = s.top.label
  below : t.below = s.below

theorem SameFrame.refl (s : State) : SameFrame s s := ⟨rfl, rfl⟩

theorem SameFrame.trans {s t u : State} (h : SameFrame s t) (h' : SameFrame t u) : SameFrame s u :=
  ⟨h'.label.trans h.label, h'.below.trans h.below⟩

/-- The tokens that are passed over are blanks. -/
theorem blank_of_skips {s : State} {t : Token} (h : s.skips t = true) : t.kind.isTrivia = true ∨ t.kind = .newline := by
  simp only [skips, Bool.or_eq_true, Bool.and_eq_true, decide_eq_true_eq] at h
  exact h.imp id And.right

/-- Nothing has changed between two states but that blanks were passed over or placed. -/
structure Still (s t : State) : Prop where
  unread : ∃ blanks, s.unread = blanks ++ t.unread ∧ ∀ b ∈ blanks, b.kind.isTrivia = true ∨ b.kind = .newline
  row : t.row = s.row
  frame : SameFrame s t

theorem unread_eq_nil_append {s t : State} (h : t.unread = s.unread) :
    ∃ blanks, s.unread = blanks ++ t.unread ∧ ∀ b ∈ blanks, b.kind.isTrivia = true ∨ b.kind = .newline :=
  ⟨[], h.symm, fun _ hb => absurd hb List.not_mem_nil⟩

theorem Still.refl (s : State) : Still s s := ⟨unread_eq_nil_append rfl, rfl, .refl s⟩

theorem Still.trans {s t u : State} (h : Still s t) (h' : Still t u) : Still s u := by
  obtain ⟨xs, hxs, hx⟩ := h.unread
  obtain ⟨ys, hys, hy⟩ := h'.unread
  refine ⟨⟨xs ++ ys, by rw [hxs, hys, List.append_assoc], fun b hb => ?_⟩, h'.row.trans h.row, h.frame.trans h'.frame⟩
  rcases List.mem_append.mp hb with hb | hb
  · exact hx b hb
  · exact hy b hb

theorem still_skip (s : State) : Still s s.skip := by
  refine ⟨⟨s.unread.takeWhile s.skips, ?_, ?_⟩, ?_, ?_⟩
  · rw [unread_skip, List.takeWhile_append_dropWhile]
  · exact fun t ht => blank_of_skips (List.all_eq_true.mp List.all_takeWhile t ht)
  · rw [skip_eq]
    rfl
  · rw [skip_eq]
    exact ⟨rfl, rfl⟩

theorem solid_append (xs ys : List Tree) : Tree.solid (xs ++ ys) = Tree.solid xs ++ Tree.solid ys := List.filter_append ..

/-- What is held back is blank. -/
theorem Steady.solid_held {s : State} (hs : s.Steady) : Tree.solid (s.held.map Token.leaf) = [] := by
  refine List.filter_eq_nil_iff.mpr fun x hx => ?_
  obtain ⟨t, ht, rfl⟩ := List.mem_map.mp hx
  have hblank : t.leaf.isBlank = true := by
    simp only [Token.leaf, Tree.isBlank, Bool.or_eq_true, decide_eq_true_eq]
    exact hs.held t ht
  simp [hblank]

theorem Steady.still_drain {s : State} (hs : s.Steady) : Still s s.drain := by
  rw [drain_eq]
  refine ⟨unread_eq_nil_append rfl, ?_, rfl, rfl⟩
  simp only [row, List.reverse_append, List.reverse_reverse, solid_append, hs.solid_held, List.append_nil]

/-- Consuming a token adds its leaf to the row. -/
theorem Steady.row_consumed {s : State} (hs : s.Steady) (t : Token) (rest : List Token) :
    (s.consumed t rest).row = s.row ++ Tree.solid [t.leaf] := by
  simp only [row, consumed, List.reverse_cons, List.reverse_append, List.reverse_reverse, solid_append, hs.solid_held,
    List.append_nil]

theorem Still.fit {s t : State} (h : Still s t) (hs : s.Fit) : t.Fit := by
  refine ⟨?_, h.row ▸ hs.sound⟩
  obtain ⟨signed, htidy⟩ := hs.tidy
  obtain ⟨blanks, hunread, hblanks⟩ := h.unread
  rw [hunread] at htidy
  obtain ⟨signed', -, htidy'⟩ := htidy.of_blanks hblanks
  exact ⟨signed', htidy'⟩

theorem still_looked (s : State) (patience : Nat) : Still s { s.skip with patience } := by
  have h := s.still_skip
  exact ⟨h.unread, h.row, h.frame.label, h.frame.below⟩

end State

open State (SameFrame Still)

/-- Whether an action changes nothing but blanks, if it reports nothing. -/
def Action.isStill : {α : Type} → Action α → Bool
  | _, .touches | _, .ahead _ | _, .atEnd | _, .stopped | _, .settle | _, .reportUnclosed _ | _, .checkParameters
  | _, .pushDelimiter _ | _, .popDelimiter => true
  | _, _ => false

theorem still_report (s : State) (d : Diagnostic) : Still s (s.report d) := by
  rw [State.report_eq]
  exact ⟨State.unread_eq_nil_append rfl, rfl, rfl, rfl⟩

theorem still_perform {action : Action α} {s t : State} {a : α} (hs : s.Steady) (hq : action.isStill = true)
    (h : action.perform s = .ok (a, t)) : Still s t := by
  have hskip := s.still_skip
  cases action with
  | touches =>
    cases h
    exact hskip
  | ahead q | atEnd | stopped =>
    cases h
    exact .refl s
  | settle =>
    cases h
    exact hskip.trans (s.hushes_skip.steady hs).still_drain
  | reportUnclosed closer =>
    simp only [Action.perform] at h
    split at h <;> cases h
    · exact hskip
    · exact hskip.trans (still_report _ _)
  | checkParameters =>
    cases h
    rw [State.reportParameters_eq]
    obtain ⟨reports, lastReport, hfold⟩ := State.foldl_report s.parameterProblems s
    rw [hfold]
    exact ⟨State.unread_eq_nil_append rfl, rfl, rfl, rfl⟩
  | pushDelimiter k =>
    cases h
    exact ⟨hskip.unread, hskip.row, hskip.frame.label, hskip.frame.below⟩
  | popDelimiter =>
    cases h
    exact ⟨State.unread_eq_nil_append rfl, rfl, rfl, rfl⟩
  | _ => cases hq

/-! ## The judgement -/

/-- The silent runs of a routine that start with the row `r`, where `κ` holds of the tokens ahead, end with a row that
satisfies `Q`, and they keep what is fit. -/
def Builds (n : Nat) (κ : List Token → Prop) (r : List Tree) (x : Routine α) (Q : α → List Tree → Prop) : Prop :=
  ∀ s : State, s.Fit → κ s.unread → s.row = r → Accepts n x s fun a t => t.Fit ∧ SameFrame s t ∧ Q a t.row

/-- Nothing is said of the tokens ahead. -/
def Anything (_ : List Token) : Prop := True

/-- The next token is of a kind; `error` stands for none. -/
def Next (k : Kind) (ts : List Token) : Prop := (ts.head?.map (·.kind)).getD .error = k

/-- A kind that is no blank. -/
def Solid (k : Kind) : Prop := k.isTrivia = false ∧ k ≠ .newline

instance (k : Kind) : Decidable (Solid k) := inferInstanceAs (Decidable (_ ∧ _))

namespace State

theorem next_nextKind (s : State) : Next s.nextKind s.unread := by
  unfold Next nextKind
  cases s.unread <;> rfl

theorem nextKind_of_next {s : State} {k : Kind} (h : Next k s.unread) : s.nextKind = k := by
  unfold Next at h
  unfold nextKind
  cases hu : s.unread with
  | nil => rwa [hu] at h
  | cons t rest => rwa [hu] at h

theorem nextKind_congr {s t : State} (h : t.unread = s.unread) : t.nextKind = s.nextKind := by
  unfold nextKind
  rw [h]

/-- Nothing is passed over where no blank comes next. -/
theorem Still.unread_of_next {s t : State} {k : Kind} (h : Still s t) (hk : Solid k) (hnext : Next k s.unread) :
    t.unread = s.unread := by
  obtain ⟨blanks, hunread, hblanks⟩ := h.unread
  cases blanks with
  | nil => exact hunread.symm
  | cons b blanks =>
    rw [hunread] at hnext
    have hkind : b.kind = k := hnext
    exact absurd hkind (Kind.ne_of_blank (hblanks b List.mem_cons_self) hk)

end State

/-- Building a node adds it to the row. -/
theorem Accepts.node {n : Nat} {k : Kind} {body : Routine α} {s : State} {Q : α → State → Prop}
    (h : Accepts n body (s.pushed (some k)) fun a t => SameFrame (s.pushed (some k)) t ∧
      ∀ u : State, u.unread = t.unread → SameFrame s u → u.row = s.row ++ [.node k t.top.built.reverse] → Q a u) :
    Accepts n (Parser.node k body) s Q := by
  refine .bind (.single fun hsteady _ s₁ hopen _ => ?_)
  cases hopen
  have hdrain := hsteady.still_drain
  refine .bind (h.imp fun a t ht => ?_)
  obtain ⟨hframe, hQ⟩ := ht
  refine .bind (.single fun _ _ u hclose _ => .done (hQ u ?_ ?_ ?_))
  all_goals
    have hlabel : t.top.label = some k := hframe.label
    have hbelow : t.below = s.drain.top :: s.drain.below := hframe.below
    simp only [Action.perform, hlabel, hbelow, Except.ok.injEq, Prod.mk.injEq, true_and] at hclose
    subst hclose
  · rfl
  · exact ⟨hdrain.frame.label, hdrain.frame.below⟩
  · simp only [State.row, List.reverse_cons, State.solid_append]
    rw [show Tree.solid s.drain.top.built.reverse = s.drain.row from rfl, hdrain.row]
    rfl

namespace Builds

variable {n : Nat} {κ κ' : List Token → Prop} {r : List Tree} {Q Q' : α → List Tree → Prop}

theorem imp {x : Routine α} (h : Builds n κ r x Q) (hQ : ∀ a r', Q a r' → Q' a r') : Builds n κ r x Q' :=
  fun s hs hκ hr => (h s hs hκ hr).imp fun a t ht => ⟨ht.1, ht.2.1, hQ a t.row ht.2.2⟩

/-- Less may be known of the tokens ahead. -/
theorem sight {x : Routine α} (h : Builds n κ' r x Q) (hκ : ∀ ts, κ ts → κ' ts) : Builds n κ r x Q :=
  fun s hs hs' hr => h s hs (hκ s.unread hs') hr

theorem anywhere {x : Routine α} (h : Builds n Anything r x Q) : Builds n κ r x Q := h.sight fun _ _ => trivial

theorem done {a : α} (h : Q a r) : Builds n κ r (pure a) Q := by
  rintro s hs _ rfl
  exact .done ⟨hs, .refl s, h⟩

theorem fail (f : Fault) : Builds n κ r (.fail f) Q := fun _ _ _ _ => .fail f

/-- One routine after another. -/
theorem seq {P : β → List Tree → Prop} {x : Routine β} {f : β → Routine α} (hx : Builds n κ r x P)
    (hf : ∀ b r', P b r' → Builds n Anything r' (f b) Q) : Builds n κ r (x >>= f) Q := by
  intro s hs hκ hr
  refine .bind ((hx s hs hκ hr).imp fun b t ht => ?_)
  obtain ⟨hfit, hframe, hP⟩ := ht
  exact (hf b t.row hP t hfit trivial rfl).imp fun a u hu => ⟨hu.1, hframe.trans hu.2.1, hu.2.2⟩

theorem ite {c : Prop} [Decidable c] {x y : Routine α} (hx : c → Builds n κ r x Q) (hy : ¬ c → Builds n κ r y Q) :
    Builds n κ r (if c then x else y) Q := by
  split
  · exact hx ‹_›
  · exact hy ‹_›

/-- No silent run comes to a report. -/
theorem report {p : Problem} {d : Option Detail} {f : Unit → Routine α} : Builds n κ r (Parser.report p d >>= f) Q :=
  fun _ _ _ _ => .report p d _

theorem reportTarget {flaw : TargetFlaw} {f : Unit → Routine α} :
    Builds n κ r (Parser.act (.reportTarget flaw) >>= f) Q :=
  fun _ _ _ _ => .reportTarget flaw _

/-! ## Nodes and marks -/

/-- A node whose row is of the right shape is added to the row. -/
theorem node {k : Kind} {body : Routine α} (h : Builds n κ [] body fun a xs => Shape k xs ∧ ∀ cs, Tree.solid cs = xs →
    Q a (r ++ [.node k cs])) : Builds n κ r (Parser.node k body) Q := by
  rintro s hs hκ rfl
  have hpushed : (s.pushed (some k)).Fit := ⟨by rw [s.unread_pushed]; exact hs.tidy, fun x hx => absurd hx List.not_mem_nil⟩
  refine .node ((h _ hpushed (by rw [s.unread_pushed]; exact hκ) rfl).imp fun a t ht => ?_)
  obtain ⟨hfit, hframe, hshape, hQ⟩ := ht
  refine ⟨hframe, fun u hunread hu hrow => ⟨⟨hunread ▸ hfit.tidy, fun x hx => ?_⟩, hu, ?_⟩⟩
  · rw [hrow] at hx
    rcases List.mem_append.mp hx with hx | hx
    · exact hs.sound x hx
    · rw [List.mem_singleton.mp hx]
      exact Tree.sound_of_shape hshape hfit.sound
  · rw [hrow]
    exact hQ _ rfl

/-- What is built at a mark is added to the row. -/
theorem marked {body : Routine α} (h : Builds n κ [] body fun a xs => Q a (r ++ xs)) :
    Builds n κ r (Parser.marked body) Q := by
  rintro s hs hκ rfl
  refine .bind (.single fun hsteady _ s₁ hmark _ => ?_)
  cases hmark
  have hdrain := hsteady.still_drain
  have hpushed : (s.pushed none).Fit := ⟨by rw [s.unread_pushed]; exact hs.tidy, fun x hx => absurd hx List.not_mem_nil⟩
  refine .bind ((h _ hpushed (by rw [s.unread_pushed]; exact hκ) rfl).imp fun a t ht => ?_)
  obtain ⟨hfit, hframe, hQ⟩ := ht
  refine .bind (.single fun _ _ u hunmark _ => .done ?_)
  have hlabel : t.top.label = none := hframe.label
  have hbelow : t.below = s.drain.top :: s.drain.below := hframe.below
  simp only [Action.perform, hlabel, hbelow, Except.ok.injEq, Prod.mk.injEq, true_and] at hunmark
  subst hunmark
  have hrow : Tree.solid (t.top.built ++ s.drain.top.built).reverse = s.row ++ t.row := by
    rw [List.reverse_append, State.solid_append, ← hdrain.row]
    rfl
  refine ⟨⟨hfit.tidy, fun x hx => ?_⟩, ⟨hdrain.frame.label, hdrain.frame.below⟩, ?_⟩
  · rw [State.row, hrow] at hx
    rcases List.mem_append.mp hx with hx | hx
    · exact hs.sound x hx
    · exact hfit.sound x hx
  · rw [State.row, hrow]
    exact hQ

/-- A node that begins at the innermost mark takes up the row. -/
theorem wrapped {k : Kind} {body : Routine α} (h : Builds n κ r body fun a xs => Shape k xs ∧ ∀ cs, Tree.solid cs = xs →
    Q a [.node k cs]) : Builds n κ r (Parser.wrapped k body) Q := by
  rintro s hs hκ rfl
  refine .bind (.single fun _ _ s₁ hwrap _ => ?_)
  cases hmark : s.top.label with
  | some label => simp [Action.perform, hmark] at hwrap
  | none =>
    simp only [Action.perform, hmark, Except.ok.injEq, Prod.mk.injEq, true_and] at hwrap
    subst hwrap
    have hinner := h { s with top := { s.top with label := some k }, below := ⟨none, s.top.start, []⟩ :: s.below }
      ⟨hs.tidy, hs.sound⟩ hκ rfl
    refine .bind (hinner.imp fun a t ht => ?_)
    obtain ⟨hfit, hframe, hshape, hQ⟩ := ht
    refine .bind (.single fun _ _ u hclose _ => .done ?_)
    have hlabel : t.top.label = some k := hframe.label
    have hbelow : t.below = ⟨none, s.top.start, []⟩ :: s.below := hframe.below
    simp only [Action.perform, hlabel, hbelow, Except.ok.injEq, Prod.mk.injEq, true_and] at hclose
    subst hclose
    refine ⟨⟨hfit.tidy, fun x hx => ?_⟩, ⟨hmark.symm, rfl⟩, hQ _ rfl⟩
    rw [List.mem_singleton.mp hx]
    exact Tree.sound_of_shape hshape hfit.sound

/-- How newlines are read makes no difference to a row. -/
theorem separating {b : Bool} {body : Routine α} (h : Builds n κ r body Q) : Builds n κ r (Parser.separating b body) Q := by
  rintro s hs hκ rfl
  refine .bind (.single fun _ before s₁ hset _ => ?_)
  cases hset
  refine .bind ((h { s with separating := b } ⟨hs.tidy, hs.sound⟩ hκ rfl).imp fun a t ht => ?_)
  obtain ⟨hfit, hframe, hQ⟩ := ht
  refine .bind (.single fun _ _ u hreset _ => .done ?_)
  cases hreset
  exact ⟨⟨hfit.tidy, hfit.sound⟩, ⟨hframe.label, hframe.below⟩, hQ⟩

/-- The limit is not hit in a silent run. -/
theorem nested {body : Routine Kind} {Q : Kind → List Tree → Prop} (h : Builds n κ r body Q) :
    Builds n κ r (Parser.nested body) Q := by
  rintro s hs hκ rfl
  refine .bind (.single fun hsteady entry s₁ henter hsilent => ?_)
  obtain ⟨hover, -⟩ := hsteady.calm ((hushes_perform henter).silent hsilent).reports
  simp only [Action.perform] at henter
  rw [if_neg (by simp [hover])] at henter
  split at henter
  · cases henter
    refine .bind ((h { s with depth := s.depth + 1 }.refresh ⟨hs.tidy, hs.sound⟩ hκ rfl).imp fun a t ht => ?_)
    obtain ⟨hfit, hframe, hQ⟩ := ht
    refine .bind (.single fun _ _ u hleave _ => .done ?_)
    cases hleave
    exact ⟨⟨hfit.tidy, hfit.sound⟩, ⟨hframe.label, hframe.below⟩, hQ⟩
  · cases henter
    cases hsilent.reports

/-! ## Looking -/

/-- What is built goes on from a state in which nothing has changed but blanks. -/
theorem resume {x : Routine α} {s t : State} (h : Builds n κ s.row x Q) (hstill : Still s t) (hs : s.Fit) (hκ : κ t.unread) :
    Accepts n x t fun a u => u.Fit ∧ SameFrame s u ∧ Q a u.row :=
  (h t (hstill.fit hs) hκ hstill.row).imp fun _ _ hu => ⟨hu.1, hstill.frame.trans hu.2.1, hu.2.2⟩

/-- The next token is looked at, and what is known of tokens after blanks is known. -/
theorem peek_sight {ρ : List Token → Prop} {f : Kind → Routine α}
    (hκ : ∀ blanks ts, (∀ b ∈ blanks, b.kind.isTrivia = true ∨ b.kind = .newline) → κ (blanks ++ ts) → ρ ts)
    (h : ∀ k, Builds n (fun ts => Next k ts ∧ ρ ts) r (f k) Q) : Builds n κ r (Parser.peek >>= f) Q := by
  rintro s hs hs' rfl
  refine Accepts.act fun _ k t hperform _ => ?_
  simp only [Action.perform, look] at hperform
  split at hperform <;> cases hperform
  obtain ⟨blanks, hunread, hblanks⟩ := s.still_skip.unread
  rw [hunread] at hs'
  exact (h _).resume (s.still_looked _) hs ⟨s.skip.next_nextKind, hκ blanks _ hblanks hs'⟩

/-- The next token is looked at. -/
theorem peek {f : Kind → Routine α} (h : ∀ k, Builds n (Next k) r (f k) Q) : Builds n κ r (Parser.peek >>= f) Q :=
  .peek_sight (ρ := Anything) (fun _ _ _ _ => trivial) fun k => (h k).sight fun _ hκ => hκ.1

/-- The next token is known. -/
theorem peek_next {k : Kind} {f : Kind → Routine α} (hk : Solid k) (hκ : ∀ ts, κ ts → Next k ts) (h : Builds n κ r (f k) Q) :
    Builds n κ r (Parser.peek >>= f) Q := by
  rintro s hs hs' rfl
  refine Accepts.act fun _ k t hperform _ => ?_
  have hunread := s.still_skip.unread_of_next hk (hκ _ hs')
  have hkind : s.skip.nextKind = _ := (State.nextKind_congr hunread).trans (State.nextKind_of_next (hκ _ hs'))
  simp only [Action.perform, look] at hperform
  split at hperform <;> cases hperform
  rw [hkind]
  exact h.resume (s.still_looked _) hs (hunread ▸ hs')

/-- An action that changes nothing but blanks. -/
theorem still {action : Action β} {f : β → Routine α} (hq : action.isStill = true) (h : ∀ b, Builds n Anything r (f b) Q) :
    Builds n κ r (Parser.act action >>= f) Q := by
  rintro s hs _ rfl
  refine Accepts.act fun hsteady b t hperform _ => ?_
  exact (h b).resume (still_perform hsteady hq hperform) hs trivial

/-- An action that changes nothing where no blank comes next. -/
theorem still_next {action : Action β} {f : β → Routine α} {k : Kind} (hq : action.isStill = true) (hk : Solid k)
    (hκ : ∀ ts, κ ts → Next k ts) (h : ∀ b, Builds n κ r (f b) Q) : Builds n κ r (Parser.act action >>= f) Q := by
  rintro s hs hs' rfl
  refine Accepts.act fun hsteady b t hperform _ => ?_
  have hstill := still_perform hsteady hq hperform
  exact (h b).resume hstill hs (hstill.unread_of_next hk (hκ _ hs') ▸ hs')

/-- The answer to a question about the tokens ahead is known from then on. -/
theorem ahead {q : Lookahead} {f : Bool → Routine α} (h : ∀ b, Builds n (fun ts => κ ts ∧ q.holds ts = b) r (f b) Q) :
    Builds n κ r (Parser.ahead q >>= f) Q := by
  rintro s hs hs' rfl
  refine Accepts.act fun _ b t hperform _ => ?_
  cases hperform
  exact (h _).resume (.refl s) hs ⟨hs', rfl⟩

/-- Whether the next token touches the one before it is known from then on. -/
theorem touches {f : Bool → Routine α} {k : Kind} (hk : Solid k) (hκ : ∀ ts, κ ts → Next k ts)
    (h : ∀ b, Builds n (fun ts => κ ts ∧ ts.head?.any (·.immediate) = b) r (f b) Q) :
    Builds n κ r (Parser.touches >>= f) Q := by
  rintro s hs hs' rfl
  refine Accepts.act fun _ b t hperform _ => ?_
  have hunread := s.still_skip.unread_of_next hk (hκ _ hs')
  cases hperform
  exact (h _).resume s.still_skip hs ⟨hunread ▸ hs', rfl⟩

/-- Breaking down unless a token of a kind comes next. -/
theorem require {k : Kind} {f : Unit → Routine α} (h : Builds n (Next k) r (f ()) Q) :
    Builds n κ r (Parser.require k >>= f) Q := by
  rw [require_bind]
  exact .peek fun k' => .ite (fun hk => hk ▸ h) fun _ => .fail _

/-! ## Consuming -/

/-- A token that is no blank and no quote is consumed. -/
theorem advance {k : Kind} {f : Unit → Routine α} (hk : Solid k ∧ k ≠ .doubleQuote) (hκ : ∀ ts, κ ts → Next k ts)
    (h : ∀ t rest, t.kind = k → κ (t :: rest) → Tidy (decide (k = .minus)) rest →
      Builds n (· = rest) (r ++ [.leaf k t.text]) (f ()) Q) : Builds n κ r (Parser.advance >>= f) Q := by
  rintro s hs hs' rfl
  refine Accepts.act fun hsteady b t hperform _ => ?_
  obtain ⟨token, rest, hu, rfl⟩ := State.of_perform_advance hperform
  rw [hu] at hs'
  have hkind : token.kind = k := hκ _ hs'
  obtain ⟨signed, htidy⟩ := hs.tidy
  rw [hu] at htidy
  have hrest := htidy.tail (by rw [hkind]; exact hk.2)
  rw [hkind] at hrest
  have hleaf : Tree.solid [token.leaf] = [.leaf k token.text] := by
    simp [Tree.solid, Token.leaf, Tree.isBlank, hkind, hk.1.1, hk.1.2]
  have hrow := hsteady.row_consumed token rest
  rw [hleaf] at hrow
  have hfit : (s.consumed token rest).Fit := by
    refine ⟨⟨_, hrest⟩, fun x hx => ?_⟩
    rw [hrow] at hx
    rcases List.mem_append.mp hx with hx | hx
    · exact hs.sound x hx
    · rw [List.mem_singleton.mp hx]
      exact .leaf _ _
  exact (h token rest hkind hs' hrest _ hfit rfl hrow).imp fun a u hu => ⟨hu.1, ⟨hu.2.1.label, hu.2.1.below⟩, hu.2.2⟩

/-- A token of a known kind is consumed. -/
theorem take {k : Kind} {f : Unit → Routine α} (hk : Solid k ∧ k ≠ .doubleQuote) (hκ : ∀ ts, κ ts → Next k ts)
    (h : ∀ t, Builds n Anything (r ++ [.leaf k t]) (f ()) Q) : Builds n κ r (Parser.advance >>= f) Q :=
  advance hk hκ fun t _ _ _ _ => (h t.text).anywhere

/-- A token is consumed if it is there. -/
theorem eat {k : Kind} {f : Bool → Routine α} (hk : Solid k ∧ k ≠ .doubleQuote)
    (htrue : ∀ t, Builds n Anything (r ++ [.leaf k t]) (f true) Q) (hfalse : ∀ k', k' ≠ k → Builds n (Next k') r (f false) Q) :
    Builds n κ r (Parser.eat k >>= f) Q := by
  rw [eat_bind]
  refine .peek fun k' => .ite (fun hk' => ?_) fun hk' => hfalse k' fun h => hk' (beq_iff_eq.mpr h)
  rw [eq_of_beq hk']
  exact .take hk (fun _ h => h) htrue

end Builds

end Remap.Parser
