import Remap.Proofs.Parser.Builds

/-!
# Strings in silent runs

Inside a string every token is looked at as it stands, blanks included. Between the quotes of tidy tokens the parser comes
by every piece up to the closing quote, so a string literal has both its quotes.
-/

namespace Remap.Parser

open State (SameFrame Still)

variable {α : Type} {n : Nat} {s : State}

/-- The very next token is consumed. -/
theorem Accepts.advance {f : Unit → Routine α} {Q : α → State → Prop} {t : Token} {rest : List Token}
    (hu : s.unread = t :: rest) (h : s.Steady → Accepts n (f ()) (s.consumed t rest) Q) :
    Accepts n (Parser.advance >>= f) s Q := by
  refine Accepts.act fun hsteady _ u hperform _ => ?_
  rw [State.perform_advance hu] at hperform
  cases hperform
  exact h hsteady

/-- A rule does what its body does. -/
theorem Accepts.rule {r : Rule α} {Q : α → State → Prop} (h : ∀ m, n = m + 1 → Accepts m (grammar r) s Q) :
    Accepts n (Parser.rule r) s Q := by
  cases n with
  | zero =>
    intro _ a t hrun _
    cases hrun
  | succ m => exact h m rfl

/-- What may stand between the quotes of a string. -/
def Inside (x : Tree) : Prop := x.Sound ∧ Shape.isQuote x = false

theorem inside_leaf {t : Token} (hk : t.kind ≠ .doubleQuote) : Inside t.leaf := by
  refine ⟨.leaf _ _, ?_⟩
  simp [Token.leaf, Shape.isQuote, hk]

/-- Parts of a string were added to the row. -/
structure State.Adds (s t : State) : Prop where
  frame : SameFrame s t
  row : ∃ xs, t.row = s.row ++ xs ∧ ∀ x ∈ xs, Inside x

namespace State.Adds

theorem refl (s : State) : Adds s s := ⟨.refl s, [], (List.append_nil _).symm, fun _ hx => absurd hx List.not_mem_nil⟩

theorem trans {s t u : State} (h : Adds s t) (h' : Adds t u) : Adds s u := by
  obtain ⟨xs, hxs, hx⟩ := h.row
  obtain ⟨ys, hys, hy⟩ := h'.row
  refine ⟨h.frame.trans h'.frame, xs ++ ys, by rw [hys, hxs, List.append_assoc], fun x hmem => ?_⟩
  rcases List.mem_append.mp hmem with hmem | hmem
  · exact hx x hmem
  · exact hy x hmem

theorem consumed {s : State} (hs : s.Steady) {t : Token} (rest : List Token) (hk : t.kind ≠ .doubleQuote) :
    Adds s (s.consumed t rest) := by
  refine ⟨⟨rfl, rfl⟩, Tree.solid [t.leaf], hs.row_consumed t rest, fun x hx => ?_⟩
  rw [List.mem_singleton.mp (List.mem_filter.mp hx).1]
  exact inside_leaf hk

end State.Adds

/-- The very next token is looked at. -/
theorem Accepts.peekRaw {f : Kind → Routine α} {Q : α → State → Prop}
    (h : ∀ t, t.unread = s.unread → State.Adds s t → Accepts n (f s.nextKind) t Q) : Accepts n (Parser.peekRaw >>= f) s Q := by
  refine Accepts.act fun _ k t hperform _ => ?_
  simp only [Action.perform, look] at hperform
  split at hperform <;> cases hperform
  exact h _ rfl ⟨⟨rfl, rfl⟩, (State.Adds.refl s).row⟩

/-- The inside of a template is consumed up to what closes it. -/
theorem accepts_templateParts {inner rest : List Token} {c : Token}
    (hinner : ∀ t ∈ inner, t.kind = .whitespace ∨ t.kind = .id) (hc : c.kind = .templateClose)
    (hu : s.unread = inner ++ c :: rest) :
    Accepts n (rule .templateParts) s fun _ t => t.unread = c :: rest ∧ State.Adds s t := by
  induction inner generalizing n s with
  | nil =>
    refine .rule fun m _ => .peekRaw fun s₁ hunread hlooked => ?_
    have hkind : s.nextKind = .templateClose := by simp only [State.nextKind, hu, List.nil_append, hc]
    rw [hkind]
    exact .done ⟨hunread.trans hu, hlooked⟩
  | cons t inner ih =>
    have ht := hinner t List.mem_cons_self
    have hne : t.kind ≠ .doubleQuote := by rcases ht with h | h <;> rw [h] <;> decide
    refine .rule fun m _ => .peekRaw fun s₁ hunread hlooked => ?_
    have hmore : Accepts m (do Parser.advance; Parser.rule .templateParts) s₁ fun _ u =>
        u.unread = c :: rest ∧ State.Adds s u := by
      refine .advance (hunread.trans hu) fun hsteady => ?_
      have hadds := State.Adds.consumed hsteady (inner ++ c :: rest) hne
      refine (ih (fun t ht => hinner t (List.mem_cons_of_mem _ ht)) rfl).imp fun _ u hu => ⟨hu.1, ?_⟩
      exact (hlooked.trans hadds).trans hu.2
    have hkind : s.nextKind = t.kind := by simp only [State.nextKind, hu, List.cons_append]
    rw [hkind]
    rcases ht with h | h <;> rw [h] <;> exact hmore

/-- A template is consumed whole. -/
theorem accepts_template {inner rest : List Token} {o c : Token} (ho : o.kind = .templateOpen)
    (hinner : ∀ t ∈ inner, t.kind = .whitespace ∨ t.kind = .id) (hc : c.kind = .templateClose)
    (hu : s.unread = o :: (inner ++ c :: rest)) :
    Accepts n template s fun _ t => t.unread = rest ∧ State.Adds s t := by
  refine .node (.advance ((s.unread_pushed _).trans hu) fun hsteady => ?_)
  have hopen := State.Adds.consumed hsteady (inner ++ c :: rest) (t := o) (by rw [ho]; decide)
  refine .bind ((accepts_templateParts hinner hc rfl).imp fun _ t ht => .peekRaw fun t₁ hunread hlooked => ?_)
  have hkind : t.nextKind = .templateClose := by simp only [State.nextKind, ht.1, hc]
  rw [hkind, if_pos rfl]
  refine Accepts.advance (f := pure) (hunread.trans ht.1) fun hsteady' => .done ?_
  have hclose := State.Adds.consumed hsteady' rest (t := c) (by rw [hc]; decide)
  have hadds := ((hopen.trans ht.2).trans hlooked).trans hclose
  refine ⟨hadds.frame, fun u hunread hframe hrow => ⟨hunread, hframe, _, hrow, fun x hmem => ?_⟩⟩
  obtain ⟨xs, hxs, hx⟩ := hadds.row
  rw [List.mem_singleton.mp hmem]
  refine ⟨Tree.sound_of_shape (.of_free (by decide) _) fun x hmem => ?_, rfl⟩
  have hsolid : (t₁.consumed c rest).row = xs := hxs
  exact (hx x (hsolid ▸ hmem)).1

/-- The rest of a string with its closing quote was added to the row. -/
def Closed (e : Token) (s t : State) : Prop :=
  SameFrame s t ∧ ∃ xs, t.row = s.row ++ (xs ++ [.leaf .doubleQuote e.text]) ∧ ∀ x ∈ xs, Inside x

theorem State.Adds.closed {e : Token} {s t u : State} (h : State.Adds s t) (h' : Closed e t u) : Closed e s u := by
  obtain ⟨xs, hxs, hx⟩ := h.row
  obtain ⟨hframe, ys, hys, hy⟩ := h'
  refine ⟨h.frame.trans hframe, xs ++ ys, by rw [hys, hxs]; simp only [List.append_assoc], fun x hmem => ?_⟩
  rcases List.mem_append.mp hmem with hmem | hmem
  · exact hx x hmem
  · exact hy x hmem

/-- The inside of a string is consumed together with its closing quote. -/
theorem accepts_stringParts {body rest : List Token} {e : Token} (hbody : StringBody body) (he : e.kind = .doubleQuote)
    (hu : s.unread = body ++ e :: rest) :
    Accepts n (rule .stringParts) s fun _ t => t.unread = rest ∧ Closed e s t := by
  induction hbody generalizing n s with
  | nil =>
    refine .rule fun m _ => .peekRaw fun s₁ hunread hlooked => ?_
    have hkind : s.nextKind = .doubleQuote := by simp only [State.nextKind, hu, List.nil_append, he]
    rw [hkind]
    refine Accepts.advance (f := pure) (hunread.trans hu) fun hsteady => .done ⟨rfl, hlooked.closed ⟨⟨rfl, rfl⟩, [], ?_, ?_⟩⟩
    · have hrow := hsteady.row_consumed e rest
      rw [Token.leaf, he] at hrow
      exact hrow
    · exact fun _ hx => absurd hx List.not_mem_nil
  | @piece t body ht _ ih =>
    have hne : t.kind ≠ .doubleQuote := by rcases ht with h | h <;> rw [h] <;> decide
    refine .rule fun m _ => .peekRaw fun s₁ hunread hlooked => ?_
    have hmore : Accepts m (do Parser.advance; Parser.rule .stringParts) s₁ fun _ u => u.unread = rest ∧ Closed e s u := by
      refine .advance (hunread.trans hu) fun hsteady => (ih rfl).imp fun _ u hu => ⟨hu.1, ?_⟩
      exact (hlooked.trans (.consumed hsteady _ hne)).closed hu.2
    have hkind : s.nextKind = t.kind := by simp only [State.nextKind, hu, List.cons_append]
    rw [hkind]
    rcases ht with h | h <;> rw [h] <;> exact hmore
  | @template o c inner body ho hinner hc _ ih =>
    refine .rule fun m _ => .peekRaw fun s₁ hunread hlooked => ?_
    have hkind : s.nextKind = .templateOpen := by simp only [State.nextKind, hu, List.cons_append, ho]
    rw [hkind]
    have hu₁ : s₁.unread = o :: (inner ++ c :: (body ++ e :: rest)) := by
      rw [hunread, hu]
      simp only [List.cons_append, List.append_assoc]
    refine .bind ((accepts_template ho hinner hc hu₁).imp fun _ t ht => (ih ht.1).imp fun _ u hu => ⟨hu.1, ?_⟩)
    exact (hlooked.trans ht.2).closed hu.2

/-- A string literal has both its quotes. -/
theorem builds_string {κ : List Token → Prop} {r : List Tree} :
    Builds n κ r string fun k r' => k = .stringLit ∧ ∃ cs, r' = r ++ [.node .stringLit cs] := by
  refine .node (.require ?_)
  rintro s hs hnext hrow
  obtain ⟨signed, htidy⟩ := hs.tidy
  cases hu : s.unread with
  | nil =>
    rw [hu] at hnext
    cases hnext
  | cons q ts =>
    rw [hu] at hnext htidy
    have hq : q.kind = .doubleQuote := hnext
    obtain ⟨body, e, rest, rfl, hbody, he, hrest⟩ := htidy.string_of_quote hq
    refine .advance hu fun hsteady => ?_
    have hopen := hsteady.row_consumed q (body ++ e :: rest)
    rw [hrow, Token.leaf, hq] at hopen
    refine .bind ((accepts_stringParts hbody he rfl).imp fun _ t ht => .done ?_)
    obtain ⟨hunread, hframe, xs, hxs, hinside⟩ := ht
    rw [hopen] at hxs
    have hall : t.row = .leaf .doubleQuote q.text :: (xs ++ [.leaf .doubleQuote e.text]) := hxs
    refine ⟨⟨⟨false, hunread ▸ hrest⟩, fun x hx => ?_⟩, ⟨hframe.label, hframe.below⟩, ?_, fun cs _ => ⟨rfl, cs, rfl⟩⟩
    · rw [hall] at hx
      rcases List.mem_cons.mp hx with rfl | hx
      · exact .leaf _ _
      · rcases List.mem_append.mp hx with hx | hx
        · exact (hinside x hx).1
        · rw [List.mem_singleton.mp hx]
          exact .leaf _ _
    · rw [hall]
      exact .stringLit fun x hx => (hinside x hx).2

end Remap.Parser
