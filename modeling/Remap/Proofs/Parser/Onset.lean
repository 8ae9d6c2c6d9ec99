import Remap.Proofs.Parser.Builds
import Remap.Proofs.Parser.Mirror
import Remap.Proofs.Parser.Outlook

/-!
# Where an expression begins

Whether the first token of an expression touches what is before it makes no difference to the expression: nobody asks before that
token was consumed (`onset_assignment`).
-/

namespace Remap.Parser

variable {α β : Type} {n : Nat} {k : Kind}

/-- The two states differ in nothing but whether the next token, which is no blank, touches what is before it. -/
def Retouched (k : Kind) (s s' : State) : Prop :=
  ∃ t rest b, s.unread = t :: rest ∧ t.kind = k ∧ Solid k ∧ s' = { s with unread := { t with immediate := b } :: rest }

/-- A routine consumes the next token, of a kind, before it asks whether that touches what is before it. -/
def Onset (n : Nat) (k : Kind) (x : Routine α) : Prop := ∀ s s', Retouched k s s' → Mirrors n x s s' fun _ t t' => t' = t

namespace Retouched

variable {s s' : State}

theorem skip (h : Retouched k s s') : s.skip = s ∧ s'.skip = s' := by
  obtain ⟨t, rest, b, hunread, rfl, ⟨htrivia, hnewline⟩, rfl⟩ := h
  have hskips : (t.kind.isTrivia || (!s.separating && decide (t.kind = .newline))) = false := by
    rw [htrivia, decide_eq_false hnewline, Bool.and_false, Bool.or_false]
  refine ⟨State.skip_of_ready fun u us hu => ?_, State.skip_of_ready fun u us hu => ?_⟩
  · cases hunread.symm.trans hu
    exact hskips
  · cases hu
    exact hskips

theorem nextKind (h : Retouched k s s') : s.nextKind = k ∧ s'.nextKind = k := by
  obtain ⟨t, rest, b, hunread, rfl, -, rfl⟩ := h
  exact ⟨by simp only [State.nextKind, hunread], rfl⟩

theorem holds (h : Retouched k s s') (q : Lookahead) : q.holds s'.unread = q.holds s.unread := by
  obtain ⟨t, rest, b, hunread, -, -, rfl⟩ := h
  rw [hunread]
  cases q <;> rfl

theorem pushed (h : Retouched k s s') (label : Option Kind) : Retouched k (s.pushed label) (s'.pushed label) := by
  obtain ⟨t, rest, b, hunread, hk, hsolid, rfl⟩ := h
  refine ⟨t, rest, b, (s.unread_pushed label).trans hunread, hk, hsolid, ?_⟩
  rw [State.pushed, State.pushed, State.drain_eq, State.drain_eq]

/-- Once the token is consumed there is no difference any more. -/
theorem advance (h : Retouched k s s') : Action.advance.perform s' = Action.advance.perform s := by
  obtain ⟨t, rest, b, hunread, -, -, rfl⟩ := h
  rw [State.perform_advance hunread, State.perform_advance (s := { s with unread := { t with immediate := b } :: rest }) rfl]
  rfl

end Retouched

/-- A look finds the token. -/
theorem Retouched.peek {s s' : State} (h : Retouched k s s') : Mirrors n Parser.peek s s' fun a t t' => k = a ∧ Retouched k t t' := by
  refine .single fun _ a t hp _ => ?_
  obtain ⟨t₀, rest, b, hunread, hk, hsolid, hs'⟩ := id h
  simp only [Action.perform, h.skip, look, h.nextKind] at hp ⊢
  rw [show s'.patience = s.patience by rw [hs']]
  split at hp
  · cases hp
  · rename_i hpatience
    cases hp
    exact ⟨_, if_neg hpatience, rfl, t₀, rest, b, hunread, hk, hsolid, by rw [hs']⟩

/-- Where there is no difference there is none later on. -/
theorem Mirrors.same {x : Routine α} {s : State} : Mirrors n x s s fun _ t t' => t' = t := fun _ _ t hrun _ => ⟨t, hrun, rfl⟩

namespace Onset

theorem first {x : Routine β} {f : β → Routine α} (h : Onset n k x) : Onset n k (x >>= f) :=
  fun s s' hs => .bind ((h s s' hs).imp fun _ _ _ ht => ht ▸ .same)

theorem never {x : Routine α} (h : ∀ s, Accepts n x s fun _ _ => False) : Onset n k x := fun s _ _ => .never (h s)

theorem advance : Onset n k Parser.advance := by
  refine fun s s' hs => .single fun _ a t hp _ => ⟨t, ?_, rfl⟩
  rw [hs.advance, hp]

theorem ite {c : Prop} [Decidable c] {x y : Routine α} (hx : c → Onset n k x) (hy : ¬ c → Onset n k y) :
    Onset n k (if c then x else y) := by
  split
  · exact hx ‹_›
  · exact hy ‹_›

theorem peek {f : Kind → Routine α} (h : Onset n k (f k)) : Onset n k (Parser.peek >>= f) :=
  fun _ _ hs => .bind (hs.peek.imp fun _ t t' ht => ht.1 ▸ h t t' ht.2)

theorem peekIs {K : Kind} {f : Bool → Routine α} (h : Onset n k (f (k == K))) : Onset n k (Parser.peekIs K >>= f) := .peek h

theorem require {K : Kind} {f : Unit → Routine α} (h : k = K → Onset n k (f ())) : Onset n k (Parser.require K >>= f) := by
  rw [require_bind]
  exact .peek (.ite h fun _ _ _ _ => .fail _)

theorem ahead {q : Lookahead} {f : Bool → Routine α} (h : ∀ b, Onset n k (f b)) : Onset n k (Parser.ahead q >>= f) := by
  refine fun s s' hs => .bind (.single fun _ b t hp _ => ?_)
  cases hp
  exact ⟨s', by rw [Action.perform, hs.holds], h _ s s' hs⟩

theorem pushDelimiter {K : Kind} {f : Unit → Routine α} (h : Onset n k (f ())) :
    Onset n k (Parser.act (.pushDelimiter K) >>= f) := by
  refine fun s s' hs => .bind (.single fun _ b t hp _ => ?_)
  obtain ⟨t₀, rest, b, hunread, hk, hsolid, hs'⟩ := id hs
  simp only [Action.perform, hs.skip] at hp ⊢
  cases hp
  have hhere : s'.here = s.here := by
    rw [hs', State.here, State.here, hunread]
    rfl
  exact ⟨_, rfl, h _ _ ⟨t₀, rest, b, hunread, hk, hsolid, by rw [hhere, hs']⟩⟩

theorem node {K : Kind} {body : Routine α} (h : Onset n k body) : Onset n k (Parser.node K body) :=
  fun s s' hs => .bind (.single fun _ _ t hp _ => by cases hp; exact ⟨_, s'.perform_openNode K, h.first _ _ (hs.pushed _)⟩)

theorem marked {body : Routine α} (h : Onset n k body) : Onset n k (Parser.marked body) :=
  fun s s' hs => .bind (.single fun _ _ t hp _ => by cases hp; exact ⟨_, s'.perform_mark, h.first _ _ (hs.pushed _)⟩)

theorem nested {body : Routine Kind} (h : Onset n k body) : Onset n k (Parser.nested body) := by
  refine fun s s' hs => .bind (.single fun hsteady entry t hp hsilent => ?_)
  obtain ⟨t₀, rest, b, hunread, hk, hsolid, hs'⟩ := id hs
  rw [State.perform_enter] at hp ⊢
  rw [show s'.overflowed = s.overflowed by rw [hs'], show s'.depth = s.depth by rw [hs'], show s'.limit = s.limit by rw [hs']]
  split at hp
  · rename_i hover
    cases hp
    rw [(hsteady.calm hsilent.reports).1] at hover
    cases hover
  · rename_i hover
    split at hp <;> cases hp
    · rename_i hroom
      exact ⟨s'.deeper, by rw [if_neg hover, if_pos hroom], h.first _ _ ⟨t₀, rest, b, hunread, hk, hsolid, by rw [hs']; rfl⟩⟩
    · exact absurd hsilent.reports (List.cons_ne_nil _ _)

/-- Where no newline comes next, none is passed. -/
theorem newlines {f : Unit → Routine α} (h : Onset n k (f ())) : Onset n k (Parser.newlines >>= f) := by
  refine fun s s' hs => .bind (.rule fun m _ => .bind (.bind (hs.peek.imp ?_)))
  rintro _ t t' ⟨rfl, ht⟩
  refine .done ?_
  obtain ⟨_, _, _, _, _, hsolid, _⟩ := id ht
  rw [beq_false_of_ne hsolid.2]
  exact .done (h t t' ht)

end Onset

theorem onset_string : Onset n k string := .node <| .require fun _ => Onset.advance.first

theorem onset_simpleLiteral (K : Kind) : Onset n k (simpleLiteral K) :=
  .node <| .peekIs <| .ite (fun _ => Onset.advance.first) fun _ => Onset.advance.first

theorem onset_literal : Onset n k literal := by
  refine .peek ?_
  split
  case h_3 =>
    refine .ahead fun _ => .ite (fun _ => onset_simpleLiteral _) fun _ => .ahead fun _ => .ite (fun _ => onset_simpleLiteral _) fun _ => ?_
    exact .never fun _ => .never (.reportAndAdvance _ _)
  case h_4 => exact onset_string
  case h_11 => exact .never fun _ => .fail _
  all_goals exact onset_simpleLiteral _

theorem onset_delimited (opener : Kind) (list : ItemList) : Onset n k (delimited opener list) := .pushDelimiter Onset.advance.first

theorem onset_block : Onset n k block :=
  .peekIs <| .ite (fun _ => .node <| .pushDelimiter Onset.advance.first) fun _ => .never fun _ => .never (.reportFound _ _)

theorem onset_objectOrBlock : Onset n k objectOrBlock :=
  .require fun _ => .ahead fun _ => .ite (fun _ => .node (onset_delimited _ _).first) fun _ => onset_block

theorem onset_identOrCall : Onset n k identOrCall :=
  .require fun _ => .ahead fun _ => .ite (fun _ => .node Onset.advance.first) fun _ => .node Onset.advance.first

theorem onset_term : Onset n k term := by
  refine .nested <| .marked <| .peek ?_
  split
  case h_1 | h_2 => exact Onset.first (.node Onset.advance.first)
  case h_13 => exact Onset.first (.node (.pushDelimiter Onset.advance.first))
  case h_14 => exact Onset.first (.node (onset_delimited _ _).first)
  case h_15 => exact onset_objectOrBlock.first
  case h_16 => exact onset_identOrCall.first
  case h_17 => exact .never fun _ => .never .missingOperand
  all_goals exact onset_literal.first

theorem onset_unary : Onset n k (rule .unary) := by
  cases n with
  | zero => exact fun _ _ _ _ _ _ hrun => by cases hrun
  | succ n =>
    have hbody : Onset n k unaryBody := .newlines <| .peekIs <| .ite (fun _ => .nested (.node Onset.advance.first)) fun _ => onset_term
    exact hbody

theorem onset_binary (min : Nat) : Onset n k (rule (.binary min)) := by
  cases n with
  | zero => exact fun _ _ _ _ _ _ hrun => by cases hrun
  | succ n =>
    have hbody : Onset n k (binaryBody min) := .marked onset_unary.first
    exact hbody

theorem onset_assignment : Onset n k (rule .assignment) := by
  cases n with
  | zero => exact fun _ _ _ _ _ _ hrun => by cases hrun
  | succ n =>
    have hbody : Onset n k assignment := by
      refine .marked (Onset.first (.peekIs (.ite (fun _ => .node Onset.advance.first) fun _ => onset_binary 0)))
    exact hbody

end Remap.Parser
