import Remap.Proofs.Parser.Run

/-!
# The discipline of the grammar

The grammar consumes a token only where it stands, not somewhere in the trivia before it; it asks about the tokens ahead only
there; and it opens an error only where a problem was just reported, or the limit was just hit. All this can be read off the
routines: an outlook says what is known from the actions performed and the replies they got, and a routine heeds an outlook if
each of its actions is permitted by what is known by then. The grammar is gone through once here; what a run of a routine that
heeds its outlook keeps is then a matter of single actions.

The insides of strings and templates, and the rest of the input after the limit was hit, are read as they stand. In the rules
for these every token may be consumed.

A rule for an expression consumes a token that is neither trivia nor a newline, unless it returns the kind of an error.

What the grammar reports is where it says it is: a delimiter that it opens is the next token, one is reported as not closed only
at the end of the input, and an assignment target is reported only if something was consumed for it.
-/

namespace Remap

/-- Whether a token of a kind is neither trivia nor a newline. -/
def Kind.isSolid (k : Kind) : Bool := !(k.isTrivia || k = .newline)

namespace Parser

variable {α β : Type}

/-- What is known where a routine stands. -/
structure Outlook where
  /-- The very next token is not passed over. -/
  fresh : Bool := false
  /-- Its kind, if a look at it found that. -/
  next : Option Kind := none
  /-- The token after it is not passed over either. -/
  paired : Bool := false
  /-- A problem was reported at it, unless the limit had been hit before. -/
  heard : Bool := false
  /-- A problem was reported at it. -/
  told : Bool := false
  /-- The limit was hit just now, and the rest of the input is still unread. -/
  spill : Bool := false
  /-- Tokens are read as they stand. -/
  raw : Bool := false
  /-- All tokens were passed. -/
  ended : Bool := false
  /-- A token that is neither trivia nor a newline was consumed since the innermost node or mark began. -/
  begun : Bool := false
  /-- One was consumed since the rule was entered. -/
  landed : Bool := false

namespace Outlook

/-- What is known after trivia was passed over. -/
def looked (σ : Outlook) : Outlook :=
  if σ.fresh then σ
  else { fresh := true, spill := σ.spill, raw := σ.raw, ended := σ.ended, begun := σ.begun, landed := σ.landed }

/-- What is known after the next token was consumed. -/
def moved (σ : Outlook) : Outlook :=
  { fresh := σ.paired, spill := σ.spill, raw := σ.raw, begun := σ.begun || σ.next.any Kind.isSolid
    landed := σ.landed || σ.next.any Kind.isSolid }

/-- What is known after a node or a mark was opened. -/
def opened (σ : Outlook) : Outlook := { σ with begun := false }

/-- What is known after a rule was left, which consumed something or may not have done so: little about what comes next. -/
def returned (σ : Outlook) (consumed : Bool) : Outlook :=
  { raw := σ.raw, begun := σ.begun || consumed, landed := σ.landed || consumed }

/-- What is known after it was asked whether the input has ended. If it has not, the limit was not hit, unless just now. -/
def asked (σ : Outlook) (ended : Bool) : Outlook := { σ with told := σ.told || (σ.heard && !ended && !σ.spill) }

@[simp] theorem fresh_looked (σ : Outlook) : σ.looked.fresh = true := by
  unfold looked
  split
  · assumption
  · rfl

@[simp] theorem spill_looked (σ : Outlook) : σ.looked.spill = σ.spill := by
  unfold looked
  split <;> rfl

@[simp] theorem raw_looked (σ : Outlook) : σ.looked.raw = σ.raw := by
  unfold looked
  split <;> rfl

@[simp] theorem begun_looked (σ : Outlook) : σ.looked.begun = σ.begun := by
  unfold looked
  split <;> rfl

@[simp] theorem landed_looked (σ : Outlook) : σ.looked.landed = σ.landed := by
  unfold looked
  split <;> rfl

theorem looked_of_fresh {σ : Outlook} (h : σ.fresh = true) : σ.looked = σ := if_pos h

end Outlook

/-- Whether a question about a sign is about the sign of a number. -/
def Lookahead.isApt : Lookahead → Bool
  | .signs number => number = .integer || number = .float
  | _ => true

namespace Action

/-- Whether an action may be performed with what is known. -/
def permits : {α : Type} → Action α → Outlook → Bool
  | _, .advance, σ => σ.fresh || σ.raw
  | _, .ahead q, σ => q.isApt && σ.fresh
  | _, .peekRaw, σ => σ.raw
  | _, .openNode k, σ => k != .error || σ.told
  | _, .wrap k, _ => k != .error
  | _, .report p _, _ => p != .unexpectedEndOfInput
  | _, .reportUnclosed _, σ => σ.ended
  | _, .reportTarget _, σ => σ.begun
  | _, .pushDelimiter k, σ => k != .error && σ.next = some k
  | _, _, _ => true

/-- Whether an action can get a reply, with what is known. -/
def admits : {α : Type} → Action α → Outlook → α → Prop
  | _, .peek, σ, k => σ.next = none ∨ σ.next = some k
  | _, _, _, _ => True

/-- What is known after the reply to an action. -/
def outlook : {α : Type} → Action α → Outlook → α → Outlook
  | _, .peek, σ, k => { σ.looked with next := some k }
  | _, .touches, σ, _ | _, .settle, σ, _ | _, .reportUnclosed _, σ, _ | _, .pushDelimiter _, σ, _ => σ.looked
  | _, .ahead (.signs _), σ, b => { σ with paired := b }
  | _, .atEnd, σ, b => { σ.asked b with ended := σ.ended || b }
  | _, .stopped, σ, b => σ.asked b
  | _, .advance, σ, _ => σ.moved
  | _, .report _ _, σ, _ => { σ.looked with heard := true }
  | _, .openNode _, σ, _ | _, .mark, σ, _ => σ.opened
  | _, .enter, σ, .overflow => { σ.looked with told := true, spill := true }
  | _, .setSeparating _, σ, _ => { spill := σ.spill, raw := σ.raw, begun := σ.begun, landed := σ.landed }
  | _, _, σ, _ => σ

theorem permits_advance {σ : Outlook} (h : σ.fresh = true) : Action.advance.permits σ = true := Bool.or_eq_true_iff.mpr (.inl h)

theorem permits_ahead {q : Lookahead} {σ : Outlook} (hq : q.isApt = true) (h : σ.fresh = true) :
    (Action.ahead q).permits σ = true :=
  Bool.and_eq_true_iff.mpr ⟨hq, h⟩

/-- A look at a token of a known kind finds that kind. -/
theorem eq_of_admits {σ : Outlook} {k k' : Kind} (h : Action.peek.admits σ k') (hnext : σ.next = some k) : k' = k := by
  rcases h with hnone | hsome
  · rw [hnext] at hnone
    cases hnone
  · exact Option.some.inj (hsome.symm.trans hnext)

/-- What was consumed is not given back. -/
theorem landed_outlook {action : Action α} {σ : Outlook} (h : σ.landed = true) (a : α) : (action.outlook σ a).landed = true := by
  cases action with
  | ahead q => cases q <;> exact h
  | enter => cases a <;> first | exact h | exact σ.landed_looked.trans h
  | peek | touches | settle | reportUnclosed k | pushDelimiter k | report p d => exact σ.landed_looked.trans h
  | advance => exact Bool.or_eq_true_iff.mpr (.inl h)
  | _ => exact h

end Action

/-- What is known where a rule begins. -/
def Rule.outlook : {α : Type} → Rule α → Outlook
  | _, .absorb => { raw := true, spill := true }
  | _, .stringParts | _, .templateParts => { raw := true }
  | _, _ => {}

/-- Whether a rule is for the inside of a template. -/
def Rule.isInner : {α : Type} → Rule α → Bool
  | _, .templateParts => true
  | _, _ => false

/-- Whether a rule may be entered with what is known: after the limit was hit, only the one that consumes the rest; and the
inside of a template only where tokens are read as they stand. -/
def Rule.permits : {α : Type} → Rule α → Outlook → Bool
  | _, .absorb, _ => true
  | _, r, σ => !σ.spill && (!r.isInner || σ.raw)

/-- Whether a rule that returned this consumed a token that is neither trivia nor a newline: one for an expression did, unless
it returned the kind of an error. -/
def Rule.consumes : {α : Type} → Rule α → α → Bool
  | _, .statement, k | _, .assignment, k | _, .binary _, k | _, .unary, k => k != .error
  | _, .binaryRest _ lhs, k => lhs = .error && k != .error
  | _, _, _ => false

/-- Every action of a routine is permitted by what is known when it is performed, and what is known in the end satisfies
`Q`. -/
def Routine.Heeds : Routine α → Outlook → (α → Outlook → Prop) → Prop
  | .done a, σ, Q => Q a σ
  | .fail _, _, _ => True
  | .act action next, σ, Q =>
    action.permits σ = true ∧ ∀ b, action.admits σ b → (next b).Heeds (action.outlook σ b) Q
  | .call rule next, σ, Q => rule.permits σ = true ∧ ∀ b, (next b).Heeds (σ.returned (rule.consumes b)) Q
  | .jump rule, σ, Q => rule.permits σ = true ∧ ∀ a, Q a (σ.returned (rule.consumes a))

namespace Routine.Heeds

variable {σ : Outlook} {Q Q' : α → Outlook → Prop} {x : Routine α}

theorem imp (h : x.Heeds σ Q) (hQ : ∀ a τ, Q a τ → Q' a τ) : x.Heeds σ Q' := by
  induction x generalizing σ with
  | done a => exact hQ a σ h
  | fail f => trivial
  | act action next ih => exact ⟨h.1, fun b hb => ih b (h.2 b hb)⟩
  | call rule next ih => exact ⟨h.1, fun b => ih b (h.2 b)⟩
  | jump rule => exact ⟨h.1, fun a => hQ a _ (h.2 a)⟩

/-- One routine after another. -/
theorem bind {f : α → Routine β} {Q : β → Outlook → Prop} (h : x.Heeds σ fun a τ => (f a).Heeds τ Q) :
    (x >>= f).Heeds σ Q := by
  induction x generalizing σ with
  | done a => exact h
  | fail f => trivial
  | act action next ih => exact ⟨h.1, fun b hb => ih b (h.2 b hb)⟩
  | call rule next ih => exact ⟨h.1, fun b => ih b (h.2 b)⟩
  | jump rule => exact h

theorem ite {c : Prop} [Decidable c] {y : Routine α} (hx : c → x.Heeds σ Q) (hy : ¬ c → y.Heeds σ Q) :
    (if c then x else y).Heeds σ Q := by
  split
  · exact hx ‹_›
  · exact hy ‹_›

/-- What was consumed before a routine was consumed where it ends. -/
theorem landed (h : x.Heeds σ Q) (hσ : σ.landed = true) : x.Heeds σ fun a τ => Q a τ ∧ τ.landed = true := by
  have hreturned {τ : Outlook} (hτ : τ.landed = true) (consumed : Bool) : (τ.returned consumed).landed = true :=
    Bool.or_eq_true_iff.mpr (.inl hτ)
  induction x generalizing σ with
  | done a => exact ⟨h, hσ⟩
  | fail f => trivial
  | act action next ih => exact ⟨h.1, fun b hb => ih b (h.2 b hb) (Action.landed_outlook hσ b)⟩
  | call rule next ih => exact ⟨h.1, fun b => ih b (h.2 b) (hreturned hσ _)⟩
  | jump rule => exact ⟨h.1, fun a => ⟨h.2 a, hreturned hσ _⟩⟩

end Routine.Heeds

namespace Outlook

/-- Nothing need be known. -/
def Any (_ : Outlook) : Prop := True

/-- The very next token is not passed over. -/
def Fresh (σ : Outlook) : Prop := σ.fresh = true

/-- The very next token is of a kind and not passed over. -/
structure At (k : Kind) (σ : Outlook) : Prop where
  fresh : σ.fresh = true
  next : σ.next = some k

/-- The very next token is a minus sign, and a number touches it. -/
structure Signed (σ : Outlook) : Prop extends σ.At .minus where
  paired : σ.paired = true

/-- A problem was just reported at the next token. -/
structure Heard (σ : Outlook) : Prop where
  fresh : σ.fresh = true
  heard : σ.heard = true

/-- The next token follows an assignment target, for which something was consumed unless that is an error. -/
structure Aimed (lhs k : Kind) (σ : Outlook) : Prop extends σ.At k where
  begun : lhs ≠ .error → σ.begun = true
  landed : lhs ≠ .error → σ.landed = true

/-- All tokens were passed. -/
def Ended (σ : Outlook) : Prop := σ.ended = true

/-- What is known of the tokens is still known after a node or a mark was opened. -/
class Lasting (P : Outlook → Prop) : Prop where
  opened : ∀ {σ}, P σ → P σ.opened

instance : Lasting Any := ⟨id⟩

instance : Lasting Fresh := ⟨id⟩

instance {k : Kind} : Lasting (At k) := ⟨fun h => ⟨h.fresh, h.next⟩⟩

instance : Lasting Signed := ⟨fun h => ⟨Lasting.opened h.toAt, h.paired⟩⟩

instance : Lasting Heard := ⟨fun h => ⟨h.fresh, h.heard⟩⟩

instance : Lasting Ended := ⟨id⟩

end Outlook

open Outlook (Any Fresh At Signed Heard Aimed Ended Lasting)

/-- Wherever `P` is known and the limit was not hit just now, a routine heeds what is known, and `Q` is known in the end. -/
def Ensures (P : Outlook → Prop) (Q : α → Outlook → Prop) (x : Routine α) : Prop :=
  ∀ σ : Outlook, σ.spill = false → P σ → x.Heeds σ Q

/-- A routine heeds what is known. -/
abbrev Minds (P : Outlook → Prop) (x : Routine α) : Prop := Ensures P (fun _ τ => τ.spill = false) x

/-- A routine heeds what is known, and has consumed a token that is neither trivia nor a newline unless it returns the kind of an
error. -/
abbrev Lands (P : Outlook → Prop) (x : Routine Kind) : Prop :=
  Ensures P (fun k τ => τ.spill = false ∧ (k ≠ .error → τ.landed = true)) x

/-- Whether an action may always be performed and changes nothing in what is known of the tokens. -/
def Action.isIdle : {α : Type} → Action α → Bool
  | _, .openNode k | _, .wrap k => k != .error
  | _, .closeNode | _, .mark | _, .unmark | _, .checkParameters | _, .leave | _, .popDelimiter => true
  | _, _ => false

theorem Action.permits_of_isIdle {action : Action α} (h : action.isIdle = true) (σ : Outlook) : action.permits σ = true := by
  cases action <;> simp_all [isIdle, permits]

theorem Action.outlook_of_isIdle {action : Action α} (h : action.isIdle = true) (σ : Outlook) (a : α) :
    action.outlook σ a = σ ∨ action.outlook σ a = σ.opened := by
  cases action <;> first | exact .inl rfl | exact .inr rfl | cases h

namespace Ensures

variable {P P' : Outlook → Prop} {Q : α → Outlook → Prop} {R : β → Outlook → Prop} {x : Routine α} {f : α → Routine β}

theorem imp {Q' : α → Outlook → Prop} (h : Ensures P Q x) (hQ : ∀ a τ, Q a τ → Q' a τ) : Ensures P Q' x :=
  fun σ hσ hp => (h σ hσ hp).imp hQ

theorem weaken (h : Ensures P Q x) (hP : ∀ σ, P' σ → P σ) : Ensures P' Q x := fun σ hσ hp => h σ hσ (hP σ hp)

theorem any (h : Ensures Any Q x) : Ensures P Q x := h.weaken fun _ _ => trivial

theorem of_fresh {k : Kind} (h : Ensures Fresh Q x) : Ensures (At k) Q x := h.weaken fun _ hσ => hσ.fresh

theorem done (a : α) : Minds P (pure a : Routine α) := fun _ hσ _ => hσ

theorem fail (e : Fault) : Ensures P Q (.fail e : Routine α) := fun _ _ _ => trivial

theorem bind (hx : Minds P x) (hf : ∀ a, Ensures Any R (f a)) : Ensures P R (x >>= f) := by
  intro σ hσ hp
  exact .bind ((hx σ hσ hp).imp fun a τ hτ => hf a τ hτ trivial)

theorem ite {c : Prop} [Decidable c] {y : Routine α} (hx : Ensures P Q x) (hy : Ensures P Q y) : Ensures P Q (if c then x else y) := by
  split
  · exact hx
  · exact hy

/-- A rule, whatever is known. Where it ends nothing is known of the tokens. -/
theorem rule (r : Rule α) (hr : r.isInner = false) : Minds P (Parser.rule r) := by
  intro σ hσ _
  refine ⟨?_, fun _ => rfl⟩
  cases r <;> simp_all [Rule.permits]

theorem idle [Lasting P] {action : Action α} (h : action.isIdle = true) (hf : ∀ a, Ensures P R (f a)) :
    Ensures P R (act action >>= f) := by
  intro σ hσ hp
  refine ⟨action.permits_of_isIdle h σ, fun a _ => ?_⟩
  rcases Action.outlook_of_isIdle h σ a with hsame | hopened
  · rw [hsame]
    exact hf a σ hσ hp
  · rw [hopened]
    exact hf a σ.opened hσ (Lasting.opened hp)

theorem last {action : Action α} (h : action.isIdle = true) : Minds P (act action) := by
  intro σ hσ _
  refine ⟨action.permits_of_isIdle h σ, fun a _ => ?_⟩
  rcases Action.outlook_of_isIdle h σ a with hsame | hopened
  · rw [hsame]
    exact hσ
  · rw [hopened]
    exact hσ

/-- What is known in the end is known after one more action that changes nothing. -/
theorem before {action : Action β} (h : action.isIdle = true) (hsame : ∀ σ b, action.outlook σ b = σ) (hx : Ensures P Q x) :
    Ensures P Q (x >>= fun a => act action >>= fun _ => pure a) := by
  intro σ hσ hp
  refine .bind ((hx σ hσ hp).imp fun a τ hτ => ⟨action.permits_of_isIdle h τ, fun b _ => ?_⟩)
  rw [hsame]
  exact hτ

theorem node [Lasting P] {k : Kind} (hk : (k != .error) = true) (h : Ensures P Q x) : Ensures P Q (Parser.node k x) :=
  .idle hk fun _ => .before rfl (fun _ _ => rfl) h

theorem wrapped [Lasting P] {k : Kind} (hk : (k != .error) = true) (h : Ensures P Q x) : Ensures P Q (Parser.wrapped k x) :=
  .idle hk fun _ => .before rfl (fun _ _ => rfl) h

theorem marked [Lasting P] (h : Ensures P Q x) : Ensures P Q (Parser.marked x) :=
  .idle rfl fun _ => .before rfl (fun _ _ => rfl) h

theorem setSeparating {b : Bool} {f : Bool → Routine β} (h : ∀ a, Ensures Any R (f a)) :
    Ensures P R (act (.setSeparating b) >>= f) :=
  fun _ hσ _ => ⟨rfl, fun a _ => h a _ hσ trivial⟩

theorem separating (b : Bool) (h : Minds Any x) : Minds P (Parser.separating b x) :=
  .setSeparating fun _ => .bind h fun a => .setSeparating fun _ => .done a

/-! Looking at what comes next. -/

theorem peek {f : Kind → Routine β} (h : ∀ k, Ensures (At k) R (f k)) : Ensures P R (Parser.peek >>= f) := by
  intro σ hσ _
  exact ⟨rfl, fun k _ => h k _ (σ.spill_looked.trans hσ) ⟨σ.fresh_looked, rfl⟩⟩

/-- A look at a token of a known kind finds that kind. -/
theorem peek_at {f : Kind → Routine β} {k : Kind} (h : Ensures (At k) R (f k)) : Ensures (At k) R (Parser.peek >>= f) := by
  intro σ hσ hat
  refine ⟨rfl, fun k' hk' => ?_⟩
  obtain rfl := Action.eq_of_admits hk' hat.next
  exact h _ (σ.spill_looked.trans hσ) ⟨σ.fresh_looked, rfl⟩

theorem peek_signed {f : Kind → Routine β} (h : Ensures Signed R (f .minus)) : Ensures Signed R (Parser.peek >>= f) := by
  intro σ hσ hat
  refine ⟨rfl, fun k' hk' => ?_⟩
  obtain rfl := Action.eq_of_admits hk' hat.next
  have hlooked : Action.peek.outlook σ .minus = σ := by
    change { σ.looked with next := some .minus } = σ
    rw [Outlook.looked_of_fresh hat.fresh, ← hat.next]
  rw [hlooked]
  exact h σ hσ hat

theorem peekIs {k : Kind} {f : Bool → Routine β} (htrue : Ensures (At k) R (f true)) (hfalse : Ensures Fresh R (f false)) :
    Ensures P R (Parser.peekIs k >>= f) := by
  refine peek (f := fun k' => f (k' == k)) fun k' => ?_
  by_cases hk : k' = k
  · subst hk
    rw [beq_self_eq_true]
    exact htrue
  · rw [beq_false_of_ne hk]
    exact hfalse.of_fresh

/-- Whether a token of a known kind has a kind. -/
theorem peekIs_at {k k' : Kind} {f : Bool → Routine β} (h : Ensures (At k') R (f (k' == k))) :
    Ensures (At k') R (Parser.peekIs k >>= f) :=
  peek_at (f := fun k'' => f (k'' == k)) h

theorem eat (k : Kind) : Minds P (Parser.eat k) :=
  .peekIs (fun _ hσ hat => ⟨Action.permits_advance hat.fresh, fun _ _ => hσ⟩) (.done _)

theorem require {k : Kind} {f : Unit → Routine β} (h : Ensures (At k) R (f ())) : Ensures P R (Parser.require k >>= f) := by
  rw [require_bind]
  refine .peek fun k' => ?_
  by_cases hk : k' = k
  · subst hk
    rw [if_pos rfl]
    exact h
  · rw [if_neg hk]
    exact .fail _

/-- Whether a token of a known kind touches the one before it. -/
theorem touches_at {f : Bool → Routine β} {k : Kind} (hfalse : Ensures (At k) R (f false)) (htrue : Ensures (At k) R (f true)) :
    Ensures (At k) R (Parser.touches >>= f) := by
  intro σ hσ hat
  refine ⟨rfl, fun b _ => ?_⟩
  have hlooked : Action.touches.outlook σ b = σ := Outlook.looked_of_fresh hat.fresh
  rw [hlooked]
  cases b with
  | true => exact htrue σ hσ hat
  | false => exact hfalse σ hσ hat

theorem touches {f : Bool → Routine β} (h : ∀ b, Ensures Fresh R (f b)) : Ensures P R (Parser.touches >>= f) :=
  fun σ hσ _ => ⟨rfl, fun b _ => h b _ (σ.spill_looked.trans hσ) σ.fresh_looked⟩

theorem ahead {q : Lookahead} (hq : q.isApt = true) {f : Bool → Routine β} {k : Kind} (h : ∀ b, Ensures (At k) R (f b)) :
    Ensures (At k) R (Parser.ahead q >>= f) := by
  intro σ hσ hat
  refine ⟨Action.permits_ahead hq hat.fresh, fun b _ => ?_⟩
  cases q <;> exact h b _ hσ ⟨hat.fresh, hat.next⟩

/-- A number that touches the minus sign before it. -/
theorem signs {number : Kind} (hnumber : (Lookahead.signs number).isApt = true) {f : Bool → Routine β}
    (htrue : Ensures Signed R (f true)) (hfalse : Ensures (At .minus) R (f false)) :
    Ensures (At .minus) R (Parser.ahead (.signs number) >>= f) := by
  intro σ hσ hat
  refine ⟨Action.permits_ahead hnumber hat.fresh, fun b _ => ?_⟩
  cases b with
  | true => exact htrue _ hσ ⟨⟨hat.fresh, hat.next⟩, rfl⟩
  | false => exact hfalse _ hσ ⟨hat.fresh, hat.next⟩

theorem atEnd {f : Bool → Routine β} (htrue : Ensures Ended R (f true)) (hfalse : Ensures Any R (f false)) :
    Ensures P R (Parser.atEnd >>= f) := by
  refine fun σ hσ _ => ⟨rfl, fun b _ => ?_⟩
  cases b with
  | true => exact htrue _ hσ (Bool.or_true _)
  | false => exact hfalse _ hσ trivial

theorem stopped {f : Bool → Routine β} (h : ∀ b, Ensures Any R (f b)) : Ensures P R (Parser.stopped >>= f) :=
  fun _ hσ _ => ⟨rfl, fun b _ => h b _ hσ trivial⟩

theorem pushDelimiter {k : Kind} (hk : (k != .error) = true) {f : Unit → Routine β} (h : Ensures (At k) R (f ())) :
    Ensures (At k) R (act (.pushDelimiter k) >>= f) := by
  intro σ hσ hat
  refine ⟨Bool.and_eq_true_iff.mpr ⟨hk, decide_eq_true hat.next⟩, fun _ _ => ?_⟩
  have hlooked : (Action.pushDelimiter k).outlook σ () = σ := Outlook.looked_of_fresh hat.fresh
  rw [hlooked]
  exact h σ hσ hat

/-! Consuming what comes next. -/

theorem advance : Minds Fresh Parser.advance := by
  intro σ hσ hfresh
  exact ⟨Action.permits_advance hfresh, fun _ _ => hσ⟩

/-- The first of two tokens of which the second is not passed over. -/
theorem advance_signed {f : Unit → Routine β} (h : Ensures Fresh R (f ())) : Ensures Signed R (Parser.advance >>= f) := by
  intro σ hσ hat
  exact ⟨Action.permits_advance hat.fresh, fun _ _ => h _ hσ hat.paired⟩

/-! Reporting. -/

theorem report {p : Problem} (hp : (p != .unexpectedEndOfInput) = true) (d : Option Detail) : Minds P (Parser.report p d) :=
  fun σ hσ _ => ⟨hp, fun _ _ => σ.spill_looked.trans hσ⟩

theorem reportUnclosed {k : Kind} {f : Unit → Routine β} (h : Ensures Any R (f ())) :
    Ensures Ended R (act (.reportUnclosed k) >>= f) :=
  fun σ hσ hended => ⟨hended, fun _ _ => h _ (σ.spill_looked.trans hσ) trivial⟩

/-! Consuming something on the way. -/

theorem minds {x : Routine Kind} (h : Lands P x) : Minds P x := fun σ hσ hp => (h σ hσ hp).imp fun _ _ hτ => hτ.1

theorem done_error : Lands P (pure .error : Routine Kind) := fun _ hσ _ => ⟨hσ, fun hne => absurd rfl hne⟩

/-- After something was consumed, whatever follows has consumed it. -/
theorem landed {x : Routine Kind} {σ : Outlook} (h : Minds P x) (hσ : σ.spill = false) (hp : P σ) (hlanded : σ.landed = true) :
    x.Heeds σ fun k τ => τ.spill = false ∧ (k ≠ .error → τ.landed = true) :=
  ((h σ hσ hp).landed hlanded).imp fun _ _ hτ => ⟨hτ.1, fun _ => hτ.2⟩

/-- A token that is neither trivia nor a newline. -/
theorem land {k : Kind} (hk : k.isSolid = true) {f : Unit → Routine Kind} (h : Minds Any (f ())) :
    Lands (At k) (Parser.advance >>= f) := by
  intro σ hσ hat
  refine ⟨Action.permits_advance hat.fresh, fun _ _ => h.landed (σ := σ.moved) hσ trivial ?_⟩
  simp [Outlook.moved, hat.next, hk]

/-- The first of two tokens of which the second is not passed over. -/
theorem land_signed {f : Unit → Routine Kind} (h : Minds Fresh (f ())) : Lands Signed (Parser.advance >>= f) := by
  intro σ hσ hat
  refine ⟨Action.permits_advance hat.fresh, fun _ _ => h.landed (σ := σ.moved) hσ hat.paired ?_⟩
  simp [Outlook.moved, hat.next, Kind.isSolid, Kind.isTrivia]

/-- A node at the innermost mark that is opened before a token that is neither trivia nor a newline. -/
theorem land_wrapped {k next : Kind} (hk : (k != .error) = true) (hnext : next.isSolid = true) {g : Unit → Routine β}
    {f : β → Routine Kind} (hg : Minds Any (g ())) (hf : ∀ b, Minds Any (f b)) :
    Lands (At next) (Parser.wrapped k (Parser.advance >>= g) >>= f) := by
  simp only [Parser.wrapped, Routine.bind_eq, Routine.bind_assoc]
  exact .idle hk fun _ => .land hnext <| .bind hg fun b => .idle rfl fun _ => hf b

/-- A routine that has consumed something unless it returns the kind of an error, and then another that returns that kind if the
first one did. -/
theorem onward {x : Routine Kind} {f : Kind → Routine Kind} (hx : Lands P x) (hf : ∀ k, Minds Any (f k))
    (herror : Lands Any (f .error)) : Lands P (x >>= f) := by
  refine fun σ hσ hp => .bind ((hx σ hσ hp).imp fun k τ ⟨hτ, hlanded⟩ => ?_)
  by_cases hk : k = .error
  · exact hk ▸ herror τ hτ trivial
  · exact (hf k).landed hτ trivial (hlanded hk)

/-- One level deeper nothing is forgotten; where the limit is hit, the rest becomes an error. -/
theorem nested {body : Routine Kind} (h : Lands P body) : Lands P (Parser.nested body) := by
  intro σ hσ hp
  refine ⟨rfl, fun entry _ => ?_⟩
  cases entry with
  | entered =>
    have hbody : Lands P (body >>= fun k => act .leave >>= fun _ => pure k) := .before rfl (fun _ _ => rfl) h
    exact hbody σ hσ hp
  | blocked => exact done_error σ hσ hp
  | overflow =>
    refine ⟨rfl, fun _ _ => ⟨rfl, fun _ => ?_⟩⟩
    exact ⟨rfl, fun _ _ => ⟨rfl, fun _ _ => ⟨rfl, fun hne => absurd rfl hne⟩⟩⟩

/-- A rule for an expression. -/
theorem landing {r : Rule Kind} (hr : r.isInner = false) (hconsumes : ∀ k, r.consumes k = (k != .error)) : Lands P (Parser.rule r) :=
  fun σ hσ hp => ⟨(rule (P := P) r hr σ hσ hp).1, fun k => ⟨rfl, fun hk => by simp [Outlook.returned, hconsumes, hk]⟩⟩

end Ensures

/-- After what was expected was reported, it is known that a problem was reported at the next token. -/
theorem heeds_report {p : Problem} (hp : (p != .unexpectedEndOfInput) = true) {d : Option Detail} {σ : Outlook}
    (hσ : σ.spill = false) : (report p d).Heeds σ fun _ τ => τ.spill = false ∧ τ.Heard :=
  ⟨hp, fun _ _ => ⟨σ.spill_looked.trans hσ, σ.fresh_looked, rfl⟩⟩

theorem heeds_reportFound {p : Problem} (hp : (p != .unexpectedEndOfInput) = true) {e : Option Expectation} {σ : Outlook}
    (hσ : σ.spill = false) : (reportFound p e).Heeds σ fun _ τ => τ.spill = false ∧ τ.Heard := by
  refine ⟨rfl, fun k _ => ⟨rfl, fun b _ => .ite (fun _ => heeds_report hp ?_) (fun _ => ?_)⟩⟩
  · simpa [Action.outlook, Outlook.asked] using hσ
  · cases e <;> exact heeds_report hp (by simpa [Action.outlook, Outlook.asked] using hσ)

section Grammar

variable {P : Outlook → Prop}

theorem minds_reportFound {p : Problem} (hp : (p != .unexpectedEndOfInput) = true) (e : Option Expectation) :
    Minds P (reportFound p e) :=
  fun _ hσ _ => (heeds_reportFound hp hσ).imp fun _ _ hτ => hτ.1

/-- A token is consumed as an error only if there is one, so the problem was reported at it. -/
theorem minds_reportAndAdvance {p : Problem} (hp : (p != .unexpectedEndOfInput) = true) (d : Detail) :
    Minds P (reportAndAdvance p d) := by
  intro σ hσ _
  refine .bind ((heeds_report hp hσ).imp fun _ τ ⟨hτ, hheard⟩ => ⟨rfl, fun b _ => ?_⟩)
  cases b with
  | true => exact hτ
  | false =>
    refine ⟨by simp [Action.permits, Action.outlook, Outlook.asked, hheard.heard, hτ], fun _ _ => ?_⟩
    exact ⟨by simp [Action.permits, Action.outlook, Outlook.opened, Outlook.asked, hheard.fresh], fun _ _ => ⟨rfl, fun _ _ => hτ⟩⟩

theorem minds_newlines : Minds P newlines := .rule .newlines rfl

theorem minds_newlinesBody : Minds P newlinesBody :=
  .peekIs (.bind (.of_fresh .advance) fun _ => minds_newlines) (.done _)

theorem minds_skipToBody (stops : KindSet) (depth : Nat) : Minds P (skipToBody stops depth) :=
  .stopped fun _ => .ite (.done _) <| .peek fun k => .ite (.done _) <|
    .bind (.of_fresh .advance) fun _ => .rule (.skipTo stops (depthAfter depth k)) rfl

/-- What is skipped is an error, and is skipped where a problem was reported. -/
theorem minds_resync (stops : KindSet) : Minds Heard (resync stops) := by
  intro σ hσ hheard
  refine ⟨rfl, fun b _ => ?_⟩
  cases b with
  | true => exact hσ
  | false =>
    refine ⟨rfl, fun k _ => .ite (fun _ => ?_) (fun _ => ?_)⟩
    · exact (Outlook.spill_looked _).trans hσ
    · refine ⟨?_, fun _ _ => ⟨?_, fun _ => ⟨rfl, fun _ _ => rfl⟩⟩⟩
      · simp [Action.permits, Action.outlook, Outlook.asked, Outlook.looked, hheard.fresh, hheard.heard, hσ]
      · simpa [Rule.permits, Rule.isInner, Action.outlook, Outlook.opened, Outlook.asked] using hσ

theorem minds_close (k : Kind) : Minds P (close k) := by
  have hunclosed (b : Bool) : Minds Any (if b then act .popDelimiter else do
      if ← atEnd then act (.reportUnclosed k)
      act .popDelimiter) :=
    .ite (.last rfl) <| .atEnd (.reportUnclosed (.last rfl)) (.last rfl)
  refine .bind (.eat k) fun _ => .ite (.last rfl) <| .stopped fun _ => .ite (.bind (.done false) hunclosed) ?_
  intro σ hσ _
  refine .bind ((heeds_report rfl hσ).imp fun _ τ ⟨hτ, hheard⟩ => ?_)
  exact (Ensures.bind (minds_resync _) fun _ => .bind (.eat k) hunclosed) τ hτ hheard

/-! Literals and paths. -/

theorem lands_string : Lands P string :=
  .any <| .node rfl <| .require <| .land rfl <| .bind (.rule .stringParts rfl) fun _ => .done _

/-- A literal that does not begin with a minus sign. -/
theorem lands_simpleLiteral {k next : Kind} (hk : (k != .error) = true) (hnext : (next == .minus) = false)
    (hsolid : next.isSolid = true) : Lands (At next) (simpleLiteral k) := by
  refine .node hk (.peek_at (f := fun k' => if k' == .minus then _ else _) ?_)
  rw [hnext]
  exact .land hsolid (.done k)

theorem lands_signedLiteral {k : Kind} (hk : (k != .error) = true) : Lands Signed (simpleLiteral k) := by
  refine .node hk (.peek_signed (f := fun k' => if k' == .minus then _ else _) ?_)
  exact .land_signed <| .bind .advance fun _ => .done k

theorem lands_literal : Lands P literal := by
  refine .peek fun k => ?_
  split
  case h_3 =>
    refine .signs rfl (lands_signedLiteral rfl) <| .signs rfl (lands_signedLiteral rfl) ?_
    exact .bind (minds_reportAndAdvance rfl _) fun _ => .done_error
  case h_4 => exact lands_string
  case h_11 => exact .fail _
  all_goals exact lands_simpleLiteral rfl rfl rfl

theorem minds_fieldName : Minds P fieldName :=
  .peekIs (.bind lands_string.minds fun _ => .done _) .advance

theorem minds_fieldSegment : Minds P fieldSegment := by
  have hname (b : Bool) : Minds Any (if b then fieldName else reportFound .invalidPathContinuation (some .fieldAfterDot)) :=
    .ite minds_fieldName (minds_reportFound rfl _)
  refine .any <| .node rfl <| .require <| .bind (.of_fresh .advance) fun _ => .peek fun k => .ite ?_ ?_
  · exact .touches fun b => (hname b).any
  · exact .bind (.done _) hname

theorem minds_indexSegment : Minds (At .bracketOpen) indexSegment := by
  have hend : Minds Any (do newlines; close .bracketClose) := .bind minds_newlines fun _ => minds_close _
  have hexpect : Minds Any (do reportFound .unexpectedToken (some .indexInteger); newlines; close .bracketClose) :=
    .bind (minds_reportFound rfl _) fun _ => hend
  refine .node rfl <| .pushDelimiter rfl <| .bind (.of_fresh .advance) fun _ => .bind minds_newlines fun _ => .peek fun k => ?_
  split
  · exact .bind (.of_fresh .advance) fun _ => hend
  · exact .signs rfl (.advance_signed <| .bind .advance fun _ => hend) hexpect.any
  · exact hexpect.any

/-- Where a path segment is, the next token is a dot or an opening bracket. -/
theorem minds_atSegment {f : Bool → Routine β} (hdot : Minds (At .dot) (f true)) (hbracket : Minds (At .bracketOpen) (f true))
    (hfalse : Minds Fresh (f false)) : Minds P (atSegment >>= f) := by
  rw [atSegment_bind]
  refine .peek fun k => ?_
  by_cases hk : k = .dot ∨ k = .bracketOpen
  · rw [if_pos (by simpa using hk)]
    rcases hk with rfl | rfl
    · exact .touches_at (.of_fresh hfalse) hdot
    · exact .touches_at (.of_fresh hfalse) hbracket
  · rw [if_neg (by simpa using hk)]
    exact .of_fresh hfalse

theorem minds_atFirstSegment {f : Bool → Routine β} (h : ∀ b, Minds Fresh (f b)) : Minds P (atFirstSegment >>= f) := by
  rw [atFirstSegment_bind]
  exact .peek fun _ => .ite (.touches h) (.of_fresh (h false))

theorem minds_pathSegmentsBody : Minds P pathSegmentsBody := by
  refine minds_atSegment (.peekIs_at ?_) (.peekIs_at ?_) (.done _)
  · exact .bind minds_fieldSegment fun _ => .rule .pathSegments rfl
  · exact .bind minds_indexSegment fun _ => .rule .pathSegments rfl

theorem lands_externalQuery {k : Kind} (hk : k.isSolid = true) : Lands (At k) externalQuery := by
  have hsegments {P : Outlook → Prop} : Minds P (do
      report .invalidPathContinuation (some (.expected .segmentAfterRoot))
      node .path (rule .pathSegments)
      return .query : Routine Kind) :=
    .bind (.report rfl _) fun _ => .bind (.node rfl (.rule .pathSegments rfl)) fun _ => .done _
  refine .node rfl <| .land hk <| minds_atFirstSegment fun _ => .ite ?_ (minds_atSegment hsegments hsegments (.done _))
  refine .bind (.node rfl <| .peekIs ?_ ?_) fun _ => .done _
  · exact .bind minds_indexSegment fun _ => .rule .pathSegments rfl
  · exact .bind (.node rfl minds_fieldName) fun _ => .rule .pathSegments rfl

theorem minds_continuePath (k : Kind) : Minds P (continuePath k) := by
  have hquery (b : Bool) : Minds Any (if b then (do
      wrapped .query (node .path (rule .pathSegments)); return .query) else return k) :=
    .ite (.bind (.wrapped rfl (.node rfl (.rule .pathSegments rfl))) fun _ => .done _) (.done _)
  exact .ite (minds_atSegment (hquery true).any (hquery true).any (hquery false).any) (.bind (.done _) hquery)

/-- A path continues only what is no error. -/
theorem lands_continuePath {x : Routine Kind} (h : Lands P x) : Lands P (x >>= continuePath) :=
  .onward h minds_continuePath .done_error

/-! Containers, calls and terms. -/

theorem lands_group : Lands (At .parenOpen) group := by
  refine .node rfl <| .pushDelimiter rfl <| .land rfl <| .bind (.separating false ?_) fun _ => .done _
  refine .peek fun k => .ite ?_ ?_
  · exact .bind (.rule .assignment rfl) fun _ => minds_close _
  · exact .bind (minds_reportFound rfl _) fun _ => minds_close _

theorem minds_separated (list : ItemList) : Minds P (separating true do
    rule (.items list)
    close list.closer) :=
  .separating true <| .bind (.rule (.items list) rfl) fun _ => minds_close _

theorem minds_delimited {opener : Kind} (hopener : (opener != .error) = true) (list : ItemList) :
    Minds (At opener) (delimited opener list) :=
  .pushDelimiter hopener <| .bind (.of_fresh .advance) fun _ => minds_separated list

theorem lands_delimited {opener : Kind} {list : ItemList} (hopener : (opener != .error) = true) (hsolid : opener.isSolid = true)
    (k : Kind) :
    Lands (At opener) (delimited opener list >>= fun _ => pure k) := by
  simp only [delimited, Routine.bind_eq, Routine.bind_assoc]
  exact .pushDelimiter hopener <| .land hsolid <| .bind (minds_separated list) fun _ => .done k

theorem lands_array : Lands (At .bracketOpen) array := .node rfl (lands_delimited rfl rfl _)

theorem lands_object : Lands (At .braceOpen) object := .node rfl (lands_delimited rfl rfl _)

theorem lands_block : Lands P block := by
  refine .peekIs (.node rfl <| .pushDelimiter rfl <| .land rfl ?_) ?_
  · exact .bind (.separating true (.rule (.statements (some .braceClose)) rfl)) fun _ => .bind (minds_close _) fun _ => .done _
  · exact .bind (minds_reportFound rfl _) fun _ => .done_error

theorem minds_element : Minds P element :=
  .peek fun _ => .ite (.bind (.rule (.binary 0) rfl) fun _ => .done _) (.bind (minds_reportFound rfl _) fun _ => .done _)

theorem minds_entry : Minds P entry := by
  refine .peekIs ?_ (.bind (minds_reportFound rfl _) fun _ => .done _)
  refine .bind (.node rfl <| .bind lands_string.minds fun _ => .bind minds_newlines fun _ => ?_) fun _ => .done _
  refine .bind (.eat _) fun _ => .ite ?_ (.report rfl _)
  exact .bind minds_newlines fun _ => .bind minds_element fun _ => .done _

theorem minds_argument : Minds P argument := by
  have hnamed (b : Bool) : Minds Fresh (if b then (do
      node .namedArgument do
        advance
        let _ ← eat .colon
        newlines
        let _ ← element
      return true) else element) := by
    refine .ite (.bind (.node rfl <| .bind .advance fun _ => .bind (.eat _) fun _ => ?_) fun _ => .done _) minds_element
    exact .bind minds_newlines fun _ => .bind minds_element fun _ => .done _
  exact .peek fun k => .ite (.ahead rfl fun b => .of_fresh (hnamed b)) (.of_fresh (hnamed false))

theorem minds_parameter : Minds P parameter :=
  .peek fun _ => .ite (.bind (.of_fresh .advance) fun _ => .done _) (.bind (minds_reportFound rfl _) fun _ => .done _)

theorem minds_item (list : ItemList) : Minds P (item list) := by
  cases list with
  | elements => exact minds_element
  | entries => exact minds_entry
  | arguments => exact minds_argument
  | parameters => exact minds_parameter

theorem minds_itemsBody (list : ItemList) : Minds P (itemsBody list) := by
  refine .bind minds_newlines fun _ => .stopped fun _ => .ite (.done _) <| .peekIs (.done _) ?_
  refine .bind (minds_item list) fun _ => .ite ?_ (.done _)
  exact .bind minds_newlines fun _ => .bind (.eat _) fun _ => .ite (.rule (.items list) rfl) (.done _)

theorem minds_closure : Minds Fresh closure := by
  have hbody : Minds Any (do act .checkParameters; newlines; let _ ← block) :=
    .idle rfl fun _ => .bind minds_newlines fun _ => .bind lands_block.minds fun _ => .done _
  refine .node rfl <| .bind .advance fun _ => .bind (.node rfl <| .peek fun k => ?_) fun _ => hbody
  split
  · exact .of_fresh .advance
  · exact .pushDelimiter rfl <| .bind (.of_fresh .advance) fun _ => .bind (.rule (.items .parameters) rfl) fun _ => minds_close _
  · exact minds_reportFound rfl _

theorem minds_argumentList : Minds P argumentList := .any <| .node rfl <| .require (minds_delimited rfl _)

theorem lands_identOrCall : Lands P identOrCall := by
  refine .require <| .ahead rfl fun _ => .ite (.node rfl <| .land rfl ?_) (.node rfl <| .land rfl (.done _))
  refine .bind (.eat _) fun _ => .bind minds_argumentList fun _ => .peekIs ?_ (.done _)
  exact .bind (.of_fresh minds_closure) fun _ => .done _

theorem minds_missingOperand : Minds P missingOperand := by
  have hother (d : Detail) : Minds Any (do
      if ← atEnd then report .expectedExpression none else reportAndAdvance .expectedExpression d) :=
    .atEnd (.report rfl _) (minds_reportAndAdvance rfl _)
  refine .peek fun k => ?_
  split
  · exact (hother _).any
  · exact (hother _).any
  · split
    case h_8 => exact (hother _).any
    all_goals exact .report rfl _

theorem lands_objectOrBlock : Lands P objectOrBlock := .require <| .ahead rfl fun _ => .ite lands_object lands_block

theorem lands_term : Lands P term := by
  refine .nested <| .any <| .marked <| .peek fun k => ?_
  split
  case h_1 | h_2 => exact lands_continuePath (lands_externalQuery rfl)
  case h_13 => exact lands_continuePath lands_group
  case h_14 => exact lands_continuePath lands_array
  case h_15 => exact lands_continuePath lands_objectOrBlock
  case h_16 => exact lands_continuePath lands_identOrCall
  case h_17 => exact .bind minds_missingOperand fun _ => .done_error
  all_goals exact lands_continuePath lands_literal

/-! Operators. -/

theorem isSolid_of_ofKind? {k : Kind} {op : BinaryOperator} (h : BinaryOperator.ofKind? k = some op) : k.isSolid = true := by
  cases k <;> first | rfl | cases h

theorem lands_unaryBody : Lands P unaryBody := by
  refine .bind minds_newlines fun _ => .peekIs (.nested <| .node rfl <| .land rfl ?_) lands_term
  exact .bind minds_newlines fun _ => .bind (.rule .unary rfl) fun _ => .done _

theorem lands_binaryBody (min : Nat) : Lands P (binaryBody min) :=
  .any <| .marked <| .onward (.landing rfl fun _ => rfl) (fun lhs => .rule (.binaryRest min lhs) rfl)
    (.landing rfl fun _ => Bool.true_and _)

/-- Operators are folded onto an operand, or there are none and the operand is returned. -/
theorem ensures_binaryRestBody (min : Nat) {lhs : Kind} {Q : Kind → Outlook → Prop} (hdone : ∀ τ, τ.spill = false → Q lhs τ)
    (hfolded : ∀ k τ, τ.spill = false ∧ (k ≠ .error → τ.landed = true) → Q k τ) : Ensures P Q (binaryRestBody min lhs) := by
  have hreturn {P : Outlook → Prop} : Ensures P Q (pure lhs) := fun σ hσ _ => hdone σ hσ
  refine .peek fun k => ?_
  split
  · exact hreturn
  · rename_i op hop
    refine .ite hreturn <| .imp (.nested <| .land_wrapped rfl (isSolid_of_ofKind? hop) ?_ fun _ => ?_) hfolded
    · exact .bind minds_newlines fun _ => .bind (.rule _ rfl) fun _ => .done _
    · exact .rule (.binaryRest min .binaryOp) rfl

/-! Statements. -/

theorem minds_assignedValue : Minds P assignedValue := by
  refine .bind minds_newlines fun _ => .peek fun _ => .ite ?_ (minds_reportFound rfl _)
  exact .bind (.rule .statement rfl) fun _ => .done _

/-- A target that is no error consumed something. -/
theorem heeds_target {σ : Outlook} (hσ : σ.spill = false) :
    target.Heeds σ fun k τ => τ.spill = false ∧ (k ≠ .error → τ.begun = true ∧ τ.landed = true) := by
  refine ⟨rfl, fun k _ => .ite (fun hk => ?_) fun _ => ?_⟩
  · obtain rfl : k = .underscore := eq_of_beq hk
    refine ⟨rfl, fun _ _ => ⟨?_, fun _ _ => ⟨rfl, fun _ _ => ⟨(Outlook.spill_looked σ).trans hσ, fun _ => ⟨rfl, ?_⟩⟩⟩⟩⟩
    · simp [Action.permits, Action.outlook, Outlook.opened]
    · simp [Action.outlook, Outlook.opened, Outlook.moved, Kind.isSolid, Kind.isTrivia]
  · refine ⟨?_, fun k' => ⟨rfl, fun hk' => ?_⟩⟩
    · simpa [Rule.permits, Rule.isInner, Action.outlook] using hσ
    · simp [Outlook.returned, Rule.consumes, hk']

theorem heeds_checkTarget {k : Kind} {σ : Outlook} {Q : Unit → Outlook → Prop} (hbegun : k ≠ .error → σ.begun = true)
    (h : Q () σ) : (checkTarget k).Heeds σ Q := by
  unfold checkTarget
  split
  case h_5 _ _ _ hk => exact ⟨hbegun hk, fun _ _ => h⟩
  all_goals exact h

/-- What follows a target that is checked. -/
theorem ensures_checkTarget {lhs k : Kind} {Q : β → Outlook → Prop} {f : Unit → Routine β} (h : Ensures (At k) Q (f ())) :
    Ensures (Aimed lhs k) Q (checkTarget lhs >>= f) :=
  fun σ hσ haimed => .bind (heeds_checkTarget haimed.begun (h σ hσ haimed.toAt))

/-- The target of an assignment, and a look at what follows it. -/
theorem ensures_targeted {Q : β → Outlook → Prop} {f : Kind → Kind → Routine β} (h : ∀ lhs k, Ensures (Aimed lhs k) Q (f lhs k)) :
    Ensures P Q (target >>= fun lhs => peek >>= f lhs) := by
  intro σ hσ _
  refine .bind ((heeds_target hσ).imp fun lhs τ ⟨hτ, htarget⟩ => ⟨rfl, fun k _ => ?_⟩)
  exact h lhs k _ (τ.spill_looked.trans hτ) ⟨⟨τ.fresh_looked, rfl⟩, fun hlhs => τ.begun_looked.trans (htarget hlhs).1,
    fun hlhs => τ.landed_looked.trans (htarget hlhs).2⟩

theorem isSolid_of_assignOperator {k : Kind} (h : KindSet.assignOperators.contains k = true) : k.isSolid = true := by
  cases k <;> first | rfl | (revert h; decide)

theorem lands_assignment : Lands P assignment := by
  refine .any <| .marked <| ensures_targeted fun lhs k => ?_
  by_cases hassign : KindSet.assignOperators.contains k = true
  · rw [if_pos hassign]
    exact ensures_checkTarget <| .land_wrapped rfl (isSolid_of_assignOperator hassign) minds_assignedValue fun _ => .done _
  rw [if_neg hassign]
  by_cases hcomma : k = .comma
  · subst hcomma
    rw [if_pos rfl]
    refine ensures_checkTarget <| .land_wrapped rfl rfl ?_ fun _ => .bind (.wrapped rfl ?_) fun _ => .done _
    · refine .bind minds_newlines fun _ => .marked fun σ hσ _ => ?_
      exact .bind ((heeds_target hσ).imp fun err τ ⟨hτ, htarget⟩ => heeds_checkTarget (fun herr => (htarget herr).1) hτ)
    · refine .peek fun _ => .ite ?_ (minds_reportFound rfl _)
      exact .bind (.of_fresh .advance) fun _ => minds_assignedValue
  · rw [if_neg hcomma]
    intro σ hσ haimed
    refine .ite (fun hlhs => ⟨haimed.begun ?_, fun _ _ => ⟨hσ, haimed.landed⟩⟩) fun _ => ⟨hσ, haimed.landed⟩
    rw [hlhs]
    exact Kind.noConfusion

theorem minds_atContinuation {f : Bool → Routine β} (h : ∀ b, Minds Any (f b)) : Minds P (atContinuation >>= f) := by
  refine .bind (.peek fun _ => .ite (.done _) (.ite ?_ (.done _))) h
  exact .touches (f := fun b => pure b) fun b => .done b

theorem minds_conditionsBody (count : Nat) : Minds P (conditionsBody count) := by
  refine .bind minds_newlines fun _ => .stopped fun _ => .ite (.done _) <| .peekIs (.done _) ?_
  refine .peek fun k => .ite ?_ (.ite ?_ ?_)
  · exact .bind (minds_reportAndAdvance rfl _) fun _ => .rule (.conditions count) rfl
  · refine .bind (.rule .assignment rfl) fun _ => .peek fun k => ?_
    split
    · exact .bind minds_newlines fun _ => .rule _ rfl
    · exact .bind (.of_fresh .advance) fun _ => .bind minds_newlines fun _ => .rule _ rfl
    · exact .done _
  · exact .bind (minds_reportFound rfl _) fun _ => .done _

theorem minds_parenthesised : Minds (At .parenOpen) parenthesised := by
  have hgrouped (b : Bool) : Minds Any (if b then (do
      wrapped .group (pure ())
      let k ← continuePath .group
      let _ ← rule (.binaryRest 0 k)) else pure ()) := by
    refine .ite ?_ (.done _)
    exact .bind (.wrapped rfl (.done _)) fun _ => .bind (minds_continuePath _) fun k =>
      .bind (.rule (.binaryRest 0 k) rfl) fun _ => .done _
  refine .marked <| .pushDelimiter rfl <| .bind (.of_fresh .advance) fun _ => .bind (.rule (.conditions 0) rfl) fun count => ?_
  exact .bind (minds_close _) fun _ => .ite (minds_atContinuation hgrouped) (.bind (.done _) hgrouped)

theorem minds_predicate : Minds P predicate := by
  refine .bind minds_newlines fun _ => .node rfl <| .peek fun k => ?_
  by_cases hk : k = .parenOpen
  · subst hk
    exact minds_parenthesised
  · rw [if_neg hk]
    exact .ite (.bind (.rule (.binary 0) rfl) fun _ => .done _) (minds_reportFound rfl _)

theorem minds_branch : Minds P branch :=
  .bind minds_predicate fun _ => .bind minds_newlines fun _ => .bind lands_block.minds fun _ => .done _

theorem minds_elseBranchesBody : Minds P elseBranchesBody := by
  refine .bind (.eat _) fun _ => .ite ?_ (.done _)
  refine .bind minds_newlines fun _ => .bind (.eat _) fun _ => .ite ?_ ?_
  · exact .bind minds_branch fun _ => .rule .elseBranches rfl
  · exact .bind lands_block.minds fun _ => .done _

theorem lands_ifStatement : Lands P ifStatement :=
  .any <| .node rfl <| .require <| .land rfl <| .bind minds_branch fun _ => .bind (.rule .elseBranches rfl) fun _ => .done _

theorem lands_abortStatement : Lands (At .kwAbort) abortStatement :=
  .node rfl <| .land rfl <| .peek fun _ => .ite (.bind (.rule .statement rfl) fun _ => .done _) (.done _)

theorem lands_returnStatement : Lands (At .kwReturn) returnStatement := by
  refine .node rfl <| .land rfl <| .bind minds_newlines fun _ => .peek fun _ => .ite ?_ ?_
  · exact .bind (.rule .statement rfl) fun _ => .done _
  · exact .bind (minds_reportFound rfl _) fun _ => .done _

theorem lands_statement : Lands P statement := by
  refine .nested <| .peek fun k => ?_
  split
  · exact lands_ifStatement
  · exact lands_abortStatement
  · exact lands_returnStatement
  · exact .landing rfl fun _ => rfl

/-- Where a statement does not end, that was reported at the next token. -/
theorem heeds_endOfStatement {closer : Option Kind} {σ : Outlook} (hσ : σ.spill = false) :
    (endOfStatement closer).Heeds σ fun b τ => τ.spill = false ∧ (b = false → τ.Heard) := by
  have hends {x : Routine Unit} {k : Kind} (hx : Minds (At k) x) {τ : Outlook} (hτ : τ.spill = false) (hat : τ.At k) :
      (x >>= fun _ => pure true).Heeds τ fun b υ => υ.spill = false ∧ (b = false → υ.Heard) :=
    .bind ((hx τ hτ hat).imp fun _ _ hυ => ⟨hυ, nofun⟩)
  refine ⟨rfl, fun b _ => .ite (fun _ => ⟨hσ, nofun⟩) fun _ => ⟨rfl, fun k _ => ?_⟩⟩
  have hspill : (Action.peek.outlook (σ.asked b) k).spill = false := (Outlook.spill_looked _).trans hσ
  have hat : (Action.peek.outlook (σ.asked b) k).At k := ⟨Outlook.fresh_looked _, rfl⟩
  refine .ite (fun _ => ?_) fun _ => .ite (fun _ => ?_) fun _ => .ite (fun _ => ⟨hspill, nofun⟩) fun _ => ?_
  · exact hends minds_newlines hspill hat
  · exact hends (.bind (.of_fresh .advance) fun _ => minds_newlines) hspill hat
  · exact .bind ((heeds_reportFound rfl hspill).imp fun _ _ hτ => ⟨hτ.1, fun _ => hτ.2⟩)

theorem minds_statementAndEnd (closer : Option Kind) : Minds P (statementAndEnd closer) := by
  refine .bind (.rule .statement rfl) fun _ σ hσ _ => .bind ((heeds_endOfStatement hσ).imp fun b τ ⟨hτ, hheard⟩ => ?_)
  cases b with
  | true => exact hτ
  | false => exact minds_resync _ τ hτ (hheard rfl)

theorem minds_statementsBody (closer : Option Kind) : Minds P (statementsBody closer) := by
  have hagain : Minds Any (rule (.statements closer)) := .rule (.statements closer) rfl
  refine .bind minds_newlines fun _ => .stopped fun _ => .ite (.done _) <| .peek fun k => .ite (.done _) ?_
  refine .ite ?_ (.ite ?_ (.ite ?_ ?_))
  · exact .bind (minds_reportAndAdvance rfl _) fun _ => hagain
  · exact .bind (minds_reportAndAdvance rfl _) fun _ => hagain
  · exact .bind (minds_statementAndEnd closer) fun _ => hagain
  · intro σ hσ _
    refine .bind ((heeds_reportFound rfl hσ).imp fun _ τ ⟨hτ, hheard⟩ => ?_)
    exact Ensures.bind (minds_resync _) (fun _ => hagain) τ hτ hheard

theorem minds_program : Minds P program :=
  .any <| .node rfl <| .bind (.rule (.statements none) rfl) fun _ σ hσ _ => ⟨rfl, fun _ _ => σ.spill_looked.trans hσ⟩

/-! Tokens that are read as they stand. -/

theorem heeds_peekRaw {f : Kind → Routine α} {σ : Outlook} {Q : α → Outlook → Prop} (hraw : σ.raw = true)
    (h : ∀ k, (f k).Heeds σ Q) : (peekRaw >>= f).Heeds σ Q := ⟨hraw, fun k _ => h k⟩

theorem heeds_templateParts {σ : Outlook} (hraw : σ.raw = true) (hσ : σ.spill = false) :
    templatePartsBody.Heeds σ fun _ τ => τ.spill = false := by
  have hnext : (advance >>= fun _ => rule .templateParts).Heeds σ fun _ τ => τ.spill = false :=
    ⟨by simp [Action.permits, hraw], fun _ _ => ⟨by simp [Rule.permits, Action.outlook, Outlook.moved, hσ, hraw], fun _ => rfl⟩⟩
  refine heeds_peekRaw hraw fun k => ?_
  split
  · exact hnext
  · exact hnext
  · exact hσ

theorem heeds_stringParts {σ : Outlook} (hraw : σ.raw = true) (hσ : σ.spill = false) :
    stringPartsBody.Heeds σ fun _ τ => τ.spill = false := by
  have hadvance (τ : Outlook) (hτ : τ.raw = true) : Action.advance.permits τ = true := by simp [Action.permits, hτ]
  have hagain (τ : Outlook) (hτ : τ.spill = false) : (rule .stringParts).Heeds τ fun _ υ => υ.spill = false :=
    ⟨by simp [Rule.permits, Rule.isInner, hτ], fun _ => rfl⟩
  have hclosing (τ : Outlook) (hτ : τ.raw = true) (hspill : τ.spill = false) :
      (do if (← peekRaw) = .templateClose then advance : Routine Unit).Heeds τ fun _ υ => υ.spill = false :=
    heeds_peekRaw hτ fun _ => .ite (fun _ => ⟨hadvance τ hτ, fun _ _ => hspill⟩) fun _ => hspill
  have htemplate : template.Heeds σ fun _ τ => τ.spill = false := by
    refine ⟨rfl, fun _ _ => ⟨hadvance σ hraw, fun _ _ => ⟨?_, fun _ => ?_⟩⟩⟩
    · simp [Rule.permits, Action.outlook, Outlook.moved, Outlook.opened, hσ, hraw]
    · exact .bind ((hclosing (σ.opened.moved.returned false) hraw rfl).imp fun _ τ hτ => ⟨rfl, fun _ _ => hτ⟩)
  have hnext : (advance >>= fun _ => rule .stringParts).Heeds σ fun _ τ => τ.spill = false :=
    ⟨hadvance σ hraw, fun _ _ => hagain _ hσ⟩
  refine heeds_peekRaw hraw fun k => ?_
  split
  · exact hnext
  · exact hnext
  · exact .bind (htemplate.imp fun _ τ hτ => hagain τ hτ)
  · exact ⟨hadvance σ hraw, fun _ _ => hσ⟩
  · exact hσ

/-- The body of every rule heeds what is known where the rule begins, and it has consumed what the rule says. -/
theorem heeds_grammar (r : Rule α) : (grammar r).Heeds r.outlook fun a τ =>
    (r.outlook.spill = false → τ.spill = false) ∧ (r.consumes a = true → τ.landed = true) := by
  have hplain {r : Rule α} {σ : Outlook} {x : Routine α} (hr : ∀ a, r.consumes a = false)
      (h : x.Heeds σ fun _ τ => τ.spill = false) : x.Heeds σ fun a τ =>
      (r.outlook.spill = false → τ.spill = false) ∧ (r.consumes a = true → τ.landed = true) :=
    h.imp fun a _ hτ => ⟨fun _ => hτ, fun ha => Bool.noConfusion ((hr a).symm.trans ha)⟩
  have hminds {r : Rule α} {x : Routine α} (hr : ∀ a, r.consumes a = false) (h : Minds Any x) : x.Heeds {} fun a τ =>
      (r.outlook.spill = false → τ.spill = false) ∧ (r.consumes a = true → τ.landed = true) := hplain hr (h {} rfl trivial)
  have hlands {r : Rule Kind} {x : Routine Kind} (hr : ∀ k, r.consumes k = (k != .error)) (h : Lands Any x) : x.Heeds {} fun k τ =>
      (r.outlook.spill = false → τ.spill = false) ∧ (r.consumes k = true → τ.landed = true) :=
    (h {} rfl trivial).imp fun k _ ⟨hspill, hlanded⟩ => ⟨fun _ => hspill, fun hk => hlanded (bne_iff_ne.mp ((hr k).symm.trans hk))⟩
  cases r with
  | newlines => exact hminds (fun _ => rfl) minds_newlinesBody
  | absorb =>
    have hspill {p : Prop} (h : true = false) : p := Bool.noConfusion h
    have hnothing {p : Prop} (h : false = true) : p := Bool.noConfusion h
    exact ⟨rfl, fun _ _ => .ite (fun _ => ⟨hspill, hnothing⟩) fun _ => ⟨rfl, fun _ _ => ⟨rfl, fun _ => ⟨hspill, hnothing⟩⟩⟩⟩
  | skipTo stops depth => exact hminds (fun _ => rfl) (minds_skipToBody stops depth)
  | stringParts => exact hplain (fun _ => rfl) (heeds_stringParts rfl rfl)
  | templateParts => exact hplain (fun _ => rfl) (heeds_templateParts rfl rfl)
  | pathSegments => exact hminds (fun _ => rfl) minds_pathSegmentsBody
  | items list => exact hminds (fun _ => rfl) (minds_itemsBody list)
  | statements closer => exact hminds (fun _ => rfl) (minds_statementsBody closer)
  | conditions count => exact hminds (fun _ => rfl) (minds_conditionsBody count)
  | elseBranches => exact hminds (fun _ => rfl) minds_elseBranchesBody
  | statement => exact hlands (fun _ => rfl) lands_statement
  | assignment => exact hlands (fun _ => rfl) lands_assignment
  | binary min => exact hlands (fun _ => rfl) (lands_binaryBody min)
  | unary => exact hlands (fun _ => rfl) lands_unaryBody
  | binaryRest min lhs =>
    have hnone : (Rule.binaryRest min lhs).consumes lhs = false := by
      by_cases hlhs : lhs = .error <;> simp [Rule.consumes, hlhs]
    refine ensures_binaryRestBody (P := Any) min (fun τ hτ => ⟨fun _ => hτ, fun h => ?_⟩) (fun k τ hτ => ⟨fun _ => hτ.1, fun h => ?_⟩)
      {} rfl trivial
    · exact Bool.noConfusion (hnone.symm.trans h)
    · exact hτ.2 (bne_iff_ne.mp (Bool.and_eq_true_iff.mp h).2)

end Grammar

end Parser

end Remap
