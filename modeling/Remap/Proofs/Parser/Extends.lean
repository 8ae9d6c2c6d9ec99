import Remap.Proofs.Parser.Closed
import Remap.Proofs.Parser.Ranks

/-!
# What is built stays

Every rule gives back the frames around the innermost one, and if that is a node, all that it holds: trees are taken only from a mark,
which is wrapped. What is added to it is known where no expression is read: blanks, a token that is asked for, and errors.
-/

namespace Remap.Parser

variable {α β : Type} {n : Nat}

namespace State

variable {s : State}

/-- A token that is no blank is not passed over. -/
theorem skip_of_nextKind {k : Kind} (hnext : s.nextKind = k) (hk : k.isTrivia = false ∧ k ≠ .newline) : s.skip = s := by
  cases hunread : s.unread with
  | nil => simp [skip, hunread]
  | cons x rest =>
    have hx : x.kind = k := by rw [← hnext, nextKind, hunread]
    simp [skip, skips, hunread, hx, hk.1, hk.2]

theorem nextKind_looked {k : Kind} (hnext : s.nextKind = k) (hk : k.isTrivia = false ∧ k ≠ .newline) : s.looked.nextKind = k := by
  have hskip : s.looked.nextKind = s.skip.nextKind := rfl
  rw [hskip, skip_of_nextKind hnext hk, hnext]

theorem exists_unread {k : Kind} (hnext : s.nextKind = k) (hk : k ≠ .error) : ∃ x rest, s.unread = x :: rest ∧ x.kind = k := by
  cases hunread : s.unread with
  | nil =>
    rw [nextKind, hunread] at hnext
    exact absurd hnext.symm hk
  | cons x rest => exact ⟨x, rest, rfl, by rw [← hnext, nextKind, hunread]⟩

end State

namespace Returns

variable {s : State}

/-- Consuming whatever token comes next: there is one, or nothing is returned. -/
theorem advance_any {Q : Unit → State → Prop} (h : ∀ x rest, s.unread = x :: rest → Q () (s.consumed x rest)) :
    Returns n Parser.advance s Q := by
  refine .flat rfl fun _ t hadvance _ => ?_
  obtain ⟨x, rest, hunread, rfl⟩ := State.of_perform_advance hadvance
  exact h x rest hunread

/-- Consuming the token that comes next. -/
theorem advance {x : Token} {rest : List Token} {Q : Unit → State → Prop} (hunread : s.unread = x :: rest)
    (h : Q () (s.consumed x rest)) : Returns n Parser.advance s Q := by
  refine .advance_any fun x' rest' hunread' => ?_
  cases hunread.symm.trans hunread'
  exact h

/-- Only a mark is wrapped. -/
theorem of_mark {k : Kind} {body : Routine α} {Q : α → State → Prop} (h : s.top.label = none → Returns n (Parser.wrapped k body) s Q) :
    Returns n (Parser.wrapped k body) s Q := by
  intro hs a t hrun hfuel
  obtain ⟨_, u, hwrap, -⟩ := Routine.run_bind_eq_ok.mp hrun
  rw [Routine.run_single] at hwrap
  cases hmark : s.top.label with
  | none => exact h hmark hs a t hrun hfuel
  | some label => simp [Action.perform, hmark] at hwrap

end Returns

/-! ## An innermost node -/

/-- A routine takes nothing from an innermost node. -/
def Extends (n : Nat) (x : Routine α) : Prop :=
  ∀ s : State, Returns n x s fun _ t => s.top.label ≠ none → s.top.built <:+ t.top.built

namespace Extends

theorem done (a : α) : Extends n (pure a : Routine α) := fun _ => .done fun _ => List.suffix_rfl

theorem bind {x : Routine α} {f : α → Routine β} (hx : Extends n x) (hf : ∀ a, Extends n (f a)) : Extends n (x >>= f) := by
  refine fun s => .bind <| (hx s).follows.imp fun a t ht => (hf a t).imp fun _ u hu hlabel => ?_
  exact (ht.2 hlabel).trans (hu (ht.1.label ▸ hlabel))

theorem flat {action : Action α} (hflat : action.isFlat = true) : Extends n (act action) := by
  refine fun s => .flat hflat fun _ t _ hadds _ => ?_
  obtain ⟨ts, hbuilt⟩ := hadds
  exact ⟨_, hbuilt.symm⟩

theorem suffix_drain (s : State) : s.top.built <:+ s.drain.top.built := ⟨_, s.built_drain.symm⟩

theorem node {k : Kind} {body : Routine α} (h : Extends n body) : Extends n (Parser.node k body) :=
  fun s => .node <| (h _).imp fun _ _ _ _ => (suffix_drain s).trans (List.suffix_cons _ _)

theorem marked {body : Routine α} (h : Extends n body) : Extends n (Parser.marked body) :=
  fun s => .marked <| (h _).imp fun _ _ _ _ => (suffix_drain s).trans (List.suffix_append _ _)

theorem wrapped {k : Kind} {body : Routine α} (h : Extends n body) : Extends n (Parser.wrapped k body) :=
  fun _ => .of_mark fun hmark => .wrapped <| (h _).imp fun _ _ _ hlabel => absurd hmark hlabel

theorem nested {body : Routine Kind} (h : Extends n body) : Extends n (Parser.nested body) := by
  refine fun s => .nested (fun _ => h s.deeper) (fun _ _ => List.suffix_rfl) fun _ t ts _ hbuilt _ => ?_
  rw [hbuilt, ← s.built_skip]
  exact (suffix_drain s.skip).trans (List.suffix_cons _ _)

theorem uniform (hrule : ∀ {γ : Type} (r : Rule γ), Extends n (rule r)) : Uniform fun {_} x => Extends n x where
  done := done
  fail f := fun _ => .fail f
  bind := bind
  rule := hrule
  simple {_ action} h := flat (by cases action <;> first | rfl | cases h)
  marked := marked
  separating _ h := bind (flat rfl) fun _ => bind h fun _ => bind (flat rfl) fun _ => done _
  nested := nested
  node _ := node
  wrapped _ := wrapped
  anyNode _ := node
  anyWrapped _ := wrapped

end Extends

theorem extends_rule (n : Nat) (r : Rule α) : Extends n (rule r) := by
  induction n generalizing α with
  | zero => exact fun s => .zero r s
  | succ n ih =>
    have u : Uniform fun {_} x => Extends n x := Extends.uniform ih
    exact fun s => .rule (uniform_grammar u (uniform_objectOrBlock u (.flat rfl)) r s)

theorem uniform_extends (n : Nat) : Uniform fun {_} x => Extends n x := Extends.uniform (extends_rule n)

/-! ## What is added where no expression is read -/

/-- A routine adds nothing but trees that satisfy `p`. -/
def AddsOnly (p : Tree → Prop) (n : Nat) (x : Routine α) : Prop := ∀ s : State, Returns n x s fun _ t => Adds p s t

/-- Blanks and nodes satisfy a property of trees. -/
structure Lax (p : Tree → Prop) : Prop where
  blank (c : Tree) : c.isBlank = true → p c
  node (k : Kind) (cs : List Tree) : p (.node k cs)

namespace AddsOnly

variable {p : Tree → Prop}

theorem done (a : α) : AddsOnly p n (pure a : Routine α) := fun s => .done (.refl s)

theorem bind {x : Routine α} {f : α → Routine β} (hx : AddsOnly p n x) (hf : ∀ a, AddsOnly p n (f a)) : AddsOnly p n (x >>= f) :=
  fun s => .bind <| (hx s).imp fun a t ht => (hf a t).imp fun _ _ hu => ht.trans hu

theorem ite {c : Prop} [Decidable c] {x y : Routine α} (hx : AddsOnly p n x) (hy : AddsOnly p n y) :
    AddsOnly p n (if c then x else y) := by
  split
  · exact hx
  · exact hy

theorem look {action : Action α} (hlook : action.isLook = true) : AddsOnly p n (act action) :=
  fun _ => .look hlook fun _ _ _ hbuilt => .of_eq hbuilt

/-- What is inside a node does not matter. -/
theorem node (hp : Lax p) {k : Kind} {body : Routine α} (h : Extends n body) : AddsOnly p n (Parser.node k body) := by
  refine fun s => .of_steady fun hsteady => .node <| (h _).imp fun _ t _ => ?_
  refine ⟨.node k t.top.built.reverse :: s.held.reverse.map Token.leaf, ?_, fun c hc => ?_⟩
  · rw [List.cons_append, ← State.built_drain]
    rfl
  · rcases List.mem_cons.mp hc with rfl | hc
    · exact hp.node _ _
    · exact hp.blank c (hsteady.isBlank_held c hc)

theorem newlines (hp : Lax p) : AddsOnly p n Parser.newlines := fun s => (adds_newlines n s).imp fun _ _ ht => ht.imp hp.blank

theorem eat (hp : Lax p) {k : Kind} (hk : ∀ t, p (.leaf k t)) (herror : k ≠ .error) : AddsOnly p n (Parser.eat k) := by
  refine fun s => .bind <| .bind <| .of_steady fun hsteady => .look rfl fun k' t hpeek hbuilt => .done ?_
  have ht := (hushes_perform hpeek).steady hsteady
  obtain ⟨rfl, rfl⟩ := State.of_perform_peek hpeek
  split
  · rename_i hnext
    obtain ⟨x, rest, hunread, rfl⟩ := State.exists_unread (eq_of_beq hnext) herror
    exact .bind <| .advance hunread <| .done <| (Adds.of_eq hbuilt).trans (adds_consumed ht hp.blank (hk _))
  · exact .done (.of_eq hbuilt)

theorem reportFound (p' : Problem) (e : Option Expectation) : AddsOnly p n (Parser.reportFound p' e) := by
  refine bind (look rfl) fun _ => bind (look rfl) fun _ => ite (look rfl) ?_
  cases e <;> exact look rfl

theorem resync (hp : Lax p) (stops : KindSet) : AddsOnly p n (Parser.resync stops) :=
  bind (look rfl) fun _ => ite (done _) <| bind (look rfl) fun _ => ite (done _) <| node hp (extends_rule n _)

theorem close (hp : Lax p) {k : Kind} (hk : ∀ t, p (.leaf k t)) (herror : k ≠ .error) : AddsOnly p n (Parser.close k) := by
  have hunclosed (c : Bool) : AddsOnly p n (if c then act .popDelimiter else do
      if ← atEnd then act (.reportUnclosed k)
      act .popDelimiter) :=
    ite (look rfl) <| bind (look rfl) fun _ => ite (bind (look rfl) fun _ => look rfl) (look rfl)
  refine bind (eat hp hk herror) fun _ => ite (look rfl) <| bind (look rfl) fun _ => ite ?_ ?_
  · exact bind (done false) fun _ => hunclosed _
  · exact bind (look rfl) fun _ => bind (resync hp _) fun _ => bind (eat hp hk herror) fun _ => hunclosed _

end AddsOnly

end Remap.Parser
