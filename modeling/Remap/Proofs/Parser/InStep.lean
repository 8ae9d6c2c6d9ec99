import Remap.Proofs.Parser.Alongside
import Remap.Proofs.Parser.Gives

/-!
# Two layouts read in step

What the grammar does with one layout of a row of tokens it does with the other: whatever a rule returns from the one it
returns from the other, and it leaves the two paired. Outside strings this follows from what the grammar heeds, action by
action. The inside of a string and the rest of the input after the limit was hit are read as they stand, and there it is the
patches that are gone through.
-/

namespace Remap.Parser

variable {α β : Type} {w : Layouts} {n : Nat}

open Patch (lefts rights)
open State (Alongside Paired)

/-- Two paired states before the patches `todo`. -/
structure Before (w : Layouts) (todo : List Patch) (s s' : State) : Prop extends Paired w s s' where
  split : ∃ done, w.patches = done ++ todo
  unread : s.unread = lefts todo
  unread' : s'.unread = rights todo

theorem State.Paired.exists_before {s s' : State} (h : Paired w s s') : ∃ todo, Before w todo s s' := by
  obtain ⟨done, todo, hsplit, hunread, hunread'⟩ := h.cut
  exact ⟨todo, h, ⟨done, hsplit⟩, hunread, hunread'⟩

/-- Where two runs end that began with paired states, what each of the two keeps by itself holds. -/
theorem State.Paired.after {x : Routine α} {s s' t t' : State} {a a' : α} (h : Paired w s s')
    (hrun : x.run (runRule n) s = .ok (a, t)) (hgives : Gives x s' (.ok (a', t'))) (ht : Alongside w t t') : Paired w t t' := by
  obtain ⟨-, m, hrun'⟩ := hgives
  exact ⟨ht, (respected_orderly _).run hrun h.left, (respected_orderly _).run hrun' h.right, (respected_hushes.run hrun).steady h.steady⟩

/-- Whatever a routine returns from the first state it returns from the second, and `Q` holds of where the two runs end. -/
def InStep (n : Nat) (x : Routine α) (s s' : State) (Q : α → State → State → Prop) : Prop :=
  ∀ a t, x.run (runRule n) s = .ok (a, t) → ∃ t', Gives x s' (.ok (a, t')) ∧ Q a t t'

namespace InStep

variable {Q Q' : α → State → State → Prop} {s s' : State} {x : Routine α} {todo : List Patch}

theorem imp (h : InStep n x s s' Q) (hQ : ∀ a t t', Q a t t' → Q' a t t') : InStep n x s s' Q' := by
  intro a t hrun
  obtain ⟨t', hgives, ht⟩ := h a t hrun
  exact ⟨t', hgives, hQ a t t' ht⟩

theorem done {a : α} (h : Q a s s') : InStep n (pure a) s s' Q := by
  intro b t hrun
  cases hrun
  exact ⟨s', .of_run (n := 0) rfl, h⟩

theorem bind {f : α → Routine β} {Q : β → State → State → Prop}
    (h : InStep n x s s' fun a t t' => InStep n (f a) t t' Q) : InStep n (x >>= f) s s' Q := by
  intro b u hrun
  obtain ⟨a, t, hfirst, hnext⟩ := Routine.run_bind_eq_ok.mp hrun
  obtain ⟨t', hgives, ht⟩ := h a t hfirst
  obtain ⟨u', hgives', hu⟩ := ht b u hnext
  exact ⟨u', hgives.bind hgives', hu⟩

/-- A single action. -/
theorem act {action : Action α}
    (h : ∀ a t, action.perform s = .ok (a, t) → ∃ t', action.perform s' = .ok (a, t') ∧ Q a t t') :
    InStep n (Parser.act action) s s' Q := by
  intro a t hrun
  obtain ⟨t', hperform, ht⟩ := h a t ((Routine.run_single _ _).symm.trans hrun)
  exact ⟨t', .single hperform, ht⟩

/-- No rule returns within no bound. -/
theorem zero (r : Rule α) : InStep 0 (Parser.rule r) s s' Q := fun _ _ hrun => by cases hrun

/-- A rule does what its body does. -/
theorem rule {r : Rule α} (h : InStep n (grammar r) s s' Q) : InStep (n + 1) (Parser.rule r) s s' Q := by
  intro a t hrun
  obtain ⟨t', hgives, ht⟩ := h a t hrun
  exact ⟨t', Gives.rule_iff.mpr hgives, ht⟩

theorem of_eq {y : Routine α} (heq : x = y) (h : InStep n y s s' Q) : InStep n x s s' Q := by
  rw [heq]
  exact h

/-- States that end alongside end paired if they began so. -/
theorem paired (hs : Paired w s s') (h : InStep n x s s' fun _ => Alongside w) : InStep n x s s' fun _ => Paired w := by
  intro a t hrun
  obtain ⟨t', hgives, ht⟩ := h a t hrun
  exact ⟨t', hgives, hs.after hrun hgives ht⟩

/-- An action that the grammar is permitted to perform outside strings. -/
theorem permitted {action : Action α} {σ : Outlook} (hpermits : action.permits σ = true) (hraw : σ.raw = false)
    (hfresh : σ.fresh = true → s.Ready) (hs : Paired w s s') : InStep n (Parser.act action) s s' fun _ => Paired w :=
  paired hs <| act fun _ _ hperform => alongside_perform hperform hpermits hraw hfresh hs

/-! Tokens that are read as they stand. -/

/-- Consuming a token of both layouts. -/
theorem advance {t t' : Token} {core : t'.core = t.core} (h : Before w (.same t t' core :: todo) s s') :
    InStep n advance s s' fun _ => Before w todo := by
  obtain ⟨done, hsplit⟩ := h.split
  have hadvance := State.perform_advance h.unread
  have hadvance' := State.perform_advance h.unread'
  refine act fun a u hperform => ?_
  cases hadvance.symm.trans hperform
  refine ⟨_, hadvance', ?_, ⟨done ++ [.same t t' core], by rw [hsplit, List.append_assoc]; rfl⟩, rfl, rfl⟩
  exact h.after (n := n) ((Routine.run_single _ _).trans hperform) (.single hadvance') (h.toPaired.toAlongside.consumed hsplit)

/-- A look at the very next token, where the two layouts have one that makes no difference to what follows. -/
theorem peekRaw {f : Kind → Routine α} (h : Before w todo s s') (hreply : f s'.nextKind = f s.nextKind)
    (hf : ∀ t t', Before w todo t t' → InStep n (f s.nextKind) t t' Q) : InStep n (peekRaw >>= f) s s' Q := by
  intro a u hrun
  obtain ⟨k, t, hlook, hnext⟩ := Routine.run_act_eq_ok.mp hrun
  obtain ⟨rfl, hunread, t', hlook', hunread', halongside⟩ := h.toPaired.toAlongside.look hlook
  have ht : Before w todo t t' :=
    ⟨h.after (n := n) ((Routine.run_single .peekRaw s).trans hlook) (.single (show Action.peekRaw.perform s' = _ from hlook')) halongside,
      h.split, hunread.trans h.unread, hunread'.trans h.unread'⟩
  obtain ⟨u', hgives, hu⟩ := hf t t' ht a u hnext
  exact ⟨u', .act (show Action.peekRaw.perform s' = _ from hlook') (hreply ▸ hgives), hu⟩

/-- A node around what is read. -/
theorem node {k : Kind} (hk : k ≠ .error) (h : Before w todo s s')
    (hx : ∀ t t', Before w todo t t' → InStep n x t t' fun _ => Paired w) : InStep n (node k x) s s' fun _ => Paired w := by
  have hopen : (Action.openNode k).permits {} = true := by simp [Action.permits, hk]
  have hclose {a : α} {u u' : State} (hu : Paired w u u') :
      InStep n (Parser.act .closeNode >>= fun _ => pure a) u u' fun _ => Paired w :=
    bind <| (permitted (σ := {}) rfl rfl (fun hfresh => Bool.noConfusion hfresh) hu).imp fun _ _ _ hv =>
      done (Q := fun _ => Paired w) hv
  refine bind ?_
  intro _ t hrun
  obtain ⟨t', hgives, ht⟩ := permitted (n := n) hopen rfl (fun hfresh => Bool.noConfusion hfresh) h.toPaired _ t hrun
  cases (Routine.run_single (.openNode k) s).symm.trans hrun
  cases hgives.eq (.single (s'.perform_openNode k))
  refine ⟨_, hgives, bind ((hx _ _ ⟨ht, h.split, ?_, ?_⟩).imp fun _ _ _ => hclose)⟩
  · exact s.unread_drain.trans h.unread
  · exact s'.unread_drain.trans h.unread'

end InStep

/-! ## Strings -/

/-- The two layouts go on with one token of both, or neither of them goes on with a token of a string. -/
theorem Before.kinds {todo : List Patch} {s s' : State} (h : Before w todo s s') :
    (∃ t t' core rest, todo = .same t t' core :: rest ∧ s.nextKind = t.kind ∧ s'.nextKind = t.kind) ∨
      ((s.nextKind = .error ∨ s.nextKind.isSpacing = true) ∧ (s'.nextKind = .error ∨ s'.nextKind.isSpacing = true)) := by
  unfold State.nextKind
  rw [h.unread, h.unread']
  cases todo with
  | nil => exact .inr ⟨.inl rfl, .inl rfl⟩
  | cons b rest =>
    cases b with
    | same t t' core => exact .inl ⟨t, t', core, rest, rfl, rfl, Patch.kind_eq core⟩
    | gap t more blank spacing size kind size' =>
      refine .inr ⟨.inr (spacing t List.mem_cons_self), .inr ?_⟩
      show blank.kind.isSpacing = true
      rw [kind]
      rfl

/-- A patch that stands for a token of a string is that token in both layouts. -/
theorem Patch.eq_same {b : Patch} (h : b.mark.kind ≠ .comment) : ∃ t t' core, b = .same t t' core ∧ b.mark = t := by
  cases b with
  | same t t' core => exact ⟨t, t', core, rfl, rfl⟩
  | gap t more blank spacing size kind size' => exact absurd rfl h

/-- The inside of a template, up to its end. -/
theorem inStep_templateParts {inner todo : List Patch} {c c' : Token} {core : c'.core = c.core} {s s' : State}
    (hinner : ∀ b ∈ inner, b.mark.kind = .whitespace ∨ b.mark.kind = .id) (hc : c.kind = .templateClose)
    (h : Before w (inner ++ .same c c' core :: todo) s s') :
    InStep n (rule .templateParts) s s' fun _ => Before w (.same c c' core :: todo) := by
  induction n generalizing inner s s' with
  | zero => exact .zero _
  | succ n ih =>
    refine .rule ?_
    cases inner with
    | nil =>
      have hk : s.nextKind = .templateClose ∧ s'.nextKind = .templateClose := by
        unfold State.nextKind
        rw [h.unread, h.unread']
        exact ⟨hc, (Patch.kind_eq core).trans hc⟩
      refine .peekRaw h (by rw [hk.1, hk.2]) fun t t' ht => ?_
      rw [hk.1]
      exact .done ht
    | cons b inner =>
      have hb := hinner b List.mem_cons_self
      obtain ⟨d, d', coreb, rfl, -⟩ := Patch.eq_same (b := b) (by rcases hb with hb | hb <;> rw [hb] <;> decide)
      have hk : s.nextKind = d.kind ∧ s'.nextKind = d.kind := by
        unfold State.nextKind
        rw [h.unread, h.unread']
        exact ⟨rfl, Patch.kind_eq coreb⟩
      refine .peekRaw h (by rw [hk.1, hk.2]) fun t t' ht => ?_
      have hnext : InStep n (advance >>= fun _ => rule .templateParts) t t' fun _ => Before w (.same c c' core :: todo) :=
        .bind <| (InStep.advance ht).imp fun _ _ _ => ih fun x hx => hinner x (List.mem_cons_of_mem _ hx)
      rw [hk.1]
      rcases hb with hb | hb
      · rw [show d.kind = .whitespace from hb]
        exact hnext
      · rw [show d.kind = .id from hb]
        exact hnext

/-- A template. -/
theorem inStep_template {todo : List Patch} {o o' : Token} {core : o'.core = o.core} {s s' : State} (ho : o.kind = .templateOpen)
    (h : Before w (.same o o' core :: todo) s s') : InStep n template s s' fun _ => Paired w := by
  obtain ⟨done, hsplit⟩ := h.split
  have hwhole := w.whole
  rw [hsplit, List.map_append] at hwhole
  obtain ⟨inner, c, more, hmarks, hinner, hc⟩ := hwhole o (todo.map Patch.mark) (List.suffix_append _ _) ho
  obtain ⟨inner, closed, rfl, rfl, hclosed⟩ := List.map_eq_append_iff.mp hmarks
  obtain ⟨b, rest, rfl, rfl, rfl⟩ := List.map_eq_cons_iff.mp hclosed
  obtain ⟨c, c', corec, rfl, hmark⟩ := Patch.eq_same (b := b) (by rw [hc]; decide)
  rw [hmark] at hc
  refine .node (by decide) h fun t t' ht => .bind <| (InStep.advance ht).imp fun _ u u' hu => ?_
  refine .bind <| (inStep_templateParts (fun b hb => hinner _ (List.mem_map_of_mem hb)) hc hu).imp fun _ v v' hv => ?_
  have hk : v.nextKind = .templateClose ∧ v'.nextKind = .templateClose := by
    unfold State.nextKind
    rw [hv.unread, hv.unread']
    exact ⟨hc, (Patch.kind_eq corec).trans hc⟩
  refine .peekRaw hv (by rw [hk.1, hk.2]) fun x x' hx => ?_
  rw [hk.1, if_pos rfl]
  exact (InStep.advance hx).imp fun _ _ _ h => h.toPaired

/-- What the inside of a string goes on with where a token of a kind stands. -/
def stringPart (k : Kind) : Routine Unit :=
  match k with
  | .strText | .escape => advance >>= fun _ => rule .stringParts
  | .templateOpen => template >>= fun _ => rule .stringParts
  | .doubleQuote => advance
  | _ => pure ()

theorem stringPartsBody_eq : grammar .stringParts = peekRaw >>= stringPart := rfl

theorem stringPart_eq_pure {k : Kind} (h : k = .error ∨ k.isSpacing = true) : stringPart k = pure () := by
  rcases h with rfl | hspacing
  · rfl
  · revert hspacing
    cases k <;> first | (intro hspacing; cases hspacing; done) | exact fun _ => rfl

/-- The inside of a string. -/
theorem inStep_stringParts {s s' : State} (hs : Paired w s s') : InStep n (rule .stringParts) s s' fun _ => Paired w := by
  induction n generalizing s s' with
  | zero => exact .zero _
  | succ n ih =>
    refine .rule (.of_eq stringPartsBody_eq ?_)
    obtain ⟨todo, h⟩ := hs.exists_before
    rcases h.kinds with ⟨c, c', core, rest, rfl, hk, hk'⟩ | ⟨hk, hk'⟩
    · refine .peekRaw h (by rw [hk, hk']) fun t t' ht => ?_
      have hnext : InStep n (advance >>= fun _ => rule .stringParts) t t' fun _ => Paired w :=
        .bind <| (InStep.advance ht).imp fun _ _ _ hu => ih hu.toPaired
      rw [hk]
      unfold stringPart
      split
      · exact hnext
      · exact hnext
      · exact .bind <| (inStep_template ‹_› ht).imp fun _ _ _ => ih
      · exact (InStep.advance ht).imp fun _ _ _ hu => hu.toPaired
      · exact .done ht.toPaired
    · -- a blank, a comment or the end of the input is no part of a string
      have hnone := stringPart_eq_pure hk
      refine .peekRaw h ((stringPart_eq_pure hk').trans hnone.symm) fun t t' ht => ?_
      exact .of_eq hnone (.done ht.toPaired)

/-! ## The rest of the input -/

namespace Gives

variable {s : State} {r : Except Fault (Unit × State)}

theorem absorb_nil (h : s.unread = []) : Gives (rule .absorb) s (.ok ((), s)) :=
  rule_iff.mpr <| .act (show Action.stopped.perform s = .ok (true, s) by simp [Action.perform, h]) (.of_run (n := 0) rfl)

theorem absorb_cons {t : Token} {rest : List Token} (h : s.unread = t :: rest) (hfuel : s.exhausted = false)
    (hrest : Gives (rule .absorb) (s.consumed t rest) r) : Gives (rule .absorb) s r :=
  rule_iff.mpr <| .act (show Action.stopped.perform s = .ok (false, s) by simp [Action.perform, h, hfuel])
    (.act (State.perform_advance h) hrest)

end Gives

/-- The state after tokens were consumed one after the other. Only what was built and what is left to read is told. -/
def State.swallowed (s : State) (ts rest : List Token) (placed : Nat) (lastEnd : Option Nat) : State :=
  { s with
    unread := rest
    held := []
    top := { s.top with built := (ts.map Token.leaf).reverse ++ ((s.held.map Token.leaf).reverse ++ s.top.built) }
    placed
    lastEnd
    patience := maxPatience }

/-- Absorbing the input goes on after any tokens that come first. -/
theorem exists_swallowed {s : State} {ts rest : List Token} (hne : ts ≠ []) (hunread : s.unread = ts ++ rest) (hfuel : s.fuel = none)
    (hexhausted : s.exhausted = false) : ∃ placed lastEnd, ∀ r, Gives (rule .absorb) (s.swallowed ts rest placed lastEnd) r →
      Gives (rule .absorb) s r := by
  induction ts generalizing s with
  | nil => exact absurd rfl hne
  | cons t ts ih =>
    have hconsumed : (s.consumed t (ts ++ rest)).fuel = none ∧ (s.consumed t (ts ++ rest)).exhausted = false := by
      simp [State.consumed, hfuel, hexhausted]
    cases ts with
    | nil =>
      refine ⟨(s.consumed t rest).placed, (s.consumed t rest).lastEnd, fun r hr => .absorb_cons hunread hexhausted ?_⟩
      have hswallowed : s.consumed t rest = s.swallowed [t] rest (s.consumed t rest).placed (s.consumed t rest).lastEnd := by
        simp [State.consumed, State.swallowed, hfuel, hexhausted]
      exact hswallowed ▸ hr
    | cons u ts =>
      obtain ⟨placed, lastEnd, hrest⟩ := ih (List.cons_ne_nil u ts) rfl hconsumed.1 hconsumed.2
      refine ⟨placed, lastEnd, fun r hr => .absorb_cons hunread hexhausted (hrest r ?_)⟩
      have hswallowed : (s.consumed t (u :: ts ++ rest)).swallowed (u :: ts) rest placed lastEnd =
          s.swallowed (t :: u :: ts) rest placed lastEnd := by
        simp [State.consumed, State.swallowed, hfuel, hexhausted]
      rw [hswallowed]
      exact hr

/-- A whole patch is consumed in both layouts. -/
theorem State.Alongside.swallowed {s s' : State} (h : Alongside w s s') {done todo : List Patch} {b : Patch}
    (hsplit : w.patches = done ++ b :: todo) (placed placed' : Nat) (lastEnd lastEnd' : Option Nat) :
    Alongside w (s.swallowed b.left (lefts todo) placed lastEnd) (s'.swallowed b.right (rights todo) placed' lastEnd') := by
  have hpatch := Tree.alike_patches [b]
  simp only [Patch.lefts_cons, Patch.lefts_nil, Patch.rights_cons, Patch.rights_nil, List.append_nil] at hpatch
  exact { h with
    cut := ⟨done ++ [b], todo, by rw [hsplit, List.append_assoc]; rfl, rfl, rfl⟩
    held := .refl _
    top := ⟨h.top.label, h.top.start, hpatch.append (h.held.append h.top.built)⟩
    patience := rfl }

/-- The rest of both layouts is absorbed patch by patch. -/
theorem gives_absorb {done todo : List Patch} {s s' : State} (h : Alongside w s s') (hsplit : w.patches = done ++ todo)
    (hunread : s.unread = lefts todo) (hunread' : s'.unread = rights todo) :
    ∃ t t', Gives (rule .absorb) s (.ok ((), t)) ∧ Gives (rule .absorb) s' (.ok ((), t')) ∧ Alongside w t t' := by
  induction todo generalizing done s s' with
  | nil => exact ⟨s, s', .absorb_nil hunread, .absorb_nil hunread', h⟩
  | cons b todo ih =>
    rw [Patch.lefts_cons] at hunread
    rw [Patch.rights_cons] at hunread'
    obtain ⟨placed, lastEnd, hleft⟩ := exists_swallowed b.left_ne_nil hunread h.fuel.1 h.exhausted.1
    obtain ⟨placed', lastEnd', hright⟩ := exists_swallowed b.right_ne_nil hunread' h.fuel.2 h.exhausted.2
    have hsplit' : w.patches = (done ++ [b]) ++ todo := by rw [hsplit, List.append_assoc]; rfl
    obtain ⟨t, t', ht, ht', halongside⟩ := ih (h.swallowed hsplit placed placed' lastEnd lastEnd') hsplit' rfl rfl
    exact ⟨t, t', hleft _ ht, hright _ ht', halongside⟩

theorem inStep_absorb {s s' : State} (hs : Paired w s s') : InStep n (rule .absorb) s s' fun _ => Paired w := by
  refine .paired hs fun _ t hrun => ?_
  obtain ⟨done, todo, hsplit, hunread, hunread'⟩ := hs.cut
  obtain ⟨u, u', hu, hu', halongside⟩ := gives_absorb hs.toAlongside hsplit hunread hunread'
  cases (Gives.of_run hrun).eq hu
  exact ⟨u', hu', halongside⟩

/-! ## The grammar -/

/-- What an action replies makes no difference to whether tokens are read as they stand. -/
theorem Action.raw_outlook (action : Action α) (σ : Outlook) (a : α) : (action.outlook σ a).raw = σ.raw := by
  cases action with
  | ahead q => cases q <;> rfl
  | enter => cases a <;> first | rfl | exact σ.raw_looked
  | peek | touches | settle | reportUnclosed | pushDelimiter | report => exact σ.raw_looked
  | _ => rfl

/-- What a routine that heeds what is known does with one layout it does with the other, if the rules do that it enters. -/
theorem inStep_of_heeds
    (hrule : ∀ {γ : Type} {r : Rule γ} {s s' : State}, r.isInner = false → Paired w s s' → (r.outlook.spill = false → s.Spent) →
      InStep n (rule r) s s' fun _ => Paired w)
    {x : Routine α} {σ : Outlook} {Q : α → Outlook → Prop} {s s' : State} (hx : x.Heeds σ Q) (hraw : σ.raw = false)
    (hσ : σ.Shows s) (hs : Paired w s s') : InStep n x s s' fun _ => Paired w := by
  have hinner {γ : Type} {r : Rule γ} {τ : Outlook} (hpermits : r.permits τ = true) (hτ : τ.raw = false) : r.isInner = false := by
    cases r <;> simp_all [Rule.permits, Rule.isInner]
  induction x generalizing σ s s' with
  | done a => exact .done hs
  | fail e => exact fun _ _ hrun => by cases hrun
  | act action next ih =>
    intro a t hrun
    obtain ⟨b, u, hp, hn⟩ := Routine.run_act_eq_ok.mp hrun
    obtain ⟨u', hp', hu⟩ := alongside_perform hp hx.1 hraw hσ.fresh hs
    have hpaired := hs.after (n := n) ((Routine.run_single _ _).trans hp) (.single hp') hu
    obtain ⟨hadmits, hshows⟩ := shows_perform hp hx.1 hs.left hσ
    obtain ⟨t', hgives, ht⟩ := ih b (hx.2 b hadmits) ((action.raw_outlook σ b).trans hraw) hshows hpaired a t hn
    exact ⟨t', .act hp' hgives, ht⟩
  | call rule next ih =>
    intro a t hrun
    obtain ⟨b, u, hr, hn⟩ := Routine.run_call_eq_ok.mp hrun
    have hspent : rule.outlook.spill = false → s.Spent := fun h => hσ.spill (rule.spill_of_permits hx.1 h)
    obtain ⟨u', hgives, hu⟩ := hrule (hinner hx.1 hraw) hs hspent b u hr
    have hblank : (σ.returned (rule.consumes b)).Shows u :=
      .blank (spent_runRule hr hu.exhausted.1 hs.left hs.steady hspent)
    obtain ⟨t', hgives', ht⟩ := ih b (hx.2 b) hraw hblank hu a t hn
    exact ⟨t', hgives.bind hgives', ht⟩
  | jump rule => exact hrule (hinner hx.1 hraw) hs fun h => hσ.spill (rule.spill_of_permits hx.1 h)

/-- What a rule returns from one layout it returns from the other. -/
theorem inStep_rule {r : Rule α} {s s' : State} (hr : r.isInner = false) (hs : Paired w s s')
    (hspent : r.outlook.spill = false → s.Spent) : InStep n (rule r) s s' fun _ => Paired w := by
  induction n generalizing α s s' with
  | zero => exact .zero r
  | succ n ih =>
    cases r with
    | absorb => exact inStep_absorb hs
    | stringParts => exact inStep_stringParts hs
    | templateParts => cases hr
    | _ => exact .rule (inStep_of_heeds ih (heeds_grammar _) rfl (Rule.shows_outlook hspent) hs)

/-- Both layouts before anything was read. -/
theorem paired_start (w : Layouts) (limit : Nat) :
    Paired w (.start (Token.place 0 none w.first) limit none) (.start (Token.place 0 none w.second) limit none) where
  cut := ⟨[], w.patches, rfl, w.lefts_eq.symm, w.rights_eq.symm⟩
  held := .refl _
  top := ⟨rfl, .zero _, .refl _⟩
  below := .nil
  reports := .nil
  last := .none
  delimiters := rfl
  separating := rfl
  depth := rfl
  limit := rfl
  overflowed := rfl
  patience := rfl
  fuel := ⟨rfl, rfl⟩
  exhausted := ⟨rfl, rfl⟩
  left := orderly_start _ _ _
  right := orderly_start _ _ _
  steady := ⟨fun _ => ⟨rfl, rfl⟩, fun _ ht => absurd ht List.not_mem_nil⟩

end Remap.Parser
