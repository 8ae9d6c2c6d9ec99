import Remap.Proofs.Parser.Extends
import Remap.Proofs.Parser.Paths
import Remap.Proofs.Tree.Runs

/-!
# Strings are read whole

Wherever the next token is the opening quote of a string, the rule for strings places the tokens of that string and no other ones, be the
string closed or not: its body holds no quote and no line end, and a string that is not closed ends with its line. Meanwhile nothing is
held back and nothing is reported.
-/

namespace Remap.Parser

open Lexeme (RunEnds)
open Tree (leavesOf isPart isLeaf)

variable {α : Type} {n : Nat} {s : State}

/-- Tokens were placed as trees with a property, with `rest` left to read, while nothing was reported. -/
structure State.Took (p : Tree → Bool) (s : State) (ts rest : List Token) (t : State) : Prop where
  unread : t.unread = rest
  held : t.held = []
  reports : t.reports = s.reports
  row : ∃ cs, t.trees = s.trees ++ cs ∧ leavesOf cs = ts.map Token.piece ∧ ∀ c ∈ cs, p c = true

namespace State.Took

variable {p : Tree → Bool} {t u : State} {ts us rest rest' : List Token}

theorem refl (hunread : s.unread = rest) (hheld : s.held = []) : s.Took p [] rest s :=
  ⟨hunread, hheld, rfl, [], (List.append_nil _).symm, rfl, nofun⟩

theorem trans (h : s.Took p ts rest t) (h' : t.Took p us rest' u) : s.Took p (ts ++ us) rest' u := by
  obtain ⟨cs, hcs, hleaves, hall⟩ := h.row
  obtain ⟨ds, hds, hleaves', hall'⟩ := h'.row
  refine ⟨h'.unread, h'.held, h'.reports.trans h.reports, cs ++ ds, by rw [hds, hcs, List.append_assoc], ?_, fun c hc => ?_⟩
  · rw [Tree.leavesOf_append, hleaves, hleaves', List.map_append]
  · exact (List.mem_append.mp hc).elim (hall c) (hall' c)

/-- A look makes no difference. -/
theorem looked {k : Nat} (h : State.Took p { s with patience := k } ts rest t) : s.Took p ts rest t :=
  ⟨h.unread, h.held, h.reports, h.row⟩

/-- One token that is consumed becomes a leaf. -/
theorem consumed (hheld : s.held = []) {x : Token} (hp : p x.leaf = true) : s.Took p [x] rest (s.consumed x rest) := by
  refine ⟨rfl, rfl, rfl, [x.leaf], ?_, ?_, fun c hc => List.mem_singleton.mp hc ▸ hp⟩
  · rw [s.trees_consumed, hheld]
    rfl
  · exact Tree.leavesOf_map_leaf [x]

end State.Took

/-- What was placed in a template is a part of a string once the template is closed. -/
theorem State.Took.template {t : State} {ts rest : List Token} (hheld : s.held = [])
    (h : (s.pushed (some .template)).Took isLeaf ts rest t) : s.Took isPart ts rest (s.closed .template t) := by
  obtain ⟨cs, hcs, hleaves, hall⟩ := h.row
  have hrow : t.trees = cs := hcs
  refine ⟨h.unread, h.held, ?_, [.node .template cs], ?_, ?_, fun c hc => ?_⟩
  · have hreports : (s.pushed (some .template)).reports = s.reports := by rw [State.pushed, State.drain_eq]
    exact h.reports.trans hreports
  · rw [State.trees_closed, hheld, hrow]
    rfl
  · simpa [leavesOf, Tree.leaves] using hleaves
  · rw [List.mem_singleton.mp hc]
    simpa [isPart] using hall

namespace Returns

variable {Q : α → State → Prop}

/-- The very next token is looked at. -/
theorem peekRaw {f : Kind → Routine α} (h : ∀ k : Nat, Returns n (f s.nextKind) { s with patience := k } Q) :
    Returns n (Parser.peekRaw >>= f) s Q := by
  refine .bind <| .look rfl fun k t hpeek _ => ?_
  simp only [Action.perform, Parser.look] at hpeek
  split at hpeek <;> cases hpeek
  exact h _

/-- The inside of a template. -/
theorem templateParts {inner rest : List Token} {c : Token} (hinner : ∀ t ∈ inner, t.kind = .whitespace ∨ t.kind = .id)
    (hc : c.kind = .templateClose) (hunread : s.unread = inner ++ c :: rest) (hheld : s.held = []) :
    Returns n (Parser.rule .templateParts) s fun _ t => s.Took isLeaf inner (c :: rest) t := by
  induction inner generalizing n s with
  | nil =>
    have hnext : s.nextKind = .templateClose := by rw [State.nextKind, hunread]; exact hc
    refine .of_rule fun m => .peekRaw fun k => ?_
    rw [hnext]
    exact .done (.looked (.refl hunread hheld))
  | cons x inner ih =>
    obtain ⟨hx, hinner⟩ := List.forall_mem_cons.mp hinner
    have hnext : s.nextKind = x.kind := by rw [State.nextKind, hunread]; rfl
    refine .of_rule fun m => .peekRaw fun k => ?_
    have hmore : Returns m (do Parser.advance; Parser.rule .templateParts) { s with patience := k } fun _ t =>
        s.Took isLeaf (x :: inner) (c :: rest) t :=
      .bind <| .advance hunread <| (ih hinner rfl rfl).imp fun _ _ ht => .looked ((State.Took.consumed hheld rfl).trans ht)
    rw [hnext]
    rcases hx with hk | hk <;> rw [hk] <;> exact hmore

/-- A template. -/
theorem template {o c : Token} {inner rest : List Token} (hinner : ∀ t ∈ inner, t.kind = .whitespace ∨ t.kind = .id)
    (hc : c.kind = .templateClose) (hunread : s.unread = o :: (inner ++ c :: rest)) (hheld : s.held = []) :
    Returns n Parser.template s fun _ t => s.Took isPart (o :: (inner ++ [c])) rest t := by
  have hpushed : (s.pushed (some .template)).held = [] := by rw [State.pushed, State.drain_eq]
  refine .node <| .bind <| .advance ((s.unread_pushed _).trans hunread) <| .bind <| (templateParts hinner hc rfl rfl).imp fun _ t ht => ?_
  have hnext : t.nextKind = .templateClose := by rw [State.nextKind, ht.unread]; exact hc
  refine .peekRaw fun k => ?_
  rw [hnext, if_pos rfl]
  refine .advance ht.unread <| .template hheld ?_
  exact (State.Took.consumed hpushed rfl).trans (ht.trans (.looked (.consumed ht.held rfl)))

/-- The inside of a string, with its closing quote if it has one. -/
theorem stringParts {body tail rest : List Token} (hbody : StringBody body) (htail : RunEnds tail rest)
    (hunread : s.unread = body ++ (tail ++ rest)) (hheld : s.held = []) :
    Returns n (Parser.rule .stringParts) s fun _ t => s.Took isPart (body ++ tail) rest t := by
  induction hbody generalizing n s with
  | nil =>
    refine .of_rule fun m => .peekRaw fun k => ?_
    cases htail with
    | @closed e _ quote =>
      have hnext : s.nextKind = .doubleQuote := by rw [State.nextKind, hunread]; exact quote
      rw [hnext]
      exact .advance hunread (.looked (.consumed hheld rfl))
    | «open» line =>
      have hnext : s.nextKind = .newline ∨ s.nextKind = .error := by
        cases rest with
        | nil => exact .inr (by rw [State.nextKind, hunread]; rfl)
        | cons t rest => exact .inl (by rw [State.nextKind, hunread]; exact line t rfl)
      have hdone : Returns m (pure ()) { s with patience := k } fun _ t => s.Took isPart ([] ++ []) rest t :=
        .done (.looked (.refl hunread hheld))
      rcases hnext with hk | hk <;> rw [hk] <;> exact hdone
  | @piece x body kind _ ih =>
    have hnext : s.nextKind = x.kind := by rw [State.nextKind, hunread]; rfl
    refine .of_rule fun m => .peekRaw fun k => ?_
    have hmore : Returns m (do Parser.advance; Parser.rule .stringParts) { s with patience := k } fun _ t =>
        s.Took isPart (x :: body ++ tail) rest t :=
      .bind <| .advance hunread <| (ih rfl rfl).imp fun _ _ ht => .looked ((State.Took.consumed hheld rfl).trans ht)
    rw [hnext]
    rcases kind with hk | hk <;> rw [hk] <;> exact hmore
  | @template o c inner body opens inside closes _ ih =>
    have hnext : s.nextKind = .templateOpen := by rw [State.nextKind, hunread]; exact opens
    refine .of_rule fun m => .peekRaw fun k => ?_
    rw [hnext]
    have hall : o :: (inner ++ c :: body) ++ (tail ++ rest) = o :: (inner ++ c :: (body ++ (tail ++ rest))) := by simp
    refine .bind <| (Returns.template (s := { s with patience := k }) inside closes (hunread.trans hall) hheld).imp fun _ t ht => ?_
    refine (ih ht.unread ht.held).imp fun _ u hu => ?_
    have hboth := State.Took.looked (ht.trans hu)
    simpa using hboth

/-- What is read in the node of a string. -/
theorem stringBody {q : Token} {body tail rest : List Token} (hq : q.kind = .doubleQuote) (hbody : StringBody body)
    (htail : RunEnds tail rest) (hunread : s.unread = q :: (body ++ (tail ++ rest))) (hheld : s.held = []) :
    Returns n (do require .doubleQuote; Parser.advance; Parser.rule .stringParts; return Kind.stringLit) s fun _ t =>
      s.Took isPart (q :: (body ++ tail)) rest t := by
  have hskip : s.skip = s := State.skip_of_nextKind (k := .doubleQuote) (by rw [State.nextKind, hunread]; exact hq) (by decide)
  rw [require_bind]
  refine .bind <| .look rfl fun k t hpeek _ => ?_
  obtain ⟨-, rfl⟩ := State.of_perform_peek hpeek
  split
  · rw [State.looked, hskip]
    refine .bind <| .advance hunread <| .bind <| (stringParts hbody htail rfl rfl).imp fun _ t ht => .done ?_
    exact .looked ((State.Took.consumed hheld rfl).trans ht)
  · exact .fail _

/-- A string, placed in a node behind what was held back. -/
theorem string {q : Token} {body tail rest : List Token} (hq : q.kind = .doubleQuote) (hbody : StringBody body)
    (htail : RunEnds tail rest) (hunread : s.unread = q :: (body ++ (tail ++ rest))) :
    Returns n Parser.string s fun _ t => t.unread = rest ∧ t.held = [] ∧ t.reports = s.reports ∧
      ∃ cs, t.trees = s.trees ++ (s.held.map Token.leaf ++ [.node .stringLit cs]) ∧
        leavesOf cs = (q :: (body ++ tail)).map Token.piece ∧ ∀ c ∈ cs, c.isPart = true := by
  have hheld : (s.pushed (some .stringLit)).held = [] := by rw [State.pushed, State.drain_eq]
  have hreports : (s.pushed (some .stringLit)).reports = s.reports := by rw [State.pushed, State.drain_eq]
  refine .node <| (stringBody hq hbody htail ((s.unread_pushed _).trans hunread) hheld).imp fun _ t ht => ?_
  obtain ⟨cs, hcs, hleaves, hparts⟩ := ht.row
  have hrow : t.trees = cs := hcs
  exact ⟨ht.unread, ht.held, ht.reports.trans hreports, cs, by rw [s.trees_closed, hrow], hleaves, hparts⟩

end Returns

end Remap.Parser
