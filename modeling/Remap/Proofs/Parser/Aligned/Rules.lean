import Remap.Proofs.Parser.Aligned
import Remap.Proofs.Parser.Parameters

/-!
# Building between lexemes

The rules of the judgement for what is reported, for nodes, for strings and for errors. A report may say what was found only where there
is such a token. A string literal is one string. What is skipped over ends where one of the stops is, and no stop is ever inside a string;
so an error that was skipped over holds whole strings, no matter where brackets in strings seem to open or to close.
-/

namespace Remap.Parser

open Lexeme (pieces)
open Tree (Covers leavesOf)
open State (Anywhere Sees Present LooksAhead Follows AddsLeaves)

variable {α β : Type} {source : Text} {ls : List Lexeme} {s t : State} {n : Nat}

/-- Where a run ends, the tokens are still read. -/
theorem Returns.of_reading {tokens : List Token} {Q : α → State → Prop} {x : Routine α} (hs : s.Reading tokens)
    (h : Returns n x s fun a t => t.Reading tokens → Q a t) : Returns n x s Q :=
  (Returns.reading hs (h.imp fun _ _ ht _ => ht)).imp fun _ _ => And.right

theorem State.LooksAhead.pushed {P : State → Prop} [LooksAhead P] (h : P s) {label : Option Kind} : P (s.pushed label) :=
  LooksAhead.congr (s.unread_pushed _) (by rw [State.pushed, State.drain_eq]) h

/-! ## Reports -/

/-- What a detail says was found is there. -/
def Honest (P : State → Prop) (d : Option Detail) : Prop := ∀ s, P s → ∀ k, d.bind Detail.found? = some k → s.Present k

theorem honest_of_silent {P : State → Prop} {d : Option Detail} (h : d.bind Detail.found? = none) : Honest P d := by
  intro s _ k hk
  cases h.symm.trans hk

/-- It can be said what was found where it is. -/
theorem honest_present {k : Kind} {d : Option Detail} (h : d.bind Detail.found? = some k) : Honest (Present k) d := by
  intro s hs j hj
  obtain rfl := Option.some.inj (h.symm.trans hj)
  exact hs

/-- There is a token of every kind that is seen, but for the kind that stands for none. -/
theorem honest_sees {k : Kind} {d : Option Detail} (hk : k ≠ .error) (h : d.bind Detail.found? = some k) : Honest (Sees k) d := by
  intro s hs
  obtain ⟨x, rest, hunread, -⟩ := hs.exists_token hk
  exact honest_present h s ⟨hs, by simp [hunread]⟩

theorem State.Aligned.reported (h : s.Aligned source ls) {p : Problem} {d : Option Detail} {a : Unit}
    (hd : ∀ k, d.bind Detail.found? = some k → s.Present k) (hperform : (Action.report p d).perform s = .ok (a, t)) :
    t.Aligned source ls := by
  refine h.perform hperform rfl fun e he => ?_
  cases hperform
  obtain ⟨ds, hds, hall⟩ := s.skip.reports_report
    { problem := if s.skip.unread.isEmpty then atEndOfInput p else p, span := s.skip.here, detail := d }
  rw [hds] at he
  rcases List.mem_append.mp he with hnew | hold
  · obtain rfl := hall e hnew
    refine .inr fun k hk => ?_
    have hpresent := hd k hk
    have hskip : s.skip.here = s.here := by
      obtain ⟨x, rest, hunread⟩ := List.exists_cons_of_ne_nil hpresent.live
      simp only [State.here, hpresent.toAt.skip_unread, hunread]
    exact hskip ▸ h.names hpresent.toAt hpresent.live
  · rw [State.skip_eq] at hold
    exact .inl hold

namespace Aligns

variable {P P' : State → Prop} {x : Routine α} {f : α → Routine β}

theorem weaken (h : Aligns source n P x) (hP : ∀ s, P' s → P s) : Aligns source n P' x := fun ls s hs hp => h ls s hs (hP s hp)

theorem report {d : Option Detail} (hd : Honest P d) (p : Problem) : Aligns source n P (Parser.report p d) :=
  fun _ s hs hp => .look rfl fun _ _ hperform _ => hs.reported (hd s hp) hperform

/-- What was seen is still seen after a report. -/
theorem report_at {d : Option Detail} (hd : Honest P d) {k : Kind} (hP : ∀ s, P s → s.At k) (p : Problem) {f : Unit → Routine β}
    (h : Aligns source n (Sees k) (f ())) : Aligns source n P (Parser.report p d >>= f) := by
  refine fun ls s hs hp => .bind <| .look rfl fun _ t hperform _ => ?_
  have hquiet : (Action.report p d).isQuiet = true := rfl
  have hends := (quiet_perform hquiet s).of_ok hperform
  exact h ls t (hs.reported (hd s hp) hperform) ((hP s hp).transfer hends.unread hends.separating).2

theorem reportFound (p : Problem) (e : Option Expectation) : Aligns source n P (Parser.reportFound p e) := by
  refine .peek fun k => .atEnd (.report (honest_of_silent (by cases e <;> rfl)) p) ?_
  cases e with
  | none => exact .report (honest_present rfl) p
  | some e => exact .report (honest_present rfl) p

/-! ## Nodes -/

/-- A node of lexemes. -/
theorem node [LooksAhead P] {k : Kind} (hk : k ≠ .stringLit ∧ k ≠ .error) (h : Aligns source n P x) :
    Aligns source n P (Parser.node k x) := by
  intro ls s hs hp
  obtain ⟨ks, ms, rfl, hrow, hpushed⟩ := hs.exists_pushed (some k)
  refine .of_reading hs.reading <| .node <| (h ms _ hpushed (LooksAhead.pushed hp)).imp fun _ t ht hreading => ?_
  exact .closed hs.suffix hrow hreading ht fun _ => Covers.in_node hk

/-- What is built from a mark on. -/
theorem marked [LooksAhead P] (h : Aligns source n P x) : Aligns source n P (Parser.marked x) := by
  intro ls s hs hp
  obtain ⟨ks, ms, rfl, hrow, hpushed⟩ := hs.exists_pushed none
  refine .of_reading hs.reading <| .marked <| (h ms _ hpushed (LooksAhead.pushed hp)).imp fun _ t ht hreading => ?_
  exact .joined hs.suffix hrow hreading ht

/-- A node that begins at the innermost mark. -/
theorem wrapped [LooksAhead P] {k : Kind} (hk : k ≠ .stringLit ∧ k ≠ .error) (h : Aligns source n P x) :
    Aligns source n P (Parser.wrapped k x) := by
  intro ls s hs hp
  have hwrapping : P (s.wrapping k) := LooksAhead.congr (s := s) rfl rfl hp
  exact .of_reading hs.reading <| .wrapped <| (h ls _ (hs.wrapping k) hwrapping).imp fun _ t ht hreading => .wrapped hk hreading ht

theorem separating (b : Bool) (h : Aligns source n Anywhere x) : Aligns source n P (Parser.separating b x) :=
  .bind (.act rfl rfl) fun _ => .bind h fun _ => .bind (.act rfl rfl) fun _ => .done _

/-- Blanks that come next are placed. -/
theorem settle : Aligns source n P (Parser.act .settle) := by
  intro ls s hs _
  refine .of_reading hs.reading <| .flat rfl fun _ t hsettle _ hreading => ?_
  cases hsettle
  have hmoved : s.skip.Aligned source ls :=
    hs.move hs.reading.skip s.follows_skip.below (congrArg List.reverse s.built_skip) (.inr rfl) fun d hd => .inl (by rwa [State.skip_eq] at hd)
  obtain ⟨cs, hs', ms, rfl, hcovers, hleft⟩ := hmoved.cut
  refine ⟨hreading, hs.suffix, ?_, cs ++ hs', [], ms, by simp, ?_, .of_unheld (by rw [State.drain_eq]) ?_⟩
  · rw [State.drain_eq]
    exact hmoved.reports
  · rw [State.trees_drain]
    exact hcovers.append (.of_tokens hleft.plain hleft.held)
  · rw [State.unread_drain]
    exact hleft.unread

/-- A string literal is one string. -/
theorem string : Aligns source n (Sees .doubleQuote) Parser.string := by
  intro ls s hs hat
  obtain ⟨x, rest, hunread, hx⟩ := hat.exists_token (by decide)
  obtain ⟨cs, hs', l, ms, rfl, hgenuine, hcovers, hleft, hopening⟩ := hs.exists_lexeme hunread
  have hl : l.isString = true := hgenuine.isString_iff.mpr (hopening.symm.trans hx)
  obtain ⟨before, hbefore⟩ := hs.suffix
  obtain ⟨passed, hpassed⟩ := hs.reading.unread
  have hplace := Token.eq_place_of_append hpassed.symm
  rw [hleft.unread] at hplace
  have hsource : Lexeme.ofText source = (before ++ (cs ++ hs')) ++ l :: ms := by simp [← hbefore]
  obtain ⟨q, body, tail, rest, htokens, hq, hbody, htail, hrun, hrest⟩ := Lexeme.exists_run hsource hl hplace
  refine .of_reading hs.reading <| (Returns.string hq hbody htail htokens).imp fun _ t ht hreading => ?_
  obtain ⟨hleftover, hheld, hreports, parts, hrow, hleaves, hparts⟩ := ht
  refine ⟨hreading, hs.suffix, hreports ▸ hs.reports, cs ++ (hs' ++ [l]), [], ms, by simp, ?_, .of_unheld hheld ?_⟩
  · rw [hrow]
    exact hcovers.append ((Covers.of_tokens hleft.plain hleft.held).append (.string hl (hleaves.trans hrun) hparts .nil))
  · rw [hleftover]
    exact hrest

end Aligns

/-! ## Errors -/

/-- Whether a rule passes over everything up to some place. -/
def Rule.skims : {α : Type} → Rule α → Bool
  | _, .absorb | _, .skipTo _ _ => true
  | _, _ => false

/-- A routine passes over what comes, and reports nothing. -/
abbrev Routine.Skims (x : Routine α) : Prop := x.Only Action.saysNothing Rule.skims

theorem skims_grammar (r : Rule α) (hr : r.skims = true) : (grammar r).Skims := by
  cases r with
  | absorb => exact .bind (.act rfl) fun _ => .ite (.done _) (.bind (.act rfl) fun _ => rfl)
  | skipTo stops depth =>
    exact .bind (.act rfl) fun _ => .ite (.done _) <| .bind (.act rfl) fun _ => .ite (.done _) (.bind (.act rfl) fun _ => rfl)
  | _ => cases hr

/-- Nothing is reported by passing over what comes. -/
theorem Routine.Skims.said {x : Routine α} (hx : x.Skims) {a : α} (hrun : x.run (runRule n) s = .ok (a, t)) : t.said = s.said :=
  Routine.Only.run (R := fun s t => t.said = s.said) (fun _ => rfl) (fun h h' => h'.trans h) said_perform skims_grammar hx hrun

/-- Skipping adds leaves, and ends at a stop unless nothing is left to read. -/
theorem Returns.skipTo (n : Nat) (stops : KindSet) (depth : Nat) (s : State) :
    Returns n (Parser.rule (.skipTo stops depth)) s fun _ t => AddsLeaves s t ∧ ∀ x ∈ t.unread.head?, stops.contains x.kind = true := by
  induction n generalizing depth s with
  | zero => exact .zero _ _
  | succ n ih =>
    refine .rule <| .bind <| .flat rfl fun b t hstopped _ => ?_
    cases hstopped
    split
    · rename_i hstop
      intro _ a t hrun hfuel
      cases hrun
      rw [hfuel, Bool.or_false, List.isEmpty_iff] at hstop
      exact ⟨.refl s, .of_eq rfl, by rw [hstop]; nofun⟩
    · refine .bind <| .flat rfl fun k t hpeek hlooked => ?_
      obtain ⟨rfl, rfl⟩ := State.of_perform_peek hpeek
      split
      · rename_i hstop
        refine .done ⟨hlooked, fun x hx => ?_⟩
        obtain ⟨rest, hunread⟩ := List.head?_eq_some_iff.mp hx
        rw [Bool.and_eq_true, State.nextKind, hunread] at hstop
        exact hstop.2
      · exact .bind <| .flat rfl fun _ t _ hadds => (ih _ t).imp fun _ u hu => ⟨hlooked.trans (hadds.trans hu.1), hu.2⟩

/-- What is passed over becomes an error that holds whole lexemes, if that ends at a token that no string holds or at the end. -/
theorem State.Aligned.error_skims (hs : s.Aligned source ls) {x : Routine Unit} (hx : x.Skims)
    (h : Returns n x (s.pushed (some .error)) fun _ t =>
      AddsLeaves (s.pushed (some .error)) t ∧ ∀ y ∈ t.unread.head?, y.kind.isStringPiece = false) :
    Returns n (node .error x) s fun _ t => t.Aligned source ls := by
  have hskims : (node .error x).Skims := .bind (.act rfl) fun _ => .bind hx fun _ => .bind (.act rfl) fun _ => .done _
  have hclosed : Returns n (node .error x) s fun _ t => (∃ ts : List Token,
      t.trees = s.trees ++ (s.held.map Token.leaf ++ [.node .error (ts.map Token.leaf)])) ∧
      ∀ y ∈ t.unread.head?, y.kind.isStringPiece = false := by
    refine .node <| h.imp fun _ t ⟨⟨ts, hts⟩, hstop⟩ => ⟨⟨ts.reverse, ?_⟩, hstop⟩
    have hrow : t.trees = ts.reverse.map Token.leaf := by
      rw [State.trees, hts, List.map_reverse, State.pushed, List.append_nil]
    rw [s.trees_closed, hrow]
  intro hsteady a t hrun hfuel
  obtain ⟨hfollows, ⟨ts, hrow⟩, hstop⟩ := hclosed hsteady a t hrun hfuel
  have hreports : t.reports = s.reports := congrArg Prod.fst (hskims.said hrun)
  exact ⟨hfollows, hs.skipped ((respected_reading _).run hrun hs.reading) ((respected_hushes.run hrun).steady hsteady) hfollows.below
    hrow hstop (hreports ▸ hs.reports)⟩

namespace Aligns

variable {P : State → Prop}

/-- One token that is no quote becomes an error. -/
theorem error_advance {k : Kind} (hk : k ≠ .doubleQuote) : Aligns source n (Sees k) (Parser.node .error Parser.advance) := by
  intro ls s hs hat
  obtain ⟨ks, ms, rfl, hrow, hpushed⟩ := hs.exists_pushed (some .error)
  refine .of_reading hs.reading <| .node <| .advance_any fun x rest hunread hreading => ?_
  have hx : x.kind = k := by rw [← hat.kind, State.nextKind, ← s.unread_pushed (some .error), hunread]
  refine .closed hs.suffix hrow hreading (hpushed.consumed hunread (hx ▸ hk)) fun cs hcs => Covers.in_error hcs.leaves fun c hc => ?_
  have hheld : (s.pushed (some .error)).held = [] := by rw [State.pushed, State.drain_eq]
  rw [State.trees_consumed, hheld] at hc
  obtain rfl := List.mem_singleton.mp hc
  rfl

/-- A problem is reported at a token that is no quote, and that token becomes an error. -/
theorem reportAndAdvance {d : Detail} (hd : Honest P (some d)) {k : Kind} (hk : k ≠ .doubleQuote) (hP : ∀ s, P s → s.At k) (p : Problem) :
    Aligns source n P (Parser.reportAndAdvance p d) :=
  .report_at hd hP p <| .atEnd (.done _) <| (error_advance hk).weaken fun _ hs => hs.toAt

/-- What is skipped over becomes an error, if no stop is inside a string. -/
theorem resync {stops : KindSet} (hstops : ∀ k, stops.contains k = true → k.isStringPiece = false) :
    Aligns source n P (Parser.resync stops) := by
  refine .stopped fun _ => .ite (.done _) <| .peek fun _ => .ite (.done _) fun ls s hs _ => ?_
  refine hs.error_skims rfl <| (Returns.skipTo n stops 0 _).imp fun _ t ht => ⟨ht.1, fun x hx => hstops _ (ht.2 x hx)⟩

/-- The mate of a delimiter, or an error up to it. -/
theorem close {closer : Kind} (hcloser : closer.isStringPiece = false) : Aligns source n P (Parser.close closer) := by
  have hquote : closer ≠ .doubleQuote := fun h => by cases h ▸ hcloser
  have hstops (k : Kind) (hk : (KindSet.closers.union (.single closer)).contains k = true) : k.isStringPiece = false := by
    rw [KindSet.contains_union, Bool.or_eq_true, KindSet.contains_single, beq_iff_eq] at hk
    rcases hk with hk | rfl
    · revert hk
      cases k <;> decide
    · exact hcloser
  have hunclosed (b : Bool) : Aligns source n Anywhere (if b then Parser.act .popDelimiter else do
      if ← Parser.atEnd then Parser.act (.reportUnclosed closer)
      Parser.act .popDelimiter) :=
    .ite (.act rfl rfl) <| .bind (.act rfl rfl) fun _ => .ite (.bind (.act rfl rfl) fun _ => .act rfl rfl) (.act rfl rfl)
  refine .bind (.eat hquote) fun _ => .ite (.act rfl rfl) <| .stopped fun _ => .ite (.bind (.done false) hunclosed) ?_
  refine .bind (.report (honest_of_silent rfl) _) fun _ => .bind (.resync hstops) fun _ => .bind (.eat hquote) hunclosed

/-- One level deeper. Where the limit is hit, what is left becomes an error. -/
theorem nested [LooksAhead P] {body : Routine Kind} (h : Aligns source n P body) : Aligns source n P (Parser.nested body) := by
  intro ls s hs hp
  refine .nested_swallow (fun _ => ?_) (fun _ => hs) fun _ => ?_
  · have hdeeper : s.deeper.Aligned source ls := hs.move { hs.reading with } rfl rfl (.inl rfl) fun d hd => .inl hd
    refine .of_reading hdeeper.reading <| (h ls _ hdeeper (LooksAhead.congr (s := s) rfl rfl hp)).imp fun _ t ht hreading => ?_
    exact ht.move { hreading with } rfl rfl (.inl rfl) fun d hd => .inl hd
  · have hskip := s.follows_skip
    have hoverrun : s.overrun.Aligned source ls := by
      refine hs.move { hs.reading.skip with } hskip.below (by rw [State.trees, State.trees]; exact congrArg _ s.built_skip) (.inr rfl) ?_
      intro d hd
      rcases List.mem_cons.mp hd with rfl | hd
      · exact .inr fun k hk => by cases hk
      · rw [State.skip_eq] at hd
        exact .inl hd
    refine hoverrun.error_skims (.bind (x := Parser.rule _) rfl fun _ => .act rfl) ?_
    refine .bind <| (Returns.absorb n _).imp fun _ t ht => .flat rfl fun _ u hsettle hadds => ⟨ht.2.trans hadds, ?_⟩
    cases hsettle
    simp [State.unread_drain, State.unread_skip, ht.1]

end Aligns

end Remap.Parser
