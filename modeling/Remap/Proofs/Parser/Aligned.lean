import Remap.Proofs.Parser.Fuel
import Remap.Proofs.Parser.Limit
import Remap.Proofs.Parser.Ordered
import Remap.Proofs.Parser.Reported
import Remap.Proofs.Parser.Strings

/-!
# The parser stands between lexemes

Outside the rule for strings and the rules that skip over errors the parser always stands between two lexemes: what was built covers
lexemes, what is held back are whole lexemes, and so is what is unread (`State.Aligned`). A token that is no quote is a whole lexeme, and
it may be consumed; a quote is left to the rule for strings, which takes the string whole. What is skipped over ends at a token that no
string holds, or at the end of the input.

So a token that is reported as found is the first one of a lexeme.
-/

namespace Remap

/-- The kind of which a diagnostic says that it was found is that of the token it points to, and has a name in messages. -/
def Diagnostic.Names (tokens : List Token) (d : Diagnostic) : Prop :=
  ∀ k, d.detail.bind Detail.found? = some k → k.describe ≠ "end of input" ∧ ∃ t ∈ tokens, t.kind = k ∧ t.span = d.span

/-- The tokens of a source. -/
def tokensOf (source : Text) : List Token := Token.place 0 none ((Lexeme.ofText source).flatMap Lexeme.pieces)

namespace Parser

open Lexeme (pieces)
open Tree (Covers leavesOf)

variable {α β : Type} {source : Text} {ls hs ms : List Lexeme} {s t : State}

namespace State

/-- What is left to be placed are whole lexemes: those held back, of which none is a string, and those unread. -/
structure Left (s : State) (hs ms : List Lexeme) : Prop where
  plain : ∀ l ∈ hs, l.isString = false
  held : s.held.map Token.piece = hs.flatMap pieces
  unread : s.unread.map Token.piece = ms.flatMap pieces

/-- The parser stands between two lexemes of a source: those of the row `ls` are built in the innermost frame, held back or unread. -/
structure Aligned (source : Text) (ls : List Lexeme) (s : State) : Prop where
  reading : s.Reading (tokensOf source)
  suffix : ls <:+ Lexeme.ofText source
  reports : ∀ d ∈ s.reports, d.Names (tokensOf source)
  cut : ∃ cs hs ms, ls = cs ++ (hs ++ ms) ∧ Covers s.trees cs ∧ s.Left hs ms

theorem rest_skip (s : State) : s.skip.rest = s.rest := by
  rw [skip_eq, rest, rest, List.append_assoc, List.takeWhile_append_dropWhile]

theorem skips_quote (s : State) {x : Token} (hx : x.kind = .doubleQuote) : s.skips x = false := by simp [skips, hx, Kind.isTrivia]

theorem Left.of_unheld (hheld : s.held = []) (hunread : s.unread.map Token.piece = ms.flatMap pieces) : s.Left [] ms :=
  ⟨fun _ hl => absurd hl List.not_mem_nil, by rw [hheld]; rfl, hunread⟩

/-- Whole lexemes are passed over. -/
theorem Left.skip (h : s.Left hs ms) : ∃ xs ys, ms = xs ++ ys ∧ s.skip.Left (hs ++ xs) ys := by
  obtain ⟨xs, ys, rfl, hxs, htake, hdrop⟩ := Lexeme.exists_passed (fun _ hx => s.skips_quote hx) h.unread
  refine ⟨xs, ys, rfl, fun l hl => (List.mem_append.mp hl).elim (h.plain l) (hxs l), ?_, ?_⟩
  · rw [skip_eq, List.flatMap_append, ← h.held, ← htake, List.map_append]
  · rw [skip_eq]
    exact hdrop

/-- The same lexemes are left where the same is to be placed and the same is unread. -/
theorem Left.of_eq (h : s.Left hs ms) (hrest : t.rest = s.rest) (hunread : t.unread = s.unread) : t.Left hs ms := by
  refine ⟨h.plain, ?_, hunread ▸ h.unread⟩
  rw [rest, rest, List.map_append, List.map_append, hunread] at hrest
  exact (List.append_cancel_right hrest).trans h.held

namespace Aligned

/-- Nothing was placed, and nothing or trivia was passed over. -/
theorem move (h : s.Aligned source ls) (ht : t.Reading (tokensOf source)) (hbelow : t.below = s.below) (hrow : t.trees = s.trees)
    (hunread : t.unread = s.unread ∨ t.unread = s.skip.unread)
    (hreports : ∀ d ∈ t.reports, d ∈ s.reports ∨ d.Names (tokensOf source)) : t.Aligned source ls := by
  refine ⟨ht, h.suffix, fun d hd => (hreports d hd).elim (h.reports d) id, ?_⟩
  obtain ⟨cs, hs, ms, rfl, hcovers, hleft⟩ := h.cut
  have hrest := h.reading.rest_eq_of_row ht hbelow hrow
  rcases hunread with hunread | hunread
  · exact ⟨cs, hs, ms, rfl, hrow ▸ hcovers, hleft.of_eq hrest hunread⟩
  · obtain ⟨xs, ys, rfl, hskip⟩ := hleft.skip
    exact ⟨cs, hs ++ xs, ys, by simp only [List.append_assoc], hrow ▸ hcovers, hskip.of_eq (hrest.trans s.rest_skip.symm) hunread⟩

/-- What is unread begins with a lexeme. -/
theorem exists_lexeme (h : s.Aligned source ls) {x : Token} {rest : List Token} (hunread : s.unread = x :: rest) :
    ∃ cs hs l ms, ls = cs ++ (hs ++ l :: ms) ∧ l.Genuine ∧ Covers s.trees cs ∧ s.Left hs (l :: ms) ∧ x.kind = l.opening := by
  obtain ⟨cs, hs, ms, rfl, hcovers, hleft⟩ := h.cut
  cases ms with
  | nil =>
    have hnil := hleft.unread
    rw [hunread] at hnil
    cases hnil
  | cons l ms =>
    obtain ⟨y, us, -, -, hcons, hy, -⟩ := Lexeme.exists_opening hleft.unread
    obtain ⟨rfl, -⟩ := List.cons.inj (hunread.symm.trans hcons)
    refine ⟨cs, hs, l, ms, rfl, Lexeme.genuine_of_mem_ofText (h.suffix.subset ?_), hcovers, hleft, hy⟩
    simp

/-- A token that is no quote is a whole lexeme, and is consumed as one. -/
theorem consumed (h : s.Aligned source ls) {x : Token} {rest : List Token} (hunread : s.unread = x :: rest) (hx : x.kind ≠ .doubleQuote) :
    (s.consumed x rest).Aligned source ls := by
  obtain ⟨cs, hs, l, ms, rfl, -, hcovers, hleft, hopening⟩ := h.exists_lexeme hunread
  have hl : l.isString = false := Bool.eq_false_iff.mpr fun hstring => hx (hopening.trans (Lexeme.opening_of_isString hstring))
  have htokens := hleft.unread
  rw [hunread, List.map_cons, List.flatMap_cons, Lexeme.pieces_of_not_isString hl] at htokens
  obtain ⟨hfirst, hrest⟩ := List.cons.inj htokens
  have hone : Covers ([x].map Token.leaf) [l] := .of_tokens (by simpa using hl) (by simp [Lexeme.pieces_of_not_isString hl, hfirst])
  refine ⟨(respected_reading _).perform (State.perform_advance hunread) h.reading, h.suffix, h.reports, cs ++ (hs ++ [l]), [], ms, by simp,
    ?_, .of_unheld rfl hrest⟩
  rw [s.trees_consumed]
  exact hcovers.append ((Covers.of_tokens hleft.plain hleft.held).append hone)

/-- Where a frame is opened, the lexemes before it are covered, and it is about the lexemes behind. -/
theorem exists_pushed (h : s.Aligned source ls) (label : Option Kind) :
    ∃ ks ms, ls = ks ++ ms ∧ Covers (s.trees ++ s.held.map Token.leaf) ks ∧ (s.pushed label).Aligned source ms := by
  obtain ⟨cs, hs, ms, rfl, hcovers, hleft⟩ := h.cut
  have hunread : (s.pushed label).unread.map Token.piece = ms.flatMap pieces := by rw [s.unread_pushed]; exact hleft.unread
  have hheld : (s.pushed label).held = [] := by rw [State.pushed, State.drain_eq]
  have hreports : (s.pushed label).reports = s.reports := by rw [State.pushed, State.drain_eq]
  have hsuffix : ms <:+ cs ++ (hs ++ ms) := ⟨cs ++ hs, List.append_assoc _ _ _⟩
  refine ⟨cs ++ hs, ms, (List.append_assoc _ _ _).symm, hcovers.append (.of_tokens hleft.plain hleft.held), ?_⟩
  exact ⟨(h.reading.pushed label).reading, hsuffix.trans h.suffix, fun d hd => h.reports d (hreports ▸ hd), [], [], ms, rfl, .nil,
    .of_unheld hheld hunread⟩

/-- A node is closed that covers the lexemes read since it was opened. -/
theorem closed {ks : List Lexeme} {k : Kind} (hsuffix : ks ++ ms <:+ Lexeme.ofText source)
    (hrow : Covers (s.trees ++ s.held.map Token.leaf) ks) (hreading : (s.closed k t).Reading (tokensOf source)) (h : t.Aligned source ms)
    (hnode : ∀ cs, Covers t.trees cs → Covers [.node k t.trees] cs) : (s.closed k t).Aligned source (ks ++ ms) := by
  obtain ⟨cs, hs, os, rfl, hcovers, hleft⟩ := h.cut
  refine ⟨hreading, hsuffix, h.reports, ks ++ cs, hs, os, by rw [List.append_assoc], ?_, hleft.plain, hleft.held, hleft.unread⟩
  rw [s.trees_closed, ← List.append_assoc]
  exact hrow.append (hnode cs hcovers)

/-- A mark is given up. -/
theorem joined {ks : List Lexeme} (hsuffix : ks ++ ms <:+ Lexeme.ofText source) (hrow : Covers (s.trees ++ s.held.map Token.leaf) ks)
    (hreading : (s.joined t).Reading (tokensOf source)) (h : t.Aligned source ms) : (s.joined t).Aligned source (ks ++ ms) := by
  obtain ⟨cs, hs, os, rfl, hcovers, hleft⟩ := h.cut
  refine ⟨hreading, hsuffix, h.reports, ks ++ cs, hs, os, by rw [List.append_assoc], ?_, hleft.plain, hleft.held, hleft.unread⟩
  rw [s.trees_joined, ← List.append_assoc]
  exact hrow.append hcovers

theorem wrapping (h : s.Aligned source ls) (k : Kind) : (s.wrapping k).Aligned source ls := by
  obtain ⟨cs, hs, ms, rfl, hcovers, hleft⟩ := h.cut
  exact ⟨h.reading.wrapping k, h.suffix, h.reports, cs, hs, ms, rfl, hcovers, hleft.plain, hleft.held, hleft.unread⟩

/-- A node is closed that began at the innermost mark. -/
theorem wrapped {k : Kind} (hk : k ≠ .stringLit ∧ k ≠ .error) (hreading : (s.wrapped k t).Reading (tokensOf source))
    (h : t.Aligned source ls) : (s.wrapped k t).Aligned source ls := by
  obtain ⟨cs, hs, ms, rfl, hcovers, hleft⟩ := h.cut
  exact ⟨hreading, h.suffix, h.reports, cs, hs, ms, rfl, hcovers.in_node hk, hleft.plain, hleft.held, hleft.unread⟩

/-- What was skipped over up to a token that no string holds, or up to the end, is an error. -/
theorem skipped (h : s.Aligned source ls) (ht : t.Reading (tokensOf source)) (hsteady : t.Steady) (hbelow : t.below = s.below)
    {ts : List Token} (hrow : t.trees = s.trees ++ (s.held.map Token.leaf ++ [.node .error (ts.map Token.leaf)]))
    (hstop : ∀ x ∈ t.unread.head?, x.kind.isStringPiece = false) (hreports : ∀ d ∈ t.reports, d.Names (tokensOf source)) :
    t.Aligned source ls := by
  obtain ⟨cs, hs, ms, rfl, hcovers, hleft⟩ := h.cut
  have hrest := h.reading.rest_eq ht hbelow hrow
  simp only [State.rest, List.map_append, Tree.leavesOf_append, Tree.leavesOf_map_leaf, leavesOf, Tree.leaves, List.append_nil,
    List.append_assoc] at hrest
  have hunread : ms.flatMap pieces = ts.map Token.piece ++ (t.held.map Token.piece ++ t.unread.map Token.piece) :=
    hleft.unread.symm.trans (List.append_cancel_left hrest)
  obtain ⟨ks, ns, os, rfl, hns, hks, hheld, hos⟩ := Lexeme.exists_stop hunread
    (fun y hy => by obtain ⟨x, hx, rfl⟩ := List.mem_map.mp hy; exact hsteady.held x hx)
    (fun z hz => by
      rw [List.head?_map] at hz
      obtain ⟨x, hx, rfl⟩ := Option.map_eq_some_iff.mp hz
      exact hstop x hx)
  have herror : Covers [.node .error (ts.map Token.leaf)] ks :=
    .in_error (by rw [Tree.leavesOf_map_leaf, hks]) fun c hc => by obtain ⟨x, -, rfl⟩ := List.mem_map.mp hc; rfl
  refine ⟨ht, h.suffix, hreports, cs ++ (hs ++ ks), ns, os, by simp, ?_, hns, hheld.symm, hos.symm⟩
  rw [hrow]
  exact hcovers.append ((Covers.of_tokens hleft.plain hleft.held).append herror)

end Aligned

end State

/-! ## Reports -/

namespace State.Aligned

/-- What is found where a token is left that is not passed over is that token. -/
theorem names (h : s.Aligned source ls) {k : Kind} (hat : s.At k) (hlive : s.unread ≠ []) :
    k.describe ≠ "end of input" ∧ ∃ t ∈ tokensOf source, t.kind = k ∧ t.span = s.here := by
  obtain ⟨x, rest, hunread⟩ := List.exists_cons_of_ne_nil hlive
  obtain ⟨cs, hs, l, ms, -, hgenuine, -, -, hopening⟩ := h.exists_lexeme hunread
  have hk : x.kind = k := by rw [← hat.kind, State.nextKind, hunread]
  have htrivia : l.opening.isTrivia = false := by
    have hready := hat.ready x rest hunread
    simp only [State.skips, Bool.or_eq_false_iff] at hready
    exact hopening ▸ hready.1
  refine ⟨?_, x, h.reading.unread.subset (hunread ▸ List.mem_cons_self), hk, by rw [State.here, hunread]⟩
  rw [← hk, hopening]
  exact hgenuine.describe_opening htrivia

end State.Aligned

/-- Whether an action makes the reports that a routine asks for. -/
def Action.isReport : {α : Type} → Action α → Bool
  | _, .report _ _ => true
  | _, _ => false

/-- What else is reported does not say what was found. -/
theorem names_perform {action : Action α} (hreport : action.isReport = false) {a : α} (h : action.perform s = .ok (a, t))
    {tokens : List Token} : ∀ d ∈ t.reports, d ∈ s.reports ∨ d.Names tokens := by
  have hskip : s.skip.reports = s.reports := by rw [State.skip_eq]
  have hsilent {d : Diagnostic} (hd : d.detail.bind Detail.found? = none) : d.Names tokens := by
    intro k hk
    cases hd.symm.trans hk
  have hone {u : State} {e : Diagnostic} (hu : u.reports = s.reports) (he : e.detail.bind Detail.found? = none) :
      ∀ d ∈ (u.report e).reports, d ∈ s.reports ∨ d.Names tokens := by
    intro d hd
    obtain ⟨ds, hds, hall⟩ := u.reports_report e
    rw [hds, hu] at hd
    exact (List.mem_append.mp hd).symm.imp id fun hnew => hsilent (hall d hnew ▸ he)
  cases action with
  | report p e => cases hreport
  | reportUnclosed closer =>
    simp only [Action.perform] at h
    split at h <;> cases h
    · exact fun d hd => .inl (hskip ▸ hd)
    · exact hone hskip rfl
  | reportTarget flaw =>
    cases h
    cases flaw <;> exact hone rfl rfl
  | checkParameters =>
    cases h
    rw [State.reportParameters_eq]
    intro d hd
    obtain ⟨es, hes, he⟩ := State.reports_foldl_report s.parameterProblems s
    rw [hes] at hd
    refine (List.mem_append.mp hd).symm.imp id fun hnew => hsilent ?_
    have hproblem := he d hnew
    unfold State.parameterProblems at hproblem
    split at hproblem
    · obtain ⟨x, -, rfl⟩ := List.mem_map.mp hproblem
      rfl
    · cases hproblem
  | enter =>
    rw [State.perform_enter] at h
    split at h
    · cases h
      exact fun d hd => .inl hd
    · split at h <;> cases h
      · exact fun d hd => .inl hd
      · intro d hd
        rcases List.mem_cons.mp hd with rfl | hd
        · exact .inr (hsilent rfl)
        · exact .inl (hskip ▸ hd)
  | _ =>
    have hsame : t.reports = s.reports := congrArg Prod.fst (said_perform rfl h)
    exact fun d hd => .inl (hsame ▸ hd)

/-! ## The judgement -/

namespace State

/-- Nothing need be known. -/
def Anywhere (_ : State) : Prop := True

/-- The next token is of a kind and not passed over. -/
abbrev Sees (k : Kind) (s : State) : Prop := s.At k

/-- There is such a token, and not the end of the input. -/
structure Present (k : Kind) (s : State) : Prop extends s.At k where
  live : s.unread ≠ []

/-- The next token is a minus sign, and a number comes right behind it. -/
structure Signed (number : Kind) (s : State) : Prop extends s.At .minus where
  number : ∃ x y rest, s.unread = x :: y :: rest ∧ y.kind = number

/-- A property of states is about what comes next. -/
class LooksAhead (P : State → Prop) : Prop where
  congr {s t : State} : t.unread = s.unread → t.separating = s.separating → P s → P t

theorem At.congr {k : Kind} (h : s.At k) (hunread : t.unread = s.unread) (hseparating : t.separating = s.separating) : t.At k :=
  (h.transfer (.inl hunread) hseparating).2

instance : LooksAhead Anywhere := ⟨fun _ _ _ => trivial⟩

instance {k : Kind} : LooksAhead (Sees k) := ⟨fun hunread hseparating h => h.congr hunread hseparating⟩

instance {k : Kind} : LooksAhead (Present k) := ⟨fun hunread hseparating h => ⟨h.toAt.congr hunread hseparating, hunread ▸ h.live⟩⟩

instance {number : Kind} : LooksAhead (Signed number) :=
  ⟨fun hunread hseparating h => ⟨h.toAt.congr hunread hseparating, hunread ▸ h.number⟩⟩

end State

open State (Anywhere Sees Present Signed LooksAhead)

/-- Wherever the parser stands between lexemes and `P` is known, a routine that returns leaves it between lexemes. -/
def Aligns (source : Text) (n : Nat) (P : State → Prop) (x : Routine α) : Prop :=
  ∀ ls s, s.Aligned source ls → P s → Returns n x s fun _ t => t.Aligned source ls

/-- An action that places nothing. -/
theorem State.Aligned.perform (h : s.Aligned source ls) {action : Action α} {a : α} (hperform : action.perform s = .ok (a, t))
    (hlook : action.isLook = true) (hreports : ∀ d ∈ t.reports, d ∈ s.reports ∨ d.Names (tokensOf source)) : t.Aligned source ls := by
  have hconsumes : action.consumes = false := by cases action <;> first | rfl | cases hlook
  obtain ⟨hfollows, hbuilt⟩ := look_perform hlook hperform
  exact h.move ((respected_reading _).perform hperform h.reading) hfollows.below (by rw [State.trees, State.trees, hbuilt])
    (spares_perform hconsumes hperform).unread hreports

namespace Aligns

variable {n : Nat} {P P' : State → Prop} {x : Routine α} {f : α → Routine β}

theorem done (a : α) : Aligns source n P (pure a : Routine α) := fun _ _ h _ => .done h

theorem fail (e : Fault) : Aligns source n P (.fail e : Routine α) := fun _ _ _ _ => .fail e

theorem bind (hx : Aligns source n P x) (hf : ∀ a, Aligns source n Anywhere (f a)) : Aligns source n P (x >>= f) :=
  fun ls s h hp => .bind <| (hx ls s h hp).imp fun a t ht => hf a ls t ht trivial

theorem ite {c : Prop} [Decidable c] {y : Routine α} (hx : Aligns source n P x) (hy : Aligns source n P y) :
    Aligns source n P (if c then x else y) := by
  split
  · exact hx
  · exact hy

theorem any (h : Aligns source n Anywhere x) : Aligns source n P x := fun ls s hs _ => h ls s hs trivial

/-- An action that places and reports nothing. -/
theorem act {action : Action α} (hlook : action.isLook = true) (hreport : action.isReport = false) :
    Aligns source n P (Parser.act action) :=
  fun _ _ h _ => .look hlook fun _ _ hperform _ => h.perform hperform hlook (names_perform hreport hperform)

/-- What was seen is still seen after a quiet action. -/
theorem act_at {action : Action α} (hlook : action.isLook = true) (hreport : action.isReport = false) (hquiet : action.isQuiet = true)
    {k : Kind} (h : ∀ a, Aligns source n (Sees k) (f a)) : Aligns source n (Sees k) (Parser.act action >>= f) := by
  refine fun ls s hs hat => .bind <| .look hlook fun a t hperform _ => ?_
  have hends := (quiet_perform hquiet s).of_ok hperform
  exact h a ls t (hs.perform hperform hlook (names_perform hreport hperform)) (hat.transfer hends.unread hends.separating).2

/-! Looking at what comes next. -/

theorem peek {f : Kind → Routine β} (h : ∀ k, Aligns source n (Sees k) (f k)) : Aligns source n P (Parser.peek >>= f) := by
  refine fun ls s hs _ => .bind <| .look rfl fun k t hpeek _ => ?_
  have ht := hs.perform hpeek rfl (names_perform rfl hpeek)
  obtain ⟨rfl, rfl⟩ := State.of_perform_peek hpeek
  exact h _ ls _ ht ⟨s.ready_skip, rfl⟩

/-- A look at a token of a known kind finds that kind. -/
theorem peek_at {f : Kind → Routine β} {k : Kind} (h : Aligns source n (Sees k) (f k)) : Aligns source n (Sees k) (Parser.peek >>= f) := by
  refine fun ls s hs hat => .bind <| .look rfl fun k' t hpeek _ => ?_
  have ht := hs.perform hpeek rfl (names_perform rfl hpeek)
  obtain ⟨rfl, rfl⟩ := State.of_perform_peek hpeek
  have hnext : s.looked.nextKind = k := hat.nextKind_skip
  rw [hnext]
  exact h ls _ ht ⟨s.ready_skip, hnext⟩

theorem peekIs {k : Kind} {f : Bool → Routine β} (htrue : Aligns source n (Sees k) (f true))
    (hfalse : ∀ k', k' ≠ k → Aligns source n (Sees k') (f false)) : Aligns source n P (Parser.peekIs k >>= f) := by
  refine peek (f := fun k' => f (k' == k)) fun k' => ?_
  by_cases hk : k' = k
  · subst hk
    rw [beq_self_eq_true]
    exact htrue
  · rw [beq_false_of_ne hk]
    exact hfalse k' hk

/-- Whether a token of a known kind has a kind. -/
theorem peekIs_at {k k' : Kind} {f : Bool → Routine β} (h : Aligns source n (Sees k') (f (k' == k))) :
    Aligns source n (Sees k') (Parser.peekIs k >>= f) :=
  peek_at (f := fun k'' => f (k'' == k)) h

theorem require {k : Kind} {f : Unit → Routine β} (h : Aligns source n (Sees k) (f ())) :
    Aligns source n P (Parser.require k >>= f) := by
  rw [require_bind]
  refine .peek fun k' => ?_
  by_cases hk : k' = k
  · subst hk
    rw [if_pos rfl]
    exact h
  · rw [if_neg hk]
    exact .fail _

/-- Whether the input has ended where a token of a kind was looked for. -/
theorem atEnd {k : Kind} {f : Bool → Routine β} (htrue : Aligns source n (Sees k) (f true)) (hfalse : Aligns source n (Present k) (f false)) :
    Aligns source n (Sees k) (Parser.atEnd >>= f) := by
  refine fun ls s hs hat => .bind <| .look rfl fun b t hperform _ => ?_
  cases hperform
  cases hempty : s.unread.isEmpty with
  | true => exact htrue ls s hs hat
  | false => exact hfalse ls s hs ⟨hat, by simpa using hempty⟩

theorem stopped {f : Bool → Routine β} (h : ∀ b, Aligns source n Anywhere (f b)) : Aligns source n P (Parser.stopped >>= f) :=
  .bind (.act rfl rfl) h

/-- A number that touches the minus sign before it. -/
theorem signs {number : Kind} {f : Bool → Routine β} (htrue : Aligns source n (Signed number) (f true))
    (hfalse : Aligns source n (Sees .minus) (f false)) : Aligns source n (Sees .minus) (Parser.ahead (.signs number) >>= f) := by
  refine fun ls s hs hat => .bind <| .look rfl fun b t hperform _ => ?_
  cases hperform
  cases hholds : (Lookahead.signs number).holds s.unread with
  | false => exact hfalse ls s hs hat
  | true =>
    refine htrue ls s hs ⟨hat, ?_⟩
    obtain ⟨x, rest, hunread, -⟩ := hat.exists_token (by decide)
    rw [hunread] at hholds ⊢
    cases rest with
    | nil => cases hholds
    | cons y rest =>
      have hy : y.kind = number ∧ y.immediate = true := by simpa [Lookahead.holds] using hholds
      exact ⟨x, y, rest, rfl, hy.1⟩

/-- A look at a minus sign before a number finds the sign. -/
theorem peek_signed {number : Kind} {f : Kind → Routine β} (h : Aligns source n (Signed number) (f .minus)) :
    Aligns source n (Signed number) (Parser.peek >>= f) := by
  refine fun ls s hs hsigned => .bind <| .look rfl fun k t hpeek _ => ?_
  have ht := hs.perform hpeek rfl (names_perform rfl hpeek)
  obtain ⟨rfl, rfl⟩ := State.of_perform_peek hpeek
  obtain ⟨hnext, hunread, hat⟩ := hsigned.toAt.looked
  rw [hnext]
  exact h ls _ ht ⟨hat, hunread ▸ hsigned.number⟩

/-! Consuming what comes next. -/

theorem advance {k : Kind} (hk : k ≠ .doubleQuote) : Aligns source n (Sees k) Parser.advance := by
  refine fun ls s hs hat => .advance_any fun x rest hunread => ?_
  have hx : x.kind = k := by rw [← hat.kind, State.nextKind, hunread]
  exact hs.consumed hunread (hx ▸ hk)

/-- The first of two tokens of which the second is a number. -/
theorem advance_signed {number : Kind} (hnumber : number.isTrivia = false ∧ number ≠ .newline) {f : Unit → Routine β}
    (h : Aligns source n (Sees number) (f ())) : Aligns source n (Signed number) (Parser.advance >>= f) := by
  intro ls s hs hsigned
  obtain ⟨x, y, rest, hunread, hy⟩ := hsigned.number
  have hx : x.kind = .minus := by rw [← hsigned.kind, State.nextKind, hunread]
  refine .bind <| .advance hunread <| h ls _ (hs.consumed hunread (by rw [hx]; decide)) ?_
  exact State.at_of_nextKind hy hnumber.1 hnumber.2

theorem eat {k : Kind} (hk : k ≠ .doubleQuote) : Aligns source n P (Parser.eat k) :=
  .peekIs (.bind (.advance hk) fun _ => .done _) fun _ _ => .done _

end Aligns

end Parser

end Remap
