import Remap.Proofs.Parser.Extends
import Remap.Proofs.Parser.Reported
import Remap.Proofs.Parser.Spaced
import Remap.Proofs.Token.Names
import Remap.Proofs.Tree.Parameters

/-!
# Reading a parameter list

A parameter list is read without expressions, so all that is reported meanwhile is about the next token, and no name is taken
in after such a report. So when the list is checked, the last report was made before its first name or behind its last one, and none
of the names that are repeated is passed over because something was reported at the same place just before.
-/

namespace Remap.Parser

variable {α β : Type}

/-! ## Routines that do little -/

/-- A routine performs actions and enters rules of certain kinds only. -/
def Routine.Only (p : {γ : Type} → Action γ → Bool) (q : {γ : Type} → Rule γ → Bool) : Routine α → Prop
  | .done _ => True
  | .fail _ => True
  | .act action next => p action = true ∧ ∀ b, (next b).Only p q
  | .call rule next => q rule = true ∧ ∀ b, (next b).Only p q
  | .jump rule => q rule = true

namespace Routine.Only

variable {p : {γ : Type} → Action γ → Bool} {q : {γ : Type} → Rule γ → Bool}

theorem done (a : α) : (pure a : Routine α).Only p q := trivial

theorem bind {x : Routine α} {f : α → Routine β} (hx : x.Only p q) (hf : ∀ a, (f a).Only p q) : (x >>= f).Only p q := by
  induction x with
  | done a => exact hf a
  | fail e => trivial
  | act action next ih => exact ⟨hx.1, fun b => ih b (hx.2 b)⟩
  | call rule next ih => exact ⟨hx.1, fun b => ih b (hx.2 b)⟩
  | jump rule => exact ⟨hx, hf⟩

theorem act {action : Action α} (h : p action = true) : (Parser.act action).Only p q := ⟨h, fun _ => trivial⟩

theorem ite {c : Prop} [Decidable c] {x y : Routine α} (hx : x.Only p q) (hy : y.Only p q) : (if c then x else y).Only p q := by
  split
  · exact hx
  · exact hy

section Run

variable {R : State → State → Prop} (hrefl : ∀ s, R s s) (htrans : ∀ {s t u}, R s t → R t u → R s u)
  (hperform : ∀ {γ : Type} {action : Action γ} {s t : State} {b : γ}, p action = true → action.perform s = .ok (b, t) → R s t)

include hrefl htrans hperform

/-- A run keeps what these actions and rules keep. -/
theorem run_of_enter {enter : {γ : Type} → Rule γ → Step γ}
    (henter : ∀ {γ : Type} (r : Rule γ) {s t : State} {b : γ}, q r = true → enter r s = .ok (b, t) → R s t) {x : Routine α}
    (hx : x.Only p q) {s t : State} {a : α} (hrun : x.run enter s = .ok (a, t)) : R s t := by
  induction x generalizing s with
  | done b =>
    cases hrun
    exact hrefl _
  | fail e => cases hrun
  | act action next ih =>
    obtain ⟨b, u, hp, hn⟩ := Routine.run_act_eq_ok.mp hrun
    exact htrans (hperform hx.1 hp) (ih b (hx.2 b) hn)
  | call rule next ih =>
    obtain ⟨b, u, hr, hn⟩ := Routine.run_call_eq_ok.mp hrun
    exact htrans (henter rule hx.1 hr) (ih b (hx.2 b) hn)
  | jump rule => exact henter rule hx hrun

/-- A run keeps what these actions keep, if the rules are made of them as well. -/
theorem run (hgrammar : ∀ {γ : Type} (r : Rule γ), q r = true → (grammar r).Only p q) {n : Nat} {x : Routine α} (hx : x.Only p q)
    {s t : State} {a : α} (hrun : x.run (runRule n) s = .ok (a, t)) : R s t := by
  have hrule (m : Nat) : ∀ {γ : Type} (r : Rule γ) {s t : State} {b : γ}, q r = true → runRule m r s = .ok (b, t) → R s t := by
    induction m with
    | zero =>
      intro γ r s t b _ h
      cases h
    | succ m ih => exact fun r s t b hr h => run_of_enter hrefl htrans hperform ih (hgrammar r hr) h
  exact run_of_enter hrefl htrans hperform (hrule n) hx hrun

end Run

end Routine.Only

/-! ## What is said about a list -/

/-- Whether an action says nothing, or something about what comes next. -/
def Action.isForward : {α : Type} → Action α → Bool
  | _, .report p _ => p.isAhead
  | _, .reportUnclosed _ => true
  | _, action => action.saysNothing

/-- Whether a rule reads no expression. -/
def Rule.isForward : {α : Type} → Rule α → Bool
  | _, .newlines | _, .absorb | _, .skipTo _ _ | _, .items .parameters => true
  | _, _ => false

/-- A routine reads no expression, and all that it says is about what comes next. -/
abbrev Routine.Forward (x : Routine α) : Prop := x.Only Action.isForward Rule.isForward

namespace Routine.Forward

theorem peekIs (k : Kind) : (Parser.peekIs k).Forward := .bind (.act rfl) fun _ => .done _

theorem eat (k : Kind) : (Parser.eat k).Forward :=
  .bind (peekIs k) fun _ => .ite (.bind (.act rfl) fun _ => .done _) (.done _)

theorem newlines : Parser.newlines.Forward := rfl

theorem reportFound {p : Problem} (hp : p.isAhead = true) (e : Option Expectation) : (Parser.reportFound p e).Forward := by
  refine .bind (.act rfl) fun _ => .bind (.act rfl) fun _ => .ite (.act hp) ?_
  cases e <;> exact .act hp

theorem resync (stops : KindSet) : (Parser.resync stops).Forward := by
  refine .bind (.act rfl) fun _ => .ite (.done _) <| .bind (.act rfl) fun _ => .ite (.done _) ?_
  exact .bind (.act rfl) fun _ => .bind (x := rule _) rfl fun _ => .bind (.act rfl) fun _ => .done _

theorem close (k : Kind) : (Parser.close k).Forward := by
  have hunclosed (b : Bool) : (if b then Parser.act .popDelimiter else do
      if ← atEnd then Parser.act (.reportUnclosed k)
      Parser.act .popDelimiter).Forward :=
    .ite (.act rfl) <| .bind (.act rfl) fun _ => .ite (.bind (.act rfl) fun _ => .act rfl) (.act rfl)
  refine .bind (eat k) fun _ => .ite (.act rfl) <| .bind (.act rfl) fun _ => .ite (.bind (.done false) fun _ => hunclosed _) ?_
  exact .bind (.act rfl) fun _ => .bind (resync _) fun _ => .bind (eat k) fun _ => hunclosed _

theorem parameter : Parser.parameter.Forward :=
  .bind (.act rfl) fun _ => .ite (.bind (.act rfl) fun _ => .done _) (.bind (reportFound rfl _) fun _ => .done _)

theorem grammar (r : Rule α) (hr : r.isForward = true) : (Parser.grammar r).Forward := by
  cases r with
  | newlines => exact .bind (peekIs _) fun _ => .ite (.bind (.act rfl) fun _ => newlines) (.done _)
  | absorb => exact .bind (.act rfl) fun _ => .ite (.done _) (.bind (.act rfl) fun _ => rfl)
  | skipTo stops depth =>
    exact .bind (.act rfl) fun _ => .ite (.done _) <| .bind (.act rfl) fun _ => .ite (.done _) (.bind (.act rfl) fun _ => rfl)
  | items list =>
    cases list with
    | parameters =>
      refine .bind newlines fun _ => .bind (.act rfl) fun _ => .ite (.done _) <| .bind (peekIs _) fun _ => .ite (.done _) ?_
      refine .bind parameter fun _ => .ite (.bind newlines fun _ => .bind (eat _) fun _ => .ite rfl (.done _)) (.done _)
    | _ => cases hr
  | _ => cases hr

end Routine.Forward

namespace State

/-- The reports about repeated parameters, in the order in which they were made. -/
def duplicates (s : State) : List Diagnostic := s.reports.reverse.filter (·.problem = .duplicateClosureParam)

/-- From an earlier state a parse went on without repeated parameters, and if anything was reported since, the last report was made at
the front of that state or behind it. -/
structure Onward (s t : State) : Prop where
  front : s.front ≤ t.front
  overflowed : t.overflowed = s.overflowed
  duplicates : t.duplicates = s.duplicates
  last : t.lastReport = s.lastReport ∨ ∃ o, t.lastReport = some o ∧ s.front ≤ o

namespace Onward

variable {s t u : State}

theorem refl (s : State) : Onward s s := ⟨Nat.le_refl _, rfl, rfl, .inl rfl⟩

theorem trans (h : Onward s t) (h' : Onward t u) : Onward s u where
  front := Nat.le_trans h.front h'.front
  overflowed := h'.overflowed.trans h.overflowed
  duplicates := h'.duplicates.trans h.duplicates
  last := by
    rcases h'.last with hsame | ⟨o, ho, hle⟩
    · exact hsame ▸ h.last
    · exact .inr ⟨o, ho, Nat.le_trans h.front hle⟩

theorem of_said (hsaid : t.said = s.said) (hfront : s.front ≤ t.front) : Onward s t := by
  simp only [State.said, Prod.mk.injEq] at hsaid
  exact ⟨hfront, hsaid.2.2, by rw [State.duplicates, State.duplicates, hsaid.1], .inl hsaid.2.1⟩

/-- A report at the front. -/
theorem report {d : Diagnostic} (hd : d.problem ≠ .duplicateClosureParam) (hfront : s.front ≤ d.span.start) : Onward s (s.report d) := by
  refine ⟨Nat.le_of_eq (front_report s d).symm, by rw [report_eq], ?_, ?_⟩
  · rw [report_eq, State.duplicates, State.duplicates]
    simp only
    split
    · rfl
    · rw [List.reverse_cons, List.filter_append, List.filter_cons_of_neg (by simpa using hd), List.filter_nil, List.append_nil]
  · rw [report_eq]
    simp only
    split
    · exact .inl rfl
    · exact .inr ⟨_, rfl, hfront⟩

end Onward

end State

open State (Onward)

variable {ps : List (Kind × Text)}

theorem onward_perform {action : Action α} {s t : State} {a : α} (hforward : action.isForward = true) (h : action.perform s = .ok (a, t))
    (hs : s.Orderly ps) : Onward s t := by
  have ht := (respected_orderly ps).perform h hs
  have hskip : Onward s s.skip := .of_said s.said_skip s.front_skip_le
  have hhere : s.skip.front ≤ s.skip.here.start := Nat.le_of_eq (State.start_here hs.reading.skip).symm
  cases action with
  | report p d =>
    cases h
    have hp : p ≠ .duplicateClosureParam ∧ atEndOfInput p ≠ .duplicateClosureParam := by
      have hahead : p.isAhead = true := hforward
      revert hahead
      cases p <;> decide
    refine hskip.trans (.report ?_ hhere)
    simp only
    split
    · exact hp.2
    · exact hp.1
  | reportUnclosed closer =>
    simp only [Action.perform] at h
    split at h <;> cases h
    · exact hskip
    · exact hskip.trans (.report (by simp) hhere)
  | reportTarget flaw | checkParameters | enter => cases hforward
  | _ => exact .of_said (said_perform rfl h) (State.front_le_of_suffix hs.reading ht.reading (suffix_perform h))

/-- What is read without expressions is read onward. -/
theorem Routine.Forward.run {n : Nat} {x : Routine α} (hx : x.Forward) {s t : State} {a : α} (hrun : x.run (runRule n) s = .ok (a, t))
    (hs : s.Orderly ps) : Onward s t := by
  have hboth : t.Orderly ps ∧ Onward s t := by
    refine Routine.Only.run (R := fun s t => s.Orderly ps → t.Orderly ps ∧ Onward s t) (fun s hs => ⟨hs, .refl s⟩) (fun h h' hs => ?_)
      (fun hp h hs => ⟨(respected_orderly ps).perform h hs, onward_perform hp h hs⟩) Forward.grammar hx hrun hs
    obtain ⟨ht, hst⟩ := h hs
    exact ⟨(h' ht).1, hst.trans (h' ht).2⟩
  exact hboth.2

/-! ## Names in a list -/

/-- What is asked of the pieces of a source here: none is empty, `_` is no name outside of templates, and has a kind of its own. -/
structure Worded (ps : List (Kind × Text)) : Prop where
  nonempty : ∀ p ∈ ps, p.2 ≠ []
  sheltered : Sheltered none ps
  underscore : ∀ t, (.underscore, t) ∈ ps → t = ['_']

theorem lastSolid_append (last : Option Kind) (xs ys : List (Kind × Text)) : lastSolid last (xs ++ ys) = lastSolid (lastSolid last xs) ys :=
  List.foldl_append

namespace State

variable {s t : State}

/-- All that was passed, from left to right. -/
def passed (s : State) : List (Kind × Text) := Tree.leavesOf s.forest ++ s.held.map Token.piece

/-- No template was opened just before. -/
def Outside (s : State) : Prop := lastSolid none s.passed ≠ some .templateOpen

theorem passed_skip (s : State) : s.skip.passed = s.passed ++ (s.unread.takeWhile s.skips).map Token.piece := by
  rw [skip_eq, passed, passed, List.map_append, List.append_assoc]
  rfl

theorem passed_consumed (s : State) (x : Token) (rest : List Token) : (s.consumed x rest).passed = s.passed ++ [x.piece] := by
  have hforest : (s.consumed x rest).forest = s.forest ++ (s.held.map Token.leaf ++ [x.leaf]) := by
    simp [forest, consumed, treesOfFrames]
  have hheld : (s.consumed x rest).held = [] := rfl
  rw [passed, passed, hforest, hheld, Tree.leavesOf_append, Tree.leavesOf_append, Tree.leavesOf_map_leaf]
  simp [Tree.leavesOf, Tree.leaves, Token.leaf, Token.piece]

theorem Outside.append (h : s.Outside) {ys : List (Kind × Text)} (hrow : t.passed = s.passed ++ ys) (hys : ∀ y ∈ ys, y.1 ≠ .templateOpen) :
    t.Outside := by
  have hlast (last : Option Kind) (hlast : last ≠ some .templateOpen) : lastSolid last ys ≠ some .templateOpen := by
    clear hrow
    induction ys generalizing last with
    | nil => exact hlast
    | cons y ys ih =>
      refine ih (fun z hz => hys z (List.mem_cons_of_mem _ hz)) _ ?_
      unfold solidAfter
      split
      · exact hlast
      · exact fun hy => hys y List.mem_cons_self (Option.some.inj hy)
  rw [Outside, hrow, lastSolid_append]
  exact hlast _ h

/-- A token that is no trivia and opens no template was consumed. -/
theorem outside_consumed (s : State) {x : Token} (rest : List Token) (htrivia : x.kind.isTrivia = false) (hopen : x.kind ≠ .templateOpen) :
    (s.consumed x rest).Outside := by
  rw [Outside, passed_consumed, lastSolid_append]
  simp only [lastSolid, List.foldl_cons, List.foldl_nil, solidAfter, Token.piece, htrivia]
  exact fun h => hopen (Option.some.inj h)

/-- A name that comes next is not `_` if no template was opened just before, and only `_` has its kind. -/
theorem wellNamed_next (hps : Worded ps) (h : s.Reading (Token.place 0 none ps)) (hs : s.Outside) {x : Token} {rest : List Token}
    (hunread : s.unread = x :: rest) : x.leaf.WellNamed := by
  obtain ⟨before, hsplit, hbefore⟩ := h.exists_before
  have hall : ps = s.passed ++ x.piece :: rest.map Token.piece := by
    rw [passed, hbefore, ← List.map_cons, ← List.map_append, ← hunread, ← hsplit, Token.map_piece_place]
  have hmem : x.piece ∈ ps := hall ▸ List.mem_append_right _ List.mem_cons_self
  unfold Token.leaf Tree.WellNamed
  split
  · rename_i t hleaf
    obtain ⟨hk, rfl⟩ := Tree.leaf.inj hleaf
    intro hname
    have hpiece : x.piece = (.id, ['_']) := by rw [Token.piece, hk, hname]
    have hsheltered := hps.sheltered
    rw [hall, hpiece] at hsheltered
    exact hs hsheltered.lastSolid_eq
  · rename_i t hleaf
    obtain ⟨hk, rfl⟩ := Tree.leaf.inj hleaf
    exact hps.underscore _ (by rw [← hk]; exact hmem)
  · trivial

end State

theorem wellNamed_of_isBlank (c : Tree) (h : c.isBlank = true) : c.WellNamed := by
  cases c with
  | node k cs => cases h
  | leaf k t =>
    have hblank : k.isTrivia = true ∨ k = .newline := by simpa [Tree.isBlank] using h
    rcases Kind.blank_cases hblank with rfl | rfl | rfl | rfl <;> trivial

/-- Tokens were passed without a report. What was built of them is named well, and no template is open behind them. -/
structure Passes (s t : State) : Prop where
  adds : Adds Tree.WellNamed s t
  last : t.lastReport = s.lastReport
  outside : s.Outside → t.Outside

namespace Passes

variable {s t u : State}

theorem trans (h : Passes s t) (h' : Passes t u) : Passes s u :=
  ⟨h.adds.trans h'.adds, h'.last.trans h.last, h'.outside ∘ h.outside⟩

theorem looked (s : State) : Passes s s.looked := by
  have hrow : s.looked.passed = s.passed ++ (s.unread.takeWhile s.skips).map Token.piece := s.passed_skip
  refine ⟨.of_eq s.built_skip, congrArg (fun said => said.2.1) s.said_skip, fun hs => hs.append hrow fun y hy => ?_⟩
  obtain ⟨x, hx, rfl⟩ := List.mem_map.mp hy
  have hskips := List.mem_takeWhile_imp hx
  simp only [State.skips, Bool.or_eq_true, Bool.and_eq_true, decide_eq_true_eq] at hskips
  have hblank : x.kind.isTrivia = true ∨ x.kind = .newline := hskips.imp id And.right
  rcases Kind.blank_cases hblank with hk | hk | hk | hk <;> simp [Token.piece, hk]

theorem consumed {x : Token} (rest : List Token) (hs : s.Steady) (hx : x.leaf.WellNamed)
    (htrivia : x.kind.isTrivia = false) (hopen : x.kind ≠ .templateOpen) : Passes s (s.consumed x rest) :=
  ⟨adds_consumed hs wellNamed_of_isBlank hx, rfl, fun _ => s.outside_consumed rest htrivia hopen⟩

end Passes

/-- What a run starts from and ends in is orderly. -/
theorem Returns.orderly {n : Nat} {x : Routine α} {s : State} {Q : α → State → Prop} (hs : s.Orderly ps) (h : Returns n x s Q) :
    Returns n x s fun a t => t.Orderly ps ∧ Q a t :=
  fun hsteady a t hrun hfuel =>
    ⟨(h hsteady a t hrun hfuel).1, (respected_orderly ps).run hrun hs, (h hsteady a t hrun hfuel).2⟩

theorem passes_newlines (n : Nat) (s : State) : Returns n newlines s fun _ t => Passes s t := by
  induction n generalizing s with
  | zero => exact .zero _ s
  | succ n ih =>
    refine .rule <| .bind <| .bind <| .of_steady fun hsteady => .look rfl fun k t hpeek _ => .done ?_
    have hsteady := (hushes_perform hpeek).steady hsteady
    obtain ⟨rfl, rfl⟩ := State.of_perform_peek hpeek
    split
    · rename_i hnext
      obtain ⟨x, rest, hunread, hx⟩ := State.exists_unread (eq_of_beq hnext) (by decide)
      have hname : x.leaf.WellNamed := wellNamed_of_isBlank _ (by simp [Token.leaf, Tree.isBlank, hx])
      have hpasses := (Passes.looked s).trans (.consumed rest hsteady hname (by rw [hx]; rfl) (by rw [hx]; decide))
      exact .bind <| .advance hunread <| (ih _).imp fun _ _ hu => hpasses.trans hu
    · exact .done (.looked s)

/-- A list was read up to some place: what was built is named well; and if anything was reported, the last report was made where
nothing was placed since. -/
structure Listed (s t : State) : Prop where
  adds : Adds Tree.WellNamed s t
  last : t.lastReport = s.lastReport ∨ ∃ o, t.lastReport = some o ∧ t.placed ≤ o

theorem Passes.listed {s t : State} (h : Passes s t) : Listed s t := ⟨h.adds, .inl h.last⟩

theorem Passes.trans_listed {s t u : State} (h : Passes s t) (h' : Listed t u) : Listed s u :=
  ⟨h.adds.trans h'.adds, h.last ▸ h'.last⟩

namespace State

variable {s t : State}

/-- What was placed ends where the trees of the innermost frame do. -/
theorem Anchored.placed_eq (h : s.Anchored) (hsized : s.Sized) : s.placed = s.top.start + Tree.bytesOf s.top.built.reverse := by
  rw [hsized, h.1, forest, treesOfFrames, Tree.bytesOf_append]

theorem Orderly.placed_eq (h : s.Orderly ps) : s.placed = s.top.start + Tree.bytesOf s.top.built.reverse :=
  h.anchored.placed_eq h.reading.sized

theorem Orderly.placed_of_built (hs : s.Orderly ps) (ht : t.Orderly ps) (hbelow : t.below = s.below) (hbuilt : t.top.built = s.top.built) :
    t.placed = s.placed := by
  rw [hs.reading.sized, ht.reading.sized, forest_eq_of_follows hbelow hbuilt]

end State

theorem built_reportFound (n : Nat) (p : Problem) (e : Option Expectation) (s : State) :
    Returns n (reportFound p e) s fun _ t => t.top.built = s.top.built := by
  have hreport (d : Option Detail) {u : State} (hu : u.top.built = s.top.built) :
      Returns n (report p d) u fun _ t => t.top.built = s.top.built := .look rfl fun _ _ _ hbuilt => hbuilt.trans hu
  refine .bind <| .look rfl fun k t _ hbuilt => .bind <| .look rfl fun b u _ hbuilt' => ?_
  split
  · exact hreport _ (hbuilt'.trans hbuilt)
  · cases e <;> exact hreport _ (hbuilt'.trans hbuilt)

/-- A parameter, if there is one; if not, nothing is placed and a report is made there. -/
theorem listed_parameter (hps : Worded ps) {n : Nat} {s : State} (hs : s.Orderly ps) (hout : s.Outside) :
    Returns n parameter s fun b t => if b then Passes s t else Listed s t := by
  refine .bind <| .of_steady fun hsteady => .look rfl fun k t hpeek hbuilt => ?_
  have hsteady := (hushes_perform hpeek).steady hsteady
  have ht := (respected_orderly ps).perform hpeek hs
  obtain ⟨rfl, rfl⟩ := State.of_perform_peek hpeek
  have hlooked := Passes.looked s
  split
  · rename_i hnext
    simp only [Bool.or_eq_true, decide_eq_true_eq] at hnext
    obtain ⟨x, rest, hunread, hx⟩ := State.exists_unread (s := s.looked) rfl (by rcases hnext with h | h <;> rw [h] <;> nofun)
    have hname := State.wellNamed_next hps ht.reading (hlooked.outside hout) hunread
    refine .bind <| .advance hunread <| .done ?_
    rw [if_pos rfl]
    refine hlooked.trans (.consumed rest hsteady hname ?_ ?_) <;> rw [hx] <;> rcases hnext with h | h <;> rw [h] <;> first | rfl | nofun
  · have hreported : Returns n (reportFound .unexpectedToken (some .parameterName)) s.looked fun _ t => Listed s t := by
      intro hsteady b u hrun hfuel
      obtain ⟨hfollows, hbuilt⟩ := built_reportFound n _ _ s.looked hsteady b u hrun hfuel
      have honward := (Routine.Forward.reportFound rfl _).run hrun ht
      have hu := (respected_orderly ps).run hrun ht
      have hplaced : u.placed = s.looked.placed := ht.placed_of_built hu hfollows.below hbuilt
      refine ⟨hfollows, hlooked.adds.trans (.of_eq hbuilt), ?_⟩
      rcases honward.last with hsame | ⟨o, ho, hle⟩
      · exact .inl (hsame.trans hlooked.last)
      · exact .inr ⟨o, ho, by rw [hplaced]; exact Nat.le_trans (Nat.le_add_right _ _) hle⟩
    exact .bind <| hreported.imp fun _ u hu => .done (by rw [if_neg Bool.false_ne_true]; exact hu)

theorem listed_items (hps : Worded ps) (n : Nat) {s : State} (hs : s.Orderly ps) (hout : s.Outside) :
    Returns n (rule (.items .parameters)) s fun _ t => Listed s t := by
  induction n generalizing s with
  | zero => exact .zero _ s
  | succ n ih =>
    refine .rule <| .bind <| ((passes_newlines n s).orderly hs).imp fun _ t ht => .bind <| .look rfl fun b t' hstopped _ => ?_
    cases hstopped
    split
    · exact .done ht.2.listed
    refine .bind <| .bind <| .look rfl fun k u hpeek _ => .done ?_
    have hu := (respected_orderly ps).perform hpeek ht.1
    obtain ⟨rfl, rfl⟩ := State.of_perform_peek hpeek
    have hpassed := ht.2.trans (.looked t)
    split
    · exact .done hpassed.listed
    refine .bind <| ((listed_parameter hps hu (hpassed.outside hout)).orderly hu).imp fun b v hv => ?_
    cases b with
    | false => exact .done (hpassed.trans_listed hv.2)
    | true =>
      have hpassed := hpassed.trans hv.2
      refine .bind <| ((passes_newlines n v).orderly hv.1).imp fun _ w hw => .bind <| .bind <| .bind <| .of_steady fun hsteady =>
        .look rfl fun k x hpeek _ => .done ?_
      have hsteady := (hushes_perform hpeek).steady hsteady
      have hx := (respected_orderly ps).perform hpeek hw.1
      obtain ⟨rfl, rfl⟩ := State.of_perform_peek hpeek
      have hpassed := (hpassed.trans hw.2).trans (.looked w)
      split
      · rename_i hcomma
        obtain ⟨y, rest, hunread, hy⟩ := State.exists_unread (eq_of_beq hcomma) (by decide)
        have hperform := State.perform_advance hunread
        have hnamed : y.leaf.WellNamed := by simp [Token.leaf, hy, Tree.WellNamed]
        have hpassed := hpassed.trans (.consumed rest hsteady hnamed (by rw [hy]; rfl) (by rw [hy]; decide))
        refine .bind <| .advance hunread <| .done ?_
        exact (ih ((respected_orderly ps).perform hperform hx) (hpassed.outside hout)).imp fun _ _ hz => hpassed.trans_listed hz
      · exact .done <| .done hpassed.listed

/-! ## Where the names stand -/

theorem parametersOf_append (offset : Nat) (cs ds : List Tree) :
    parametersOf offset (cs ++ ds) = parametersOf offset cs ++ parametersOf (offset + Tree.bytesOf cs) ds := by
  induction cs generalizing offset with
  | nil => rfl
  | cons c cs ih =>
    cases c with
    | leaf k t =>
      by_cases hk : k = .id <;> simp [parametersOf, hk, ih, Tree.bytesOf, Tree.bytes, Nat.add_assoc]
    | node k es => simp [parametersOf, ih, Tree.bytesOf, Nat.add_assoc]

theorem parametersOf_eq_nil {offset : Nat} {cs : List Tree} (h : ∀ c ∈ cs, ∀ t, c ≠ .leaf .id t) : parametersOf offset cs = [] := by
  induction cs generalizing offset with
  | nil => rfl
  | cons c cs ih =>
    have hrest {offset : Nat} : parametersOf offset cs = [] := ih fun d hd => h d (List.mem_cons_of_mem _ hd)
    cases c with
    | leaf k t =>
      have hk : k ≠ .id := fun hk => h _ List.mem_cons_self t (hk ▸ rfl)
      rw [parametersOf, if_neg hk, hrest]
    | node k es => exact hrest

/-- The names of a list stand one behind the other, within the list. -/
theorem start_of_mem_parametersOf {offset : Nat} {cs : List Tree} (hcs : ∀ p ∈ Tree.leavesOf cs, p.2 ≠ []) {x : Text × Span}
    (h : x ∈ parametersOf offset cs) : offset ≤ x.2.start ∧ x.2.start < offset + Tree.bytesOf cs := by
  induction cs generalizing offset with
  | nil => cases h
  | cons c cs ih =>
    have hrest (h : x ∈ parametersOf (offset + c.bytes) cs) : offset ≤ x.2.start ∧ x.2.start < offset + Tree.bytesOf (c :: cs) := by
      have hstart := ih (fun p hp => hcs p (by simp [Tree.leavesOf, hp])) h
      rw [Tree.bytesOf]
      omega
    cases c with
    | leaf k t =>
      have hpos : 0 < t.bytes := Text.bytes_pos (hcs (k, t) (by simp [Tree.leavesOf, Tree.leaves]))
      rw [parametersOf] at h
      split at h
      · rcases List.mem_cons.mp h with rfl | h
        · simp only [Span.ofSize, Tree.bytesOf, Tree.bytes]
          omega
        · exact hrest h
      · exact hrest h
    | node k es => exact hrest h

theorem pairwise_parametersOf {offset : Nat} {cs : List Tree} (hcs : ∀ p ∈ Tree.leavesOf cs, p.2 ≠ []) :
    (parametersOf offset cs).Pairwise fun x y => x.2.start < y.2.start := by
  induction cs generalizing offset with
  | nil => exact .nil
  | cons c cs ih =>
    have hrest : ∀ p ∈ Tree.leavesOf cs, p.2 ≠ [] := fun p hp => hcs p (by simp [Tree.leavesOf, hp])
    cases c with
    | leaf k t =>
      have hpos : 0 < t.bytes := Text.bytes_pos (hcs (k, t) (by simp [Tree.leavesOf, Tree.leaves]))
      rw [parametersOf]
      split
      · refine .cons (fun y hy => ?_) (ih hrest)
        have hstart := (start_of_mem_parametersOf hrest hy).1
        simp only [Span.ofSize]
        omega
      · exact ih hrest
    | node k es => exact ih hrest

/-- The names that are repeated stand in the order of the list. -/
theorem sublist_repeatedParameters (seen xs : List (Text × Span)) :
    ((repeatedParameters seen xs).map fun x => (x.1, x.2.1)).Sublist xs := by
  induction xs generalizing seen with
  | nil => exact .slnil
  | cons x xs ih =>
    obtain ⟨name, span⟩ := x
    rw [repeatedParameters]
    split
    · exact (ih _).cons_cons _
    · exact (ih _).cons _

namespace State

variable {s t : State}

/-- No name of the list that is innermost stands where the last report was made. -/
def Fresh (s : State) : Prop := ∀ o, s.lastReport = some o → ∀ x ∈ parametersOf s.top.start s.top.built.reverse, x.2.start ≠ o

theorem Orderly.nonempty (h : s.Orderly ps) (hps : Worded ps) : ∀ p ∈ Tree.leavesOf s.top.built.reverse, p.2 ≠ [] := by
  intro p hp
  obtain ⟨before, hsplit, hbefore⟩ := h.reading.exists_before
  refine hps.nonempty p ?_
  rw [← Token.map_piece_place 0 none ps, hsplit, List.map_append, ← hbefore, forest, treesOfFrames, Tree.leavesOf_append]
  simp [hp]

/-- As long as the limit was not hit, the last report was made before the next token that is consumed. -/
theorem Orderly.last_lt (h : s.Orderly ps) (hopen : s.overflowed = false) {o : Nat} (ho : s.lastReport = some o) : o ≤ s.front := by
  rw [h.spaced.last hopen] at ho
  obtain ⟨d, hd, rfl⟩ := Option.map_eq_some_iff.mp ho
  exact h.spaced.behind d (List.mem_of_mem_head? hd)

end State

theorem lax_wellNamed : Lax Tree.WellNamed := ⟨wellNamed_of_isBlank, fun _ _ => trivial⟩

/-- Blanks and nodes are no names. -/
theorem lax_unnamed : Lax fun c => ∀ t, c ≠ .leaf .id t where
  blank c hc t := by
    rintro rfl
    cases hc
  node k cs t := nofun

/-- What stands between the bars of a closure, and the bars. -/
def parameterList : Routine Unit := do
  match ← peek with
  | .pipePipe => advance
  | .pipe =>
    act (.pushDelimiter .pipe)
    advance
    rule (.items .parameters)
    close .pipe
  | _ => reportFound .unexpectedToken (some .parameterList)

theorem closure_eq :
    closure = node .closure (do
      advance
      (do node .closureParams parameterList; act .checkParameters)
      newlines
      let _ ← block) := by
  simp only [Routine.bind_eq, Routine.bind_assoc]
  rfl

theorem forward_parameterList : parameterList.Forward := by
  refine .bind (.act rfl) fun k => ?_
  split
  · exact .act rfl
  · exact .bind (.act rfl) fun _ => .bind (.act rfl) fun _ => .bind (x := rule _) rfl fun _ => Routine.Forward.close _
  · exact Routine.Forward.reportFound rfl _

/-- A list between two bars, from behind the first. -/
theorem fresh_bars (hps : Worded ps) {n : Nat} {s : State} (hs : s.Orderly ps) (hout : s.Outside)
    (hbuilt : ∀ c ∈ s.top.built, ∀ t, c ≠ .leaf .id t) (hlast : ∀ o, s.lastReport = some o → o < s.placed) :
    Returns n (do rule (.items .parameters); close .pipe) s fun _ t => Adds Tree.WellNamed s t ∧ t.Fresh := by
  refine .bind <| ((listed_items hps n hs hout).orderly hs).follows.imp fun _ t ht => ?_
  obtain ⟨hst, hot, hlisted⟩ := ht
  intro hsteady _ u hrun hfuel
  obtain ⟨htu, hnamed⟩ := AddsOnly.close lax_wellNamed (k := .pipe) (fun _ => trivial) nofun t hsteady _ u hrun hfuel
  obtain ⟨-, more, hu, hmore⟩ := AddsOnly.close lax_unnamed (k := .pipe) (fun _ _ => nofun) nofun t hsteady _ u hrun hfuel
  have hou := (respected_orderly ps).run hrun hot
  have honward := (Routine.Forward.close .pipe).run hrun hot
  obtain ⟨new, hnew, -⟩ := hlisted.adds
  refine ⟨htu, hlisted.adds.trans hnamed, fun o ho x hx => ?_⟩
  -- the names of the list are those that were added before it is closed
  have hstart : u.top.start = s.top.start := by rw [hou.anchored.1, hs.anchored.1, htu.below, hst.below]
  have hrow : u.top.built.reverse = s.top.built.reverse ++ (new.reverse ++ more.reverse) := by
    rw [hu, hnew, List.reverse_append, List.reverse_append, List.append_assoc]
  have hbefore {offset : Nat} : parametersOf offset s.top.built.reverse = [] :=
    parametersOf_eq_nil fun c hc => hbuilt c (List.mem_reverse.mp hc)
  have hbehind {offset : Nat} : parametersOf offset more.reverse = [] :=
    parametersOf_eq_nil fun c hc => hmore c (List.mem_reverse.mp hc)
  have hnames : x ∈ parametersOf s.placed new.reverse := by
    rw [hrow, hstart, parametersOf_append, parametersOf_append, ← hs.placed_eq, hbefore, hbehind, List.nil_append, List.append_nil] at hx
    exact hx
  have hplaced : t.placed = s.placed + Tree.bytesOf new.reverse := by
    have hstart : t.top.start = s.top.start := by rw [hot.anchored.1, hs.anchored.1, hst.below]
    rw [hot.placed_eq, hs.placed_eq, hstart, hnew, List.reverse_append, Tree.bytesOf_append, Nat.add_assoc]
  have hbounds := start_of_mem_parametersOf (fun p hp => hou.nonempty hps p (by simp [hrow, Tree.leavesOf_append, hp])) hnames
  have hfront : t.placed ≤ t.front := Nat.le_add_right _ _
  rcases honward.last with hsame | ⟨o', ho', hle⟩
  · rcases hlisted.last with hsame' | ⟨o', ho', hle⟩
    · have hlt := hlast o ((hsame.trans hsame').symm.trans ho)
      omega
    · obtain rfl := Option.some.inj ((hsame.trans ho').symm.trans ho)
      omega
  · obtain rfl := Option.some.inj (ho'.symm.trans ho)
    omega

/-- The names of a parameter list are what it holds besides blanks, bars and errors, and none of them stands where the last report was
made. -/
theorem fresh_list (hps : Worded ps) {n : Nat} {s : State} (hs : s.Orderly ps) (hopen : s.overflowed = false) (hbuilt : s.top.built = []) :
    Returns n parameterList s fun _ t => (∀ c ∈ t.top.built, c.WellNamed) ∧ t.Fresh := by
  have hnone {t : State} (h : Adds (fun c => ∀ text, c ≠ .leaf .id text) s t) (h' : Adds Tree.WellNamed s t) :
      (∀ c ∈ t.top.built, c.WellNamed) ∧ t.Fresh := by
    obtain ⟨new, hnew, hnames⟩ := h
    obtain ⟨new', hnew', hnamed⟩ := h'
    rw [hbuilt, List.append_nil] at hnew hnew'
    refine ⟨hnew' ▸ hnamed, fun o ho x hx => ?_⟩
    rw [parametersOf_eq_nil fun c hc => hnames c (hnew ▸ List.mem_reverse.mp hc)] at hx
    cases hx
  refine .bind <| .of_steady fun hsteady => .look rfl fun k t hpeek hsame => ?_
  have hsteady := (hushes_perform hpeek).steady hsteady
  have ht := (respected_orderly ps).perform hpeek hs
  obtain ⟨rfl, rfl⟩ := State.of_perform_peek hpeek
  split
  · rename_i hnext
    obtain ⟨x, rest, hunread, hx⟩ := State.exists_unread (s := s.looked) hnext (by decide)
    refine .advance hunread <| hnone ?_ ?_
    · exact (Adds.of_eq hsame).trans (adds_consumed hsteady lax_unnamed.blank (by simp [Token.leaf, hx]))
    · exact (Adds.of_eq hsame).trans (adds_consumed hsteady lax_wellNamed.blank (by simp [Token.leaf, hx, Tree.WellNamed]))
  · rename_i hnext
    refine .bind <| .look rfl fun _ u hpush hsame' => ?_
    have hu := (respected_orderly ps).perform hpush ht
    have hsteady := (hushes_perform hpush).steady hsteady
    have hskip : s.looked.skip = s.looked := State.skip_of_nextKind hnext (by decide)
    obtain ⟨x, rest, hunread, hx⟩ : ∃ x rest, u.unread = x :: rest ∧ x.kind = .pipe := by
      refine State.exists_unread ?_ (by decide)
      cases hpush
      rw [hskip]
      exact hnext
    have hpushed : u.overflowed = false := by
      cases hpush
      rw [hskip]
      exact (congrArg (fun said => said.2.2) s.said_skip).trans hopen
    have hadvanced := (respected_orderly ps).perform (State.perform_advance hunread) hu
    have hout := u.outside_consumed rest (x := x) (by rw [hx]; rfl) (by rw [hx]; decide)
    have hbar {p : Tree → Prop} (hp : Lax p) (hpipe : ∀ text, p (.leaf .pipe text)) : Adds p s (u.consumed x rest) := by
      refine (Adds.of_eq (hsame'.trans hsame)).trans (adds_consumed hsteady hp.blank ?_)
      rw [Token.leaf, hx]
      exact hpipe _
    obtain ⟨bars, hbars, hunnamed⟩ := hbar lax_unnamed fun _ _ h => by cases h
    rw [hbuilt, List.append_nil] at hbars
    refine .bind <| .advance hunread <| (fresh_bars hps hadvanced hout (hbars ▸ hunnamed) fun o ho => ?_).imp fun _ v hv => ?_
    · have hmem : x.piece ∈ ps := by
        rw [← Token.map_piece_place 0 none ps]
        exact List.mem_map_of_mem (hu.reading.unread.subset (hunread ▸ List.mem_cons_self))
      have hsize : 0 < x.text.bytes := Text.bytes_pos (hps.nonempty x.piece hmem)
      have hbehind : o ≤ u.front := hu.last_lt hpushed ho
      simp only [State.consumed, State.front] at hbehind ⊢
      omega
    · obtain ⟨new, hnew, hnamed⟩ := (hbar lax_wellNamed fun _ => trivial).trans hv.1
      rw [hbuilt, List.append_nil] at hnew
      exact ⟨hnew ▸ hnamed, hv.2⟩
  · intro hsteady _ u hrun hfuel
    obtain ⟨hfollows, hreported⟩ := built_reportFound n _ _ s.looked hsteady _ u hrun hfuel
    exact ⟨hfollows, hnone (.of_eq (hreported.trans hsame)) (.of_eq (hreported.trans hsame))⟩

end Remap.Parser
