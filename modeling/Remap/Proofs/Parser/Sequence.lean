import Remap.Proofs.Parser.Crossing
import Remap.Proofs.Parser.OneNode
import Remap.Proofs.Tree.Sequence

/-!
# Silent runs separate statements

Where newlines separate statements, they are never passed over like trivia: nothing but trivia is held back there (`State.Crisp`). Newlines
may have been held back only where a bracket took them in, and by the time that bracket is closed nothing is held. So all newlines between
two statements are children of the program or of the block that the statements are in, and a silent run puts there just what separates
statements (`Sequences`). Since a statement is one node, nothing else is there.
-/

namespace Remap.Parser

variable {α β : Type} {n : Nat}

open State (SameFrame AtToken GainsOne)
open Tree (Newlines Separator Sequence Remainder Braces parted_leaf parted_node withoutTrivia withoutTrivia_append withoutTrivia_leaves)

namespace State

variable {s t u : State}

/-- Where newlines separate statements only trivia is held back, and all sequences in the innermost frame are in order. -/
structure Crisp (s : State) : Prop where
  held : s.separating = true → ∀ t ∈ s.held, t.kind.isTrivia = true
  built : ∀ c ∈ s.top.built, c.Parted

theorem Crisp.congr (h : s.Crisp) (hheld : t.held = s.held) (hbuilt : t.top.built = s.top.built) (hseparating : t.separating = s.separating) :
    t.Crisp :=
  ⟨by rw [hseparating, hheld]; exact h.held, by rw [hbuilt]; exact h.built⟩

theorem Crisp.of_nil (hheld : s.held = []) (hbuilt : ∀ c ∈ s.top.built, c.Parted) : s.Crisp := ⟨fun _ => by rw [hheld]; nofun, hbuilt⟩

theorem Crisp.skip (h : s.Crisp) : s.skip.Crisp := by
  rw [skip_eq]
  refine ⟨fun hseparating t ht => ?_, h.built⟩
  rcases List.mem_append.mp ht with ht | ht
  · exact h.held hseparating t ht
  · have hskips : s.skips t = true := List.all_eq_true.mp List.all_takeWhile t ht
    rw [skips, show s.separating = true from hseparating] at hskips
    simpa using hskips

theorem parted_drain (h : ∀ c ∈ s.top.built, c.Parted) : ∀ c ∈ s.drain.top.built, c.Parted := by
  intro c hc
  rw [built_drain] at hc
  rcases List.mem_append.mp hc with hc | hc
  · obtain ⟨t, -, rfl⟩ := List.mem_map.mp hc
    exact parted_leaf t
  · exact h c hc

theorem Crisp.drain (h : s.Crisp) : s.drain.Crisp := .of_nil (by rw [drain_eq]) (parted_drain h.built)

theorem separating_pushed (label : Option Kind) : (s.pushed label).separating = s.separating := by rw [State.pushed, drain_eq]

theorem Crisp.pushed (label : Option Kind) : (s.pushed label).Crisp := .of_nil (by rw [State.pushed, drain_eq]) nofun

theorem Crisp.consumed (h : s.Crisp) (x : Token) (rest : List Token) : (s.consumed x rest).Crisp := by
  refine .of_nil rfl fun c hc => ?_
  rcases List.mem_cons.mp hc with rfl | hc
  · exact parted_leaf x
  · exact parted_drain h.built c (by rw [built_drain, List.map_reverse]; exact hc)

/-- A later state of a run: the frames are the same, newlines are read in the same way, and the state is crisp. -/
structure Onwards (s t : State) : Prop extends SameFrame s t where
  separating : t.separating = s.separating
  crisp : t.Crisp

theorem Crisp.refl (h : s.Crisp) : Onwards s s := ⟨.refl s, rfl, h⟩

theorem Onwards.trans (h : Onwards s t) (h' : Onwards t u) : Onwards s u :=
  ⟨h.toSameFrame.trans h'.toSameFrame, h'.separating.trans h.separating, h'.crisp⟩

theorem Crisp.onwards (h : s.Crisp) (hframe : SameFrame s t) (hheld : t.held = s.held) (hbuilt : t.top.built = s.top.built)
    (hseparating : t.separating = s.separating) : Onwards s t :=
  ⟨hframe, hseparating, h.congr hheld hbuilt hseparating⟩

theorem Crisp.onwards_skip (h : s.Crisp) : Onwards s s.skip := by
  refine ⟨s.still_skip.frame, ?_, h.skip⟩
  rw [skip_eq]

theorem Crisp.onwards_looked (h : s.Crisp) : Onwards s s.looked :=
  h.onwards_skip.trans (h.skip.onwards ⟨rfl, rfl⟩ rfl rfl rfl)

theorem Crisp.onwards_report (h : s.Crisp) (d : Diagnostic) : Onwards s (s.report d) := by
  rw [report_eq]
  exact h.onwards ⟨rfl, rfl⟩ rfl rfl rfl

/-- The node that was opened in `s` was closed. -/
theorem Onwards.closed {k : Kind} (h : Onwards (s.pushed (some k)) t) (hs : s.Crisp) (hnode : (Tree.node k t.top.built.reverse).Parted) :
    Onwards s (s.closed k t) :=
  ⟨sameFrame_closed, h.separating.trans (separating_pushed _), h.crisp.held, List.forall_mem_cons.mpr ⟨hnode, parted_drain hs.built⟩⟩

/-- The mark that was made in `s` was given up. -/
theorem Onwards.joined (h : Onwards (s.pushed none) t) (hs : s.Crisp) : Onwards s (s.joined t) :=
  ⟨sameFrame_joined, h.separating.trans (separating_pushed _), h.crisp.held,
    List.forall_mem_append.mpr ⟨h.crisp.built, parted_drain hs.built⟩⟩

/-- The node that was opened at the mark of `s` was closed. -/
theorem Onwards.wrapped {k : Kind} (h : Onwards (s.wrapping k) t) (hnode : (Tree.node k t.top.built.reverse).Parted) :
    Onwards s (s.wrapped k t) :=
  ⟨⟨rfl, rfl⟩, h.separating, h.crisp.held, List.forall_mem_singleton.mpr hnode⟩

end State

open State (Crisp Onwards)

/-- An action that the grammar uses on its own goes onwards. -/
theorem onwards_perform {action : Action α} {s t : State} {a : α} (hs : s.Crisp) (hsimple : action.isSimple = true)
    (h : action.perform s = .ok (a, t)) : Onwards s t := by
  cases action with
  | peek =>
    obtain ⟨-, rfl⟩ := State.of_perform_peek h
    exact hs.onwards_looked
  | peekRaw =>
    simp only [Action.perform, look] at h
    split at h <;> cases h
    exact hs.onwards ⟨rfl, rfl⟩ rfl rfl rfl
  | touches =>
    cases h
    exact hs.onwards_skip
  | ahead q | atEnd | stopped =>
    cases h
    exact hs.refl
  | advance =>
    obtain ⟨x, rest, hu, rfl⟩ := State.of_perform_advance h
    exact ⟨⟨rfl, rfl⟩, rfl, hs.consumed x rest⟩
  | report p d =>
    cases h
    exact hs.onwards_skip.trans (hs.skip.onwards_report _)
  | reportUnclosed closer =>
    simp only [Action.perform] at h
    split at h <;> cases h
    · exact hs.onwards_skip
    · exact hs.onwards_skip.trans (hs.skip.onwards_report _)
  | reportTarget flaw =>
    cases h
    exact hs.onwards_report _
  | checkParameters =>
    cases h
    rw [State.reportParameters_eq]
    obtain ⟨reports, lastReport, hfold⟩ := State.foldl_report s.parameterProblems s
    rw [hfold]
    exact hs.onwards ⟨rfl, rfl⟩ rfl rfl rfl
  | pushDelimiter k =>
    cases h
    exact hs.onwards_skip.trans (hs.skip.onwards ⟨rfl, rfl⟩ rfl rfl rfl)
  | popDelimiter =>
    cases h
    exact hs.onwards ⟨rfl, rfl⟩ rfl rfl rfl
  | _ => cases hsimple

/-! ## Going onwards -/

/-- The silent runs of a routine go onwards. -/
def Proceeds (n : Nat) (x : Routine α) : Prop := ∀ s : State, s.Crisp → Accepts n x s fun _ t => Onwards s t

namespace Proceeds

theorem done (a : α) : Proceeds n (pure a : Routine α) := fun _ hs => .done hs.refl

theorem bind {x : Routine α} {f : α → Routine β} (hx : Proceeds n x) (hf : ∀ a, Proceeds n (f a)) : Proceeds n (x >>= f) :=
  fun s hs => .bind <| (hx s hs).imp fun a t ht => (hf a t ht.crisp).imp fun _ _ hu => ht.trans hu

theorem ite {c : Prop} [Decidable c] {x y : Routine α} (hx : Proceeds n x) (hy : Proceeds n y) : Proceeds n (if c then x else y) := by
  split
  · exact hx
  · exact hy

theorem simple {action : Action α} (h : action.isSimple = true) : Proceeds n (act action) :=
  fun _ hs => .single fun _ _ _ hperform _ => onwards_perform hs h hperform

/-- A node other than a program or a block. -/
theorem node {k : Kind} (hk : k ≠ .program ∧ k ≠ .block) {body : Routine α} (h : Proceeds n body) : Proceeds n (Parser.node k body) := by
  refine fun s hs => .closing <| (h _ (.pushed _)).imp fun _ t ht => ⟨ht.toSameFrame, ht.closed hs (parted_node hk fun c hc => ?_)⟩
  exact ht.crisp.built c (List.mem_reverse.mp hc)

theorem marked {body : Routine α} (h : Proceeds n body) : Proceeds n (Parser.marked body) :=
  fun _ hs => .joining <| (h _ (.pushed _)).imp fun _ _ ht => ⟨ht.toSameFrame, ht.joined hs⟩

theorem wrapped {k : Kind} (hk : k ≠ .program ∧ k ≠ .block) {body : Routine α} (h : Proceeds n body) : Proceeds n (Parser.wrapped k body) := by
  refine fun s hs => .wrapping fun _ => (h (s.wrapping k) (hs.congr rfl rfl rfl)).imp fun _ t ht => ⟨ht.toSameFrame, ht.wrapped (parted_node hk fun c hc => ?_)⟩
  exact ht.crisp.built c (List.mem_reverse.mp hc)

theorem nested {body : Routine Kind} (h : Proceeds n body) : Proceeds n (Parser.nested body) :=
  fun s hs => .deepening <| (h s.deeper (hs.congr rfl rfl rfl)).imp fun _ _ ht =>
    ⟨⟨ht.label, ht.below⟩, ht.separating, ht.crisp.congr rfl rfl rfl⟩

end Proceeds

/-! ## Between brackets -/

/-- Where nothing is held back, newlines may be read in another way. -/
def Restarts (n : Nat) (x : Routine α) : Prop :=
  ∀ s : State, s.delimiters ≠ [] → s.held = [] → s.Crisp → Accepts n x s fun _ t => Onwards s t

/-- A routine ends where nothing is held back, if a delimiter is open where it begins. -/
def Empties (n : Nat) (x : Routine α) : Prop := ∀ s : State, s.delimiters ≠ [] → Accepts n x s fun _ t => t.held = []

theorem Empties.bind {x : Routine α} {f : α → Routine β} (hx : Scoped (runRule n) false x) (hf : ∀ a, Empties n (f a)) :
    Empties n (x >>= f) :=
  fun _ hs => .bind <| (Accepts.scoped hx).imp fun a t ht => hf a t (by rw [ht.delimiters]; exact hs)

theorem Empties.ite {c : Prop} [Decidable c] {x y : Routine α} (hx : Empties n x) (hy : Empties n y) : Empties n (if c then x else y) := by
  split
  · exact hx
  · exact hy

/-- The mate of the delimiter is consumed. -/
theorem Empties.close {closer : Kind} (hk : closer ≠ .error) : Empties n (close closer) := by
  refine fun s hs => accepts_mate hs fun patience hkind => ?_
  obtain ⟨x, rest, hunread, -⟩ := State.exists_unread hkind hk
  refine .advance (s := { s.skip with patience }) hunread fun _ => .single fun _ _ _ hpop _ => ?_
  cases hpop
  rfl

theorem Restarts.bind {x : Routine α} {f : α → Routine β} (hx : Restarts n x) (hf : ∀ a, Proceeds n (f a)) : Restarts n (x >>= f) :=
  fun s hs hheld hcrisp => .bind <| (hx s hs hheld hcrisp).imp fun a t ht => (hf a t ht.crisp).imp fun _ _ hu => ht.trans hu

/-- What is between brackets is read with newlines as separators, or without. -/
theorem Restarts.separating {b : Bool} {body : Routine α} (h : Proceeds n body) (hempties : Empties n body) :
    Restarts n (Parser.separating b body) := by
  refine fun s hs hheld hcrisp => .bind (.single fun _ _ t hset _ => ?_)
  cases hset
  have hstart : Crisp { s with separating := b } := .of_nil hheld hcrisp.built
  refine .bind (((h _ hstart).and (hempties _ hs)).imp fun a t ht => .bind (.single fun _ _ u hreset _ => .done ?_))
  obtain ⟨ht, hnil⟩ := ht
  cases hreset
  exact ⟨⟨ht.label, ht.below⟩, rfl, .of_nil hnil ht.crisp.built⟩

/-- A bracket is pushed and consumed, and nothing is held back then. -/
theorem accepts_opening {opener : Kind} {f : Unit → Routine α} {s : State} {Q : α → State → Prop} (hs : s.Crisp)
    (h : ∀ {x : Token} {t : State}, s.skip.unread.head? = some x → t.top.built = x.leaf :: s.skip.drain.top.built → t.held = [] →
      t.delimiters ≠ [] → Onwards s t → Accepts n (f ()) t Q) :
    Accepts n (act (.pushDelimiter opener) >>= fun _ => advance >>= f) s Q := by
  refine .bind (.single fun _ _ t hpush _ => ?_)
  have ht := onwards_perform hs rfl hpush
  cases hpush
  refine .act fun _ _ u hadvance _ => ?_
  have hu := onwards_perform ht.crisp rfl hadvance
  cases hunread : s.skip.unread with
  | nil => simp [Action.perform, hunread] at hadvance
  | cons x rest =>
    rw [State.perform_advance (s := { s.skip with delimiters := ⟨opener, s.skip.here⟩ :: s.skip.delimiters }) hunread] at hadvance
    cases hadvance
    refine h (x := x) (by rw [hunread]; rfl) ?_ rfl (List.cons_ne_nil _ _) (ht.trans hu)
    rw [State.built_drain, List.map_reverse]
    rfl

/-- What is behind a bracket. -/
theorem Proceeds.opened {opener : Kind} {f : Unit → Routine α} (h : Restarts n (f ())) :
    Proceeds n (act (.pushDelimiter opener) >>= fun _ => advance >>= f) :=
  fun _ hs => accepts_opening hs fun _ _ hheld hopen ht => (h _ hopen hheld ht.crisp).imp fun _ _ hu => ht.trans hu

/-! ## What is added to a row -/

namespace State

variable {s t u : State} {P R : List Tree → Prop}

/-- What was built in the innermost frame, without trivia. -/
def line (s : State) : List Tree := withoutTrivia s.top.built.reverse

/-- A later state of a run, with something more in the innermost frame. -/
structure Appends (P : List Tree → Prop) (s t : State) : Prop extends Onwards s t where
  line : ∃ ts, P ts ∧ t.line = s.line ++ ts

theorem line_congr (h : t.top.built = s.top.built) : t.line = s.line := by rw [line, h, line]

theorem line_looked : s.looked.line = s.line := line_congr s.built_skip

theorem line_drain (h : ∀ t ∈ s.held, t.kind.isTrivia = true) : s.drain.line = s.line := by
  rw [line, drain_eq, List.reverse_append, List.reverse_reverse, withoutTrivia_append, withoutTrivia_leaves h, List.append_nil, line]

/-- A token that is no trivia comes behind what is there. -/
theorem line_consumed {x : Token} (rest : List Token) (h : ∀ t ∈ s.held, t.kind.isTrivia = true) (hx : x.kind.isTrivia = false) :
    (s.consumed x rest).line = s.line ++ [x.leaf] := by
  have hsolid : withoutTrivia [x.leaf] = [x.leaf] := List.filter_cons_of_pos (by simp [Token.leaf, Tree.isTrivia, hx])
  rw [← line_drain h, line, line, drain_eq, State.consumed, List.reverse_cons, withoutTrivia_append, hsolid]

/-- A node comes behind what is there. -/
theorem GainsOne.line {k : Kind} (h : GainsOne k s t) (hheld : ∀ t ∈ s.held, t.kind.isTrivia = true) :
    ∃ cs, t.line = s.line ++ [.node k cs] := by
  obtain ⟨-, cs, hbuilt⟩ := h
  refine ⟨cs, ?_⟩
  rw [← line_drain hheld, State.line, hbuilt, List.reverse_cons, withoutTrivia_append]
  rfl

theorem Appends.imp (h : Appends P s t) (hR : ∀ ts, P ts → R ts) : Appends R s t := by
  obtain ⟨honwards, ts, hts, hline⟩ := h
  exact ⟨honwards, ts, hR ts hts, hline⟩

theorem Appends.trans {Q : List Tree → Prop} (h : Appends P s t) (h' : Appends Q t u) (hR : ∀ {ts us}, P ts → Q us → R (ts ++ us)) :
    Appends R s u := by
  obtain ⟨honwards, ts, hts, hline⟩ := h
  obtain ⟨honwards', us, hus, hline'⟩ := h'
  exact ⟨honwards.trans honwards', ts ++ us, hR hts hus, by rw [hline', hline, List.append_assoc]⟩

theorem Appends.of_looked (h : Appends P s.looked t) (hs : s.Crisp) : Appends P s t := by
  obtain ⟨honwards, ts, hts, hline⟩ := h
  exact ⟨hs.onwards_looked.trans honwards, ts, hts, by rw [hline, line_looked]⟩

/-- Nothing is added. -/
theorem Onwards.appends_nil (h : Onwards s t) (hline : t.line = s.line) (hP : P []) : Appends P s t :=
  ⟨h, [], hP, by rw [hline, List.append_nil]⟩

/-- A token is added. -/
theorem Crisp.appends_consumed {x : Token} (h : s.Crisp) (rest : List Token) (hseparating : s.separating = true)
    (hx : x.kind.isTrivia = false) : Appends (· = [x.leaf]) s (s.consumed x rest) :=
  ⟨⟨⟨rfl, rfl⟩, rfl, h.consumed x rest⟩, _, rfl, line_consumed rest (h.held hseparating) hx⟩

end State

open State (Appends)

/-! ## Statements in a row -/

/-- A silent run stops only at the end of the input. -/
theorem Accepts.stops {s : State} {f : Bool → Routine α} {Q : α → State → Prop} (hnil : s.unread = [] → Accepts n (f true) s Q)
    (hmore : s.unread ≠ [] → Accepts n (f false) s Q) : Accepts n (Parser.stopped >>= f) s Q := by
  by_cases hunread : s.unread = []
  · refine .act fun _ b t hstopped _ => ?_
    cases hstopped
    rw [hunread]
    exact hnil hunread
  · exact .stopped hunread (hmore hunread)

/-- All newlines that come next are read. -/
theorem appends_newlines (n : Nat) {s : State} (hs : s.Crisp) (hseparating : s.separating = true) :
    Accepts n newlines s fun _ t => t.AtToken ∧ Appends (fun ls => Newlines ls ∧ (s.looked.nextKind = .newline → ls ≠ [])) s t := by
  induction n generalizing s with
  | zero => exact .rule fun m hm => by cases hm
  | succ n ih =>
    refine .rule fun m hm => ?_
    cases hm
    have hlooked := hs.onwards_looked
    refine .peekIs ?_
    by_cases hnext : s.looked.nextKind = .newline
    · rw [hnext, beq_self_eq_true]
      obtain ⟨x, rest, hunread, hx⟩ := State.exists_unread hnext (by decide)
      have hconsumed := (hlooked.crisp.appends_consumed rest (hlooked.separating.trans hseparating) (by rw [hx]; rfl)).of_looked hs
      refine .advance hunread fun _ => (ih hconsumed.crisp (hconsumed.separating.trans hseparating)).imp fun _ t ht => ⟨ht.1, ?_⟩
      refine hconsumed.trans ht.2 fun {ts us} hts hus => ⟨?_, fun _ => by simp [hts]⟩
      have hnewline : Newlines [x.leaf] := fun y hy => ⟨x.text, by rw [List.mem_singleton.mp hy, Token.leaf, hx]⟩
      exact hts ▸ hnewline.append hus.1
    · rw [beq_false_of_ne hnext]
      exact .done ⟨⟨State.ready_looked, hnext⟩, hlooked.appends_nil State.line_looked ⟨.nil, (absurd · hnext)⟩⟩

/-- A row of statements ends where the input does, or in front of what closes it. -/
def State.Ends (closer : Option Kind) (s : State) : Prop := s.unread = [] ∨ ∃ k, closer = some k ∧ s.nextKind = k

/-- The silent runs of the statements up to a closing brace, or up to the end of the input. -/
def Sequences (n : Nat) (closer : Option Kind) : Prop :=
  ∀ s : State, s.Crisp → s.separating = true → Accepts n (rule (.statements closer)) s fun _ t => t.Ends closer ∧ Appends Sequence s t

section Statements

variable {s : State} {closer : Option Kind}

/-- What closes a row of statements is not passed over. -/
theorem State.Ends.atToken (h : s.Ends closer) (hcloser : ∀ k ∈ closer, Solid k) : s.AtToken := by
  rcases h with hnil | ⟨k, rfl, hnext⟩
  · refine ⟨fun t rest hunread => ?_, ?_⟩
    · cases hnil.symm.trans hunread
    · rw [State.nextKind, hnil]
      decide
  · have hk := hcloser k rfl
    exact ⟨(State.at_of_nextKind hnext hk.1 hk.2).ready, hnext ▸ hk.2⟩

theorem State.Ends.looked (h : s.Ends closer) (hs : s.AtToken) : s.looked.Ends closer := by
  rw [hs.looked]
  exact h

/-- A row of statements that has ended goes no further. -/
theorem Sequences.ended (h : Sequences n closer) (hcloser : ∀ k ∈ closer, Solid k) (hends : s.Ends closer) (hs : s.Crisp)
    (hseparating : s.separating = true) :
    Accepts n (rule (.statements closer)) s fun _ t => t.Ends closer ∧ Appends (· = []) s t := by
  have hat := hends.atToken hcloser
  have hline : Accepts n (rule (.statements closer)) s fun _ t => t.line = s.line := by
    refine .rule fun m _ => ?_
    rw [show grammar (.statements closer) = _ from statementsBody_eq closer]
    refine .bind ((Accepts.newlines_atToken hat).imp fun _ t ht => ?_)
    subst ht
    refine .stops (fun _ => .done State.line_looked) fun hmore => .peek ?_
    obtain ⟨k, rfl, hnext⟩ := (hends.looked hat).resolve_left hmore
    rw [State.nextKind_looked_looked, hnext, if_pos rfl]
    exact .done (State.line_looked.trans State.line_looked)
  exact ((h s hs hseparating).and hline).imp fun _ t ht => ⟨ht.1.1, ht.1.2.toOnwards.appends_nil ht.2 rfl⟩

/-- Statements, once what separates them from the one before was read. -/
theorem Sequences.separated (h : Sequences n closer) {u : State} (hu : Appends Separator s u) (hseparating : s.separating = true) :
    Accepts n (rule (.statements closer)) u fun _ t => t.Ends closer ∧ Appends Remainder s t :=
  (h u hu.crisp (hu.separating.trans hseparating)).imp fun _ _ ht => ⟨ht.1, hu.trans ht.2 fun hts hus _ hk cs => .cons hk cs hts hus⟩

/-- What comes after a statement. -/
theorem Sequences.after (h : Sequences n closer) (hcloser : ∀ k ∈ closer, Solid k) (hs : s.Crisp) (hseparating : s.separating = true) :
    Accepts n (afterStatement closer) s fun _ t => t.Ends closer ∧ Appends Remainder s t := by
  have hover {u : State} (hu : Appends (· = []) s u) (hends : u.Ends closer) :
      Accepts n (rule (.statements closer)) u fun _ t => t.Ends closer ∧ Appends Remainder s t := by
    refine (h.ended hcloser hends hu.crisp (hu.separating.trans hseparating)).imp fun _ t ht => ⟨ht.1, hu.trans ht.2 fun hts hus k hk cs => ?_⟩
    rw [hts, hus]
    exact .single hk cs
  refine .stops (fun hnil => hover (hs.refl.appends_nil rfl rfl) (.inl hnil)) fun _ => .peek ?_
  have hlooked := hs.onwards_looked
  have hseparating' := hlooked.separating.trans hseparating
  split
  · rename_i hnext
    refine .bind ((appends_newlines n hlooked.crisp hseparating').imp fun _ u hu => ?_)
    have hmore := State.nextKind_looked_looked.trans hnext
    exact h.separated ((hu.2.of_looked hs).imp fun ts hts => .newlines (hts.2 hmore) hts.1) hseparating
  · split
    · rename_i hnext
      obtain ⟨x, rest, hunread, hx⟩ := State.exists_unread hnext (by decide)
      have hsemicolon := (hlooked.crisp.appends_consumed rest hseparating' (by rw [hx]; rfl)).of_looked hs
      refine .advance hunread fun _ => .bind ((appends_newlines n hsemicolon.crisp (hsemicolon.separating.trans hseparating)).imp fun _ u hu => ?_)
      refine h.separated (hsemicolon.trans hu.2 fun {ts us} hts hus => ?_) hseparating
      rw [hts, List.singleton_append, Token.leaf, hx]
      exact .semicolon x.text hus.1
    · split
      · rename_i hclosed
        exact hover (hlooked.appends_nil State.line_looked rfl) (.inr ⟨_, hclosed, rfl⟩)
      · exact .never (.reportFound _ _)

/-- Statements, from where the first begins. -/
theorem Sequences.first (h : Sequences n closer) (hcloser : ∀ k ∈ closer, Solid k) (hproceeds : Proceeds n (rule .statement))
    (hs : s.Crisp) (hseparating : s.separating = true) (hat : s.AtToken) :
    Accepts n (atStatement closer) s fun _ t => t.Ends closer ∧ Appends Sequence s t := by
  refine .stops (fun hnil => .done ⟨.inl hnil, hs.refl.appends_nil rfl .nil⟩) fun _ => .peek ?_
  have hlooked := hs.onwards_looked
  have hseparating' := hlooked.separating.trans hseparating
  split
  · rename_i hclosed
    exact .done ⟨.inr ⟨_, hclosed, rfl⟩, hlooked.appends_nil State.line_looked .nil⟩
  · split
    · exact .never (.reportAndAdvance _ _)
    · split
      · exact .never (.reportAndAdvance _ _)
      · split
        · refine .bind (((hproceeds _ hlooked.crisp).and (buildsOne_statement _ hat.atLooked)).imp fun _ u hu => ?_)
          obtain ⟨honwards, hexpr, hgains⟩ := hu
          obtain ⟨cs, hline⟩ := hgains.line (hlooked.crisp.held hseparating')
          have hstatement : Appends (· = [.node _ cs]) s u := Appends.of_looked ⟨honwards, _, rfl, hline⟩ hs
          refine (h.after hcloser hstatement.crisp (hstatement.separating.trans hseparating)).imp fun _ t ht => ⟨ht.1, ?_⟩
          exact hstatement.trans ht.2 fun hts hus => hts ▸ hus hexpr cs
        · exact .never (.reportFound _ _)

end Statements

/-- A row of statements. -/
theorem sequences_zero (closer : Option Kind) : Sequences 0 closer := fun _ _ _ => .rule fun m hm => by cases hm

theorem Sequences.succ {closer : Option Kind} (h : Sequences n closer) (hcloser : ∀ k ∈ closer, Solid k)
    (hproceeds : Proceeds n (rule .statement)) : Sequences (n + 1) closer := by
  refine fun s hs hseparating => .rule fun m hm => ?_
  cases hm
  rw [show grammar (.statements closer) = _ from statementsBody_eq closer]
  refine .bind ((appends_newlines n hs hseparating).imp fun _ u hu => ?_)
  obtain ⟨hat, hnewlines⟩ := hu
  refine (h.first hcloser hproceeds hnewlines.crisp (hnewlines.separating.trans hseparating) hat).imp fun _ t ht => ⟨ht.1, ?_⟩
  exact hnewlines.trans ht.2 fun hts hus => .after hts.1 hus

/-! ## Blocks -/

/-- Behind a bracket, statements are read with newlines as separators. -/
theorem Sequences.between {closer : Option Kind} (h : Sequences n closer) {s : State} (hs : s.Crisp) (hheld : s.held = []) :
    Accepts n (separating true (rule (.statements closer))) s fun _ t =>
      t.Ends closer ∧ (∀ x ∈ t.held, x.kind.isTrivia = true) ∧ Appends Sequence s t := by
  refine .bind (.single fun _ _ t hset _ => ?_)
  cases hset
  have hstart : Crisp { s with separating := true } := .of_nil hheld hs.built
  refine .bind ((h _ hstart rfl).imp fun a t ht => .bind (.single fun _ _ u hreset _ => .done ?_))
  cases hreset
  obtain ⟨hends, ht, hline⟩ := ht
  have htrivia := ht.crisp.held ht.separating
  exact ⟨hends, htrivia, ⟨⟨ht.label, ht.below⟩, rfl, fun _ => htrivia, ht.crisp.built⟩, hline⟩

/-- What closes the statements comes right behind them. -/
theorem accepts_closer {closer : Kind} (hk : Solid closer ∧ closer ≠ .error) {s : State} (hends : s.Ends (some closer)) (hs : s.Crisp)
    (hheld : ∀ x ∈ s.held, x.kind.isTrivia = true) (hopen : s.delimiters ≠ []) :
    Accepts n (close closer) s fun _ t => Appends (fun ts => ∃ text, ts = [.leaf closer text]) s t := by
  have hskip : s.skip = s := (hends.atToken fun k hk' => Option.mem_some.mp hk' ▸ hk.1).skip
  refine accepts_mate hopen fun patience hnext => ?_
  rw [hskip] at hnext ⊢
  obtain ⟨x, rest, hunread, hx⟩ := State.exists_unread hnext hk.2
  refine .advance (s := { s with patience }) hunread fun _ => .single fun _ _ _ hpop _ => ?_
  cases hpop
  refine ⟨⟨⟨rfl, rfl⟩, rfl, (hs.consumed x rest).congr rfl rfl rfl⟩, _, ⟨x.text, rfl⟩, ?_⟩
  rw [← hx]
  exact State.line_consumed rest hheld (hx ▸ hk.1.1)

/-- What is inside a block. -/
def blockBody : Routine Kind := do
  act (.pushDelimiter .braceOpen)
  advance
  separating true (rule (.statements (some .braceClose)))
  close .braceClose
  return .block

theorem Sequences.braced (h : Sequences n (some .braceClose)) {s : State} (hs : s.Crisp) (hheld : s.held = [])
    (hbuilt : s.top.built = []) (hnext : s.nextKind = .braceOpen) :
    Accepts n blockBody s fun _ t => Onwards s t ∧ Braces t.line := by
  have hskip := State.skip_of_nextKind hnext (by decide)
  obtain ⟨x, rest, hunread, hx⟩ := State.exists_unread hnext (by decide)
  refine accepts_opening hs fun {y u} hy hleaf hheld' hopen hu => ?_
  have hopening : u.line = [x.leaf] := by
    rw [hskip, hunread] at hy
    cases hy
    rw [State.line, hleaf, hskip, State.drain_eq, hheld, hbuilt]
    exact List.filter_cons_of_pos (by simp [Token.leaf, Tree.isTrivia, hx, Kind.isTrivia])
  have hscoped : Scoped (runRule n) false (separating true (rule (.statements (some .braceClose)))) :=
    .separating (scoped_runRule n (.statements (some .braceClose)))
  refine .bind (((h.between hu.crisp hheld').and (.scoped hscoped)).imp fun _ t ht => ?_)
  obtain ⟨⟨hends, htrivia, hstatements⟩, hkept⟩ := ht
  have hopen' : t.delimiters ≠ [] := by
    rw [hkept.delimiters]
    exact hopen
  refine .bind ((accepts_closer (by decide) hends hstatements.crisp htrivia hopen').imp fun _ v hv => .done ?_)
  obtain ⟨inner, hinner, hline⟩ := hstatements.line
  obtain ⟨_, ⟨closing, rfl⟩, hline'⟩ := hv.line
  refine ⟨(hu.trans hstatements.toOnwards).trans hv.toOnwards, x.text, inner, closing, ?_, hinner⟩
  rw [hline', hline, hopening, Token.leaf, hx, List.append_assoc]
  rfl

/-- A block holds statements between its braces. -/
theorem proceeds_block (h : Sequences n (some .braceClose)) : Proceeds n block := by
  refine fun s hs => .peekIs ?_
  have hlooked := hs.onwards_looked
  by_cases hnext : s.looked.nextKind = .braceOpen
  · rw [hnext, beq_self_eq_true]
    have hpushed : (s.looked.pushed (some .block)).held = [] := by rw [State.pushed, State.drain_eq]
    have hnext' := (State.nextKind_congr (s.looked.unread_pushed (some .block))).trans hnext
    refine .closing ((h.braced (.pushed _) hpushed rfl hnext').imp fun _ t ht => ⟨ht.1.toSameFrame, hlooked.trans ?_⟩)
    exact ht.1.closed hlooked.crisp (.node ⟨fun h => absurd h (by decide), fun _ => ht.2⟩ fun c hc => ht.1.crisp.built c (List.mem_reverse.mp hc))
  · rw [beq_false_of_ne hnext]
    exact .never (.reportFound _ _)

/-! ## Every rule -/

/-- Most kinds are neither those of programs nor those of blocks. -/
theorem ne_of_isParticular {k : Kind} (h : k.isParticular = false) : k ≠ .program ∧ k ≠ .block := by
  constructor
  · rintro rfl
    cases h
  · rintro rfl
    cases h

theorem level_proceeds (hrule : ∀ {γ : Type} (r : Rule γ), Proceeds n (rule r)) : Level fun {_} x => Proceeds n x where
  done := .done
  fail f _ _ := .fail f
  bind := .bind
  rule _ := hrule _
  simple h := .simple (Action.isSimple_of_isCommon h)
  marked := .marked
  nested := .nested
  node hk := .node (ne_of_isParticular (Kind.isParticular_of_isCommon hk))
  wrapped hk := .wrapped (ne_of_isParticular (Kind.isParticular_of_isCommon hk))
  levelNode hk := .node (ne_of_isParticular hk)
  levelWrapped hk := .wrapped (ne_of_isParticular hk)

section Rules

variable (hrule : ∀ {γ : Type} (r : Rule γ), Proceeds n (rule r))

include hrule

theorem proceeds_close (closer : Kind) : Proceeds n (close closer) := closed_close (level_proceeds hrule).toParts closer

theorem proceeds_group : Proceeds n group := by
  have l := level_proceeds hrule
  refine .node (by decide) (.opened (f := fun _ => separating false _ >>= fun _ => pure Kind.group) (.bind (.separating ?_ ?_) fun _ => .done _))
  · refine .bind (.simple rfl) fun k => .ite ?_ ?_
    · exact .bind (hrule _) fun _ => proceeds_close hrule _
    · exact .bind (closed_reportFound l.toParts rfl _) fun _ => proceeds_close hrule _
  · refine .bind (.plain rfl) fun k => .ite ?_ ?_
    · exact .bind (scoped_runRule n .assignment) fun _ => .close nofun
    · exact .bind (scoped_reportFound _ _) fun _ => .close nofun

theorem proceeds_delimited (opener : Kind) (list : ItemList) : Proceeds n (delimited opener list) := by
  refine .opened (.separating ?_ ?_)
  · exact .bind (hrule _) fun _ => proceeds_close hrule _
  · exact .bind (scoped_runRule n (.items list)) fun _ => .close (by cases list <;> decide)

variable (hsequences : Sequences n (some .braceClose))

include hsequences

theorem proceeds_objectOrBlock : Proceeds n objectOrBlock := by
  have l := level_proceeds hrule
  have hahead : Proceeds n (ahead .opensObject) := fun s hs => .single fun _ _ t hperform _ => by
    cases hperform
    exact hs.refl
  refine .bind (closed_require l.toParts _) fun _ => .bind hahead fun _ => .ite ?_ (proceeds_block hsequences)
  exact .node (by decide) (.bind (proceeds_delimited hrule _ _) fun _ => .done _)

theorem proceeds_closure : Proceeds n closure := by
  have l := level_proceeds hrule
  refine .node (by decide) <| .bind (.simple rfl) fun _ => .bind (.node (by decide) (closed_parameterListBody l.toParts)) fun _ => ?_
  exact .bind (.simple rfl) fun _ => .bind (hrule _) fun _ => .bind (proceeds_block hsequences) fun _ => .done _

theorem proceeds_branch : Proceeds n branch :=
  closed_branch (level_proceeds hrule).toParts (level_continuedGroup (level_proceeds hrule)) (proceeds_block hsequences)

theorem proceeds_ifStatement : Proceeds n ifStatement :=
  .node (by decide) (closed_ifStatementBody (level_proceeds hrule).toParts (proceeds_branch hrule hsequences) (hrule _))

theorem proceeds_grammar (r : Rule α) : Proceeds n (grammar r) := by
  have l := level_proceeds hrule
  cases hr : r.isCommon with
  | true =>
    exact level_common l (proceeds_group hrule) (proceeds_delimited hrule) (proceeds_objectOrBlock hrule hsequences)
      (proceeds_closure hrule hsequences) (proceeds_ifStatement hrule hsequences) hr
  | false =>
    cases r with
    | elseBranches => exact closed_elseBranchesBody l.toParts (proceeds_branch hrule hsequences) (proceeds_block hsequences) (hrule _)
    | _ => cases hr

end Rules

/-- All rules go onwards, and what is read for statements is a row of them. Statements hold blocks, and blocks hold statements. -/
theorem proceeds_and_sequences (n : Nat) :
    (∀ {γ : Type} (r : Rule γ), Proceeds n (rule r)) ∧ ∀ closer : Option Kind, (∀ k ∈ closer, Solid k) → Sequences n closer := by
  induction n with
  | zero => exact ⟨fun r s _ => .rule fun m hm => (by cases hm), fun closer _ => sequences_zero closer⟩
  | succ n ih =>
    obtain ⟨hrule, hsequences⟩ := ih
    refine ⟨fun r s hs => .rule fun m hm => ?_, fun closer hcloser => (hsequences closer hcloser).succ hcloser (hrule _)⟩
    cases hm
    exact proceeds_grammar hrule (hsequences _ (by decide)) r s hs

/-- A program is a sequence of statements, and so is what each block in it holds. -/
theorem parted_program (tokens : List Token) (limit : Nat) (fuel : Option Nat) (n : Nat) :
    Accepts n program (State.start tokens limit fuel) fun _ t => ∃ cs, t.top.built = [.node .program cs] ∧ (Tree.node .program cs).Parted := by
  have hs : ((State.start tokens limit fuel).pushed (some .program)).Crisp := .pushed _
  refine .closing <| .bind <| (((proceeds_and_sequences n).2 none nofun) _ hs rfl).imp fun _ t ht => .single fun _ _ u hsettle _ => ?_
  obtain ⟨-, honwards, ts, hsequence, hline⟩ := ht
  cases hsettle
  have hskip := honwards.crisp.onwards_skip
  have htrivia := hskip.crisp.held (hskip.separating.trans honwards.separating)
  have hframe := (honwards.toSameFrame.trans hskip.toSameFrame).trans ⟨t.skip.follows_drain.label, t.skip.follows_drain.below⟩
  have hrow : withoutTrivia t.skip.drain.top.built.reverse = ts := by
    rw [← State.line, State.line_drain htrivia, State.line_congr t.built_skip, hline]
    rfl
  refine ⟨hframe, _, rfl, .node ⟨fun _ => hrow ▸ hsequence, nofun⟩ fun c hc => ?_⟩
  exact hskip.crisp.drain.built c (List.mem_reverse.mp hc)

end Remap.Parser
