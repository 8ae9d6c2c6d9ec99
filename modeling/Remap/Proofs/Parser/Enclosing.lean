import Remap.Proofs.Concatenation
import Remap.Proofs.Parser.Delimiters

/-!
# Reading statements in braces

Statements that a program is read from silently are read in the same way in braces, with newlines inside the braces. There they
are followed by the closing brace, not by the end of the input (`gives_closed`), and they stand two levels deep, after the opening
brace and with that delimiter open (`leads_closed`). A bracketed term with nothing before it and nothing after it is then the only
statement (`Enclosed.leads`).
-/

namespace Remap.Parser

variable {α : Type}

/-- Nothing is passed over where no blank comes next. -/
theorem ready_of_solid {s : State} {x : Token} {rest : List Token} (hunread : s.unread = x :: rest) (hx : Solid x.kind) : s.Ready := by
  intro t ts hts
  cases hunread.symm.trans hts
  rw [State.skips, hx.1, decide_eq_false hx.2, Bool.and_false, Bool.or_false]

/-! ## Trees that were laid -/

/-- Between the two states the trees `row` were laid, the last of them perhaps as trivia held back, and nothing else was changed
but where the state stands. -/
structure Lays (row : List Tree) (s t : State) : Prop where
  laid : t.laid = s.laid ++ row
  kept : Kept s t
  said : t.said = s.said
  limit : t.limit = s.limit
  fuel : t.fuel = s.fuel
  exhausted : t.exhausted = s.exhausted

theorem Skims.lays {ts : List Token} {s t : State} (h : Skims ts s t) : Lays (ts.map Token.leaf) s t :=
  ⟨h.laid, h.kept, h.said, h.limit, h.fuel, h.exhausted⟩

theorem laid_drain (s : State) : s.drain.top.built.reverse = s.laid := by
  rw [State.drain_eq]
  simp [State.laid]

namespace Lays

variable {row more : List Tree} {s t u : State}

theorem trans (h : Lays row s t) (h' : Lays more t u) : Lays (row ++ more) s u where
  laid := by rw [h'.laid, h.laid, List.append_assoc]
  kept := h.kept.trans h'.kept
  said := h'.said.trans h.said
  limit := h'.limit.trans h.limit
  fuel := h'.fuel.trans h.fuel
  exhausted := h'.exhausted.trans h.exhausted

theorem live (h : Lays row s t) (hs : s.Live) : t.Live :=
  ⟨h.kept.separating.trans hs.separating, h.fuel.trans hs.fuel, h.exhausted.trans hs.exhausted⟩

/-- What was built since a mark is added to what was built before it. -/
theorem joined (h : Lays row (s.pushed none) t) : Lays row s (s.joined t) where
  laid := by
    have hlaid : t.top.built.reverse ++ t.held.map Token.leaf = row := h.laid
    show (t.top.built ++ s.drain.top.built).reverse ++ t.held.map Token.leaf = _
    rw [List.reverse_append, laid_drain, List.append_assoc, hlaid]
  kept := by
    refine ⟨?_, ?_, ?_, h.kept.delimiters.trans ?_, h.kept.separating.trans ?_, h.kept.depth.trans ?_⟩ <;>
      simp [State.joined, State.pushed, State.drain_eq]
  said := h.said.trans s.said_drain
  limit := h.limit.trans (by simp [State.pushed, State.drain_eq])
  fuel := h.fuel.trans (by simp [State.pushed, State.drain_eq])
  exhausted := h.exhausted.trans (by simp [State.pushed, State.drain_eq])

/-- What was built since a node was opened is the node. -/
theorem closed {k : Kind} (h : Lays row (s.pushed (some k)) t) (hheld : t.held = []) : Lays [.node k row] s (s.closed k t) where
  laid := by
    have hlaid : t.top.built.reverse ++ t.held.map Token.leaf = row := h.laid
    show (Tree.node k t.top.built.reverse :: s.drain.top.built).reverse ++ t.held.map Token.leaf = _
    rw [hheld, List.map_nil, List.append_nil] at hlaid ⊢
    rw [List.reverse_cons, laid_drain, hlaid]
  kept := by
    refine ⟨?_, ?_, ?_, h.kept.delimiters.trans ?_, h.kept.separating.trans ?_, h.kept.depth.trans ?_⟩ <;>
      simp [State.closed, State.pushed, State.drain_eq]
  said := h.said.trans s.said_drain
  limit := h.limit.trans (by simp [State.pushed, State.drain_eq])
  fuel := h.fuel.trans (by simp [State.pushed, State.drain_eq])
  exhausted := h.exhausted.trans (by simp [State.pushed, State.drain_eq])

/-- One level deeper and back. -/
theorem shallower (h : Lays row s.deeper t) : Lays row s t.shallower := by
  obtain ⟨hlabel, hstart, hbelow, hdelimiters, hseparating, hdepth⟩ := h.kept
  refine ⟨h.laid, ⟨hlabel, hstart, hbelow, hdelimiters, hseparating, ?_⟩, h.said, h.limit, h.fuel, h.exhausted⟩
  show t.depth - 1 = s.depth
  rw [hdepth]
  rfl

/-- With one more delimiter open meanwhile. -/
theorem undelimited {d : Delimiter} (h : Lays row { s with delimiters := d :: s.delimiters } t) :
    Lays row s { t with delimiters := t.delimiters.drop 1 } := by
  obtain ⟨hlabel, hstart, hbelow, hdelimiters, hseparating, hdepth⟩ := h.kept
  refine ⟨h.laid, ⟨hlabel, hstart, hbelow, ?_, hseparating, hdepth⟩, h.said, h.limit, h.fuel, h.exhausted⟩
  show t.delimiters.drop 1 = s.delimiters
  rw [hdelimiters]
  rfl

end Lays

namespace Leads

variable {s : State} {P : α → State → Prop}

theorem peekIs {k : Kind} {f : Bool → Routine α} (h : Leads (f (s.looked.nextKind == k)) s.looked P) :
    Leads (Parser.peekIs k >>= f) s P := by
  simp only [Parser.peekIs, Routine.bind_eq, Routine.pure_eq, Routine.bind_assoc]
  exact .peek h

/-- What is built from a mark on. -/
theorem marked {body : Routine α} (h : Leads body (s.pushed none) fun a t => Kept (s.pushed none) t ∧ P a (s.joined t)) :
    Leads (Parser.marked body) s P := by
  refine .act s.perform_mark (.bind (h.imp ?_))
  rintro a t ⟨hkept, ha⟩
  have hlabel : t.top.label = none := hkept.label
  have hbelow : t.below = s.drain.top :: s.drain.below := hkept.below
  have hunmark : Action.unmark.perform t = .ok ((), s.joined t) := by simp only [Action.perform, hlabel, hbelow, State.joined]
  exact .act hunmark (.done ha)

/-- One level deeper, if there is room. -/
theorem nested {body : Routine Kind} {P : Kind → State → Prop} (hover : s.overflowed = false) (hroom : s.depth < s.limit)
    (h : Leads body s.deeper fun k t => P k t.shallower) : Leads (Parser.nested body) s P := by
  refine .act (b := Entry.entered) (t := s.deeper) ?_ (.bind (h.imp fun k t hk => ?_))
  · rw [State.perform_enter, if_neg (Bool.eq_false_iff.mp hover), if_pos hroom]
  · exact .act (b := ()) (t := t.shallower) rfl (.done hk)

/-- Where newlines separate before and after. -/
theorem separating {body : Routine α} (hs : s.separating = true) (h : Leads body s fun a t => t.separating = true ∧ P a t) :
    Leads (Parser.separating true body) s P := by
  have hset {t : State} (ht : t.separating = true) : (Action.setSeparating true).perform t = .ok (true, t) := by
    obtain ⟨⟩ := t
    cases ht
    rfl
  refine .act (hset hs) (.bind (h.imp ?_))
  rintro a t ⟨ht, ha⟩
  exact .act (hset ht) (.done ha)

/-- Statements end where what closes them comes next. -/
theorem statements_closer {x : Token} {rest : List Token} (hs : s.Live) (hunread : s.unread = x :: rest)
    (hsolid : x.kind.isTrivia = false) (hnewline : x.kind ≠ .newline) :
    Leads (Parser.rule (.statements (some x.kind))) s fun _ t => Skims [] s t := by
  obtain ⟨hlooked, hunread'⟩ := Skims.looked_of_cons hs hunread hsolid
  obtain ⟨hlooked', hunread''⟩ := Skims.looked_of_cons (hlooked.live hs) hunread' hsolid
  have hkind : s.looked.nextKind = x.kind ∧ s.looked.looked.nextKind = x.kind := by
    simp only [State.nextKind, hunread', hunread'', and_self]
  suffices hgoal : Leads (newlines >>= fun _ => atStatement (some x.kind)) s fun _ t => Skims [] s t from
    hgoal.of_gives fun r hr => statements_iff.mpr hr
  refine .newlines_of_ne (hkind.1 ▸ hnewline) (.act (b := false) (t := s.looked) ?_ (.peek ?_))
  · rw [Action.perform, hunread', (hlooked.live hs).exhausted]
    rfl
  · rw [if_pos (congrArg some hkind.2.symm)]
    exact .done (hlooked.trans hlooked')

end Leads

/-! ## Up to the closing brace -/

/-- Statements of a row, with a newline and a closing brace after it. -/
theorem gives_closed {n limit : Nat} {front : List Token} {j : Seam .newline} {x : Token} {u : State} (hfronts : Fronts j front)
    (hafter : j.after = [x]) (hx : x.kind = .braceClose)
    (hrun : programStatements.run (runRule n) (opened (front ++ j.tail) limit none) = .ok ((), u)) (hsilent : u.Silent) :
    ∃ w, Gives (rule (.statements (some .braceClose))) (opened (front ++ j.rest) limit none) (.ok ((), w)) ∧ w.Silent ∧
      w.unread = [x] ∧ Tree.statementsOf w.laid = (Tree.statementsOf u.top.built).reverse := by
  have hsolid : x.kind.isTrivia = false ∧ x.kind ≠ .newline := by
    rw [hx]
    decide
  have hcloser : ∀ k ∈ some Kind.braceClose, k.isCloser = true := by
    rintro k ⟨⟩
    rfl
  have hend {v : State} (hv : v.Live) (hunread : v.unread = [x]) :
      Leads (rule (.statements (some .braceClose))) v fun _ w => Skims [] v w :=
    hx ▸ .statements_closer hv hunread hsolid.1 hsolid.2
  rcases crosses_programStatements hcloser n (beside_opened hfronts limit) (steady_opened _ _ _) hrun hsilent with hstuck | ⟨v, hv, hresumes⟩
  · exact absurd hstuck (not_gives_statements_stuck _ _ _)
  have hechoes := hv.echoes hrun hsilent rfl
  have hlive : v.Live := ⟨hechoes.separating, hechoes.fuel, hechoes.exhausted⟩
  have hunread : v.unread = [x] := by
    obtain ⟨_, -, rfl⟩ := hv
    exact hafter
  obtain ⟨hlooked, hunread'⟩ := Skims.looked_of_cons hlive hunread hsolid.1
  have hleads : Leads (rule (.statements (some .braceClose))) (opened (front ++ j.rest) limit none) fun _ w => Skims [] v w := by
    rcases hresumes with hgives | hgives
    · exact (hend hlive hunread).of_gives hgives
    · have hne : v.looked.nextKind ≠ .newline := by
        simp only [State.nextKind, hunread']
        exact hsolid.2
      have hagain : Leads (rule (.statements (some .braceClose))) v.looked fun _ w => Skims [] v w :=
        (hend (hlooked.live hlive) hunread').imp fun _ w hw => by simpa using hlooked.trans hw
      exact (Leads.newlines_of_ne (f := fun _ => rule (.statements (some .braceClose))) hne hagain).of_gives hgives
  rcases hleads with hstuck | ⟨_, w, hgives, hw⟩
  · exact absurd hstuck (not_gives_statements_stuck _ _ _)
  obtain ⟨hbuilt, hreports⟩ := hv.statementsOf_built
  refine ⟨w, hgives, ⟨?_, hw.exhausted.trans hlive.exhausted⟩, hw.unread.symm.trans hunread, ?_⟩
  · have hsaid : w.reports = v.reports := congrArg Prod.fst hw.said
    rw [hsaid, hreports, hsilent.reports]
  · rw [hw.laid, List.map_nil, List.append_nil, State.laid, Tree.statementsOf_append, Tree.statementsOf_leaves, List.append_nil,
      Tree.statementsOf_reverse, hbuilt]

/-! ## After the opening brace -/

/-- Newlines separate statements, there is no bound on the tokens consumed, and nothing was reported. -/
structure State.Calm (s : State) : Prop extends s.Live where
  said : s.said = ([], none, false)

namespace State.Calm

variable {s t : State} {row : List Tree}

theorem overflowed (h : s.Calm) : s.overflowed = false := congrArg (·.2.2) h.said

theorem reports (h : s.Calm) : s.reports = [] := congrArg Prod.fst h.said

theorem steady (h : s.Calm) (hheld : s.held = []) : s.Steady :=
  ⟨fun _ => ⟨h.overflowed, congrArg (·.2.1) h.said⟩, fun _ ht => absurd (hheld ▸ ht) List.not_mem_nil⟩

theorem lays (h : s.Calm) (ht : Lays row s t) : t.Calm := ⟨ht.live h.toLive, ht.said.trans h.said⟩

theorem skims {ts : List Token} (h : s.Calm) (ht : Skims ts s t) : t.Calm := h.lays ht.lays

end State.Calm

/-- What a rule does silently in one state it does in another one that stands in front of the same tokens, after other trees and atop
other delimiters. -/
theorem leads_echoed {r : Rule α} (hr : r.wraps = false) {m : Nat} {a w s : State} {x : α} (hrun : runRule m r a = .ok (x, w))
    (hsilent : w.Silent) (hsteady : a.Steady) (hechoes : Echoes .whole s.top.built (a.atop s.delimiters) s) (hs : s.Calm)
    (hheld : s.held = []) :
    Leads (rule r) s fun y t => y = x ∧ Lays w.laid s t ∧ t.unread.map Token.core = w.unread.map Token.core := by
  have hatop : (rule r).run (runRule m) (a.atop s.delimiters) = .ok (x, w.atop s.delimiters) := by
    rw [Routine.run_rule, runRule_atop, hrun]
    rfl
  have hsilent' : (w.atop s.delimiters).Silent := ⟨hsilent.reports, hsilent.fuelled⟩
  have hsteady' : (a.atop s.delimiters).Steady := ⟨hsteady.calm, hsteady.held⟩
  rcases repeats_rule m _ _ _ s hechoes hsteady' x _ hatop hsilent' with ⟨t, hrun', ht⟩ | hstuck
  · refine .inr ⟨x, t, .of_run hrun', rfl, ⟨?_, ?_, ?_, ?_, ?_, ?_⟩, ht.echoes.unread⟩
    · have hbuilt : t.top.built = w.top.built ++ s.top.built := ht.echoes.built_eq
      have hheld' : t.held.map Token.leaf = w.held.map Token.leaf := map_leaf ht.echoes.held
      rw [State.laid, State.laid, State.laid, hheld, hbuilt, hheld', List.reverse_append, List.map_nil, List.append_nil, List.append_assoc]
    · have hscoped := scoped_runRule m r
      rw [hr] at hscoped
      exact (hscoped.kept s).of_ok hrun'
    · have hreports := ht.reports.trans hs.reports
      have hcalm := ((respected_hushes.run hrun').steady (hs.steady hheld)).calm hreports
      rw [hs.said, State.said, hreports, hcalm.1, hcalm.2]
    · exact respected_limit.run hrun'
    · have hunbounded := respected_unbounded.run hrun' ⟨hs.fuel, hs.exhausted⟩
      rw [hunbounded.fuel, hs.fuel]
    · have hunbounded := respected_unbounded.run hrun' ⟨hs.fuel, hs.exhausted⟩
      rw [hunbounded.fuelled, hs.exhausted]
  · exact .inl (.of_stuck hstuck)

/-- What was read by itself is read the same way by a state that has as much room and stands in front of the same tokens. -/
theorem leads_closed {tokens : List Token} {limit : Nat} {s w : State}
    (hw : Gives (rule (.statements (some .braceClose))) (opened tokens limit none) (.ok ((), w))) (hsilent : w.Silent)
    (hs : s.Calm) (hheld : s.held = []) (hunread : s.unread.map Token.core = tokens.map Token.core)
    (hroom : s.depth + limit ≤ s.limit) (hleaf : ∃ k text before, s.top.built = .leaf k text :: before) :
    Leads (rule (.statements (some .braceClose))) s fun _ t =>
      Lays w.laid s t ∧ t.unread.map Token.core = w.unread.map Token.core := by
  obtain ⟨k, text, before, hbuilt⟩ := hleaf
  have hechoes : Echoes .whole s.top.built ((opened tokens limit none).atop s.delimiters) s :=
    { unread := hunread
      held := by rw [hheld]; rfl
      label := fun hnil => by cases hnil.symm.trans hbuilt
      built := rfl
      labelled := fun _ => Option.some_ne_none _
      leaf := fun t ht => by
        rw [hbuilt] at ht
        cases ht
        exact ⟨k, text, rfl⟩
      delimiters := rfl
      separating := hs.separating
      depth := Nat.zero_le _
      room := by rw [show ((opened tokens limit none).atop s.delimiters).depth = 0 from rfl, Nat.zero_add]; exact hroom
      overflowed := hs.overflowed
      fuel := hs.fuel
      exhausted := hs.exhausted }
  obtain ⟨-, m, hrun⟩ := hw
  have hruns : runRule m (.statements (some .braceClose)) (opened tokens limit none) = .ok ((), w) := hrun
  exact (leads_echoed rfl hruns hsilent ⟨fun _ => ⟨rfl, rfl⟩, fun _ ht => absurd ht List.not_mem_nil⟩ hechoes hs hheld).imp
    fun _ _ ht => ht.2

/-! ## The block -/

/-- The tokens ahead, and how many levels of nesting there is room for. -/
structure Facing (tokens : List Token) (room : Nat) (s : State) : Prop where
  calm : s.Calm
  unread : s.unread = tokens
  room : s.depth + room ≤ s.limit

namespace Facing

variable {tokens : List Token} {room : Nat} {s t : State}

theorem skims (h : Facing tokens room s) (ht : Skims [] s t) : Facing tokens room t :=
  ⟨h.calm.skims ht, ht.unread.symm.trans h.unread, by rw [ht.kept.depth, ht.limit]; exact h.room⟩

theorem pushed (h : Facing tokens room s) (label : Option Kind) : Facing tokens room (s.pushed label) := by
  obtain ⟨⟨⟨hseparating, hfuel, hexhausted⟩, hsaid⟩, hunread, hroom⟩ := h
  rw [State.pushed, State.drain_eq]
  exact ⟨⟨⟨hseparating, hfuel, hexhausted⟩, hsaid⟩, hunread, hroom⟩

theorem deeper (h : Facing tokens (room + 1) s) : Facing tokens room s.deeper := by
  obtain ⟨⟨⟨hseparating, hfuel, hexhausted⟩, hsaid⟩, hunread, hroom⟩ := h
  refine ⟨⟨⟨hseparating, hfuel, hexhausted⟩, hsaid⟩, hunread, ?_⟩
  show s.depth + 1 + room ≤ s.limit
  omega

/-- A look where the next token is no trivia. -/
theorem looked {x : Token} {rest : List Token} (h : Facing (x :: rest) room s) (hx : x.kind.isTrivia = false) :
    Skims [] s s.looked ∧ Facing (x :: rest) room s.looked ∧ s.looked.nextKind = x.kind := by
  obtain ⟨hlooked, hunread⟩ := Skims.looked_of_cons h.calm.toLive h.unread hx
  exact ⟨hlooked, h.skims hlooked, by simp only [State.nextKind, hunread]⟩

end Facing

/-- Between the two states one node was read, of the kind `K` and with children that satisfy `P`, and nothing comes after it. -/
structure Sole (K : Kind) (P : List Tree → Prop) (s : State) (k : Kind) (t : State) : Prop where
  kind : k = K
  unread : t.unread = []
  lays : ∃ cs, Lays [.node K cs] s t ∧ P cs

namespace Sole

variable {K : Kind} {P : List Tree → Prop} {s t u : State} {k : Kind}

theorem of_skims (h : Sole K P t k u) (hst : Skims [] s t) : Sole K P s k u := by
  obtain ⟨hkind, hunread, cs, hlays, hcs⟩ := h
  exact ⟨hkind, hunread, cs, by simpa using hst.lays.trans hlays, hcs⟩

theorem kept (h : Sole K P s k t) : Kept s t := by
  obtain ⟨-, -, cs, hlays, -⟩ := h
  exact hlays.kept

theorem joined (h : Sole K P (s.pushed none) k t) : Sole K P s k (s.joined t) := by
  obtain ⟨hkind, hunread, cs, hlays, hcs⟩ := h
  exact ⟨hkind, hunread, cs, hlays.joined, hcs⟩

theorem shallower (h : Sole K P s.deeper k t) : Sole K P s k t.shallower := by
  obtain ⟨hkind, hunread, cs, hlays, hcs⟩ := h
  exact ⟨hkind, hunread, cs, hlays.shallower, hcs⟩

/-- At the end of the input a look makes no difference. -/
theorem looked (h : Sole K P s k t) (hs : s.Live) : Sole K P s k t.looked ∧ t.looked.nextKind = .error := by
  obtain ⟨hkind, hunread, cs, hlays, hcs⟩ := h
  have hskims := Skims.looked (hlays.live hs)
  rw [hunread, List.takeWhile_nil] at hskims
  have hunread' : t.looked.unread = [] := hskims.unread.symm.trans hunread
  exact ⟨⟨hkind, hunread', cs, by simpa using hlays.trans hskims.lays, hcs⟩, by simp only [State.nextKind, hunread']⟩

end Sole

/-- Closing what comes next. -/
theorem leads_close {s : State} {x : Token} {rest : List Token} (hs : s.Live) (hunread : s.unread = x :: rest)
    (hsolid : x.kind.isTrivia = false) :
    Leads (close x.kind) s fun _ t => ∃ u, Skims [x] s u ∧ u.held = [] ∧ u.unread = rest ∧
      t = { u with delimiters := u.delimiters.drop 1 } := by
  obtain ⟨hlooked, hunread'⟩ := Skims.looked_of_cons hs hunread hsolid
  have hkind : (s.looked.nextKind == x.kind) = true := by simp only [State.nextKind, hunread', beq_self_eq_true]
  unfold close
  rw [eat_bind]
  refine .peek ?_
  rw [if_pos hkind]
  have hconsumed := hlooked.trans (.consumed (hlooked.live hs) hunread')
  exact .act (State.perform_advance hunread') (.single (a := ()) rfl ⟨s.looked.consumed x rest, hconsumed, rfl, rfl, rfl⟩)

/-- A node that begins with an opening bracket. With what comes after it the bracket is closed, and nothing is left. -/
theorem leads_bracketed {room : Nat} {s : State} {o : Token} {after : List Token} {K : Kind} {P : List Tree → Prop} {x : Routine Kind}
    (h : Facing (o :: after) room s) (ho : Solid o.kind)
    (hx : ∀ d : State, Facing after room d → d.held = [] → d.depth = s.depth → (∃ before, d.top.built = o.leaf :: before) →
      Leads x d fun k t => ∃ row u, Lays row d u ∧ u.held = [] ∧ u.unread = [] ∧ k = K ∧ t = { u with delimiters := u.delimiters.drop 1 } ∧
        P (o.leaf :: row)) :
    Leads (node K (act (.pushDelimiter o.kind) >>= fun _ => advance >>= fun _ => x)) s (Sole K P s) := by
  have h₁ := h.pushed (some K)
  refine .node ?_
  generalize hb : s.pushed (some K) = b at h₁ ⊢
  have hready : b.skip = b := State.skip_of_ready (ready_of_solid h₁.unread ho)
  refine .act (b := ()) (t := { b with delimiters := ⟨o.kind, b.here⟩ :: b.delimiters }) (by rw [Action.perform, hready]) ?_
  generalize hc : { b with delimiters := ⟨o.kind, b.here⟩ :: b.delimiters } = c
  have h₂ : Facing (o :: after) room c := by
    rw [← hc]
    exact ⟨⟨⟨h₁.calm.separating, h₁.calm.fuel, h₁.calm.exhausted⟩, h₁.calm.said⟩, h₁.unread, h₁.room⟩
  have hopened := Skims.consumed h₂.calm.toLive h₂.unread
  have hdepth : (c.consumed o after).depth = s.depth := by
    rw [hopened.kept.depth, ← hc, ← hb]
    show (s.pushed (some K)).depth = s.depth
    rw [State.pushed, State.drain_eq]
  have hroom : (c.consumed o after).depth + room ≤ (c.consumed o after).limit := by
    rw [hopened.kept.depth, hopened.limit]
    exact h₂.room
  refine .act (State.perform_advance h₂.unread) ?_
  refine (hx _ ⟨h₂.calm.skims hopened, rfl, hroom⟩ rfl hdepth ⟨_, rfl⟩).imp ?_
  rintro k t ⟨row, u, hrow, hheld, hnil, rfl, rfl, hP⟩
  have hwhole := hopened.lays.trans hrow
  rw [← hc] at hwhole
  have hinside := hwhole.undelimited
  subst hb
  exact ⟨hinside.kept, rfl, hnil, _, hinside.closed hheld, hP⟩

/-- A brace, blanks and a newline, and then statements with the closing brace after them. -/
theorem leads_block {room : Nat} {s w : State} {brace newline x : Token} {gap after tokens : List Token}
    (h : Facing (brace :: (gap ++ newline :: after)) room s) (hbrace : brace.kind = .braceOpen)
    (hgap : ∀ t ∈ gap, t.kind.isTrivia = true) (hnewline : newline.kind = .newline)
    (hafter : after.map Token.core = tokens.map Token.core)
    (hw : Gives (rule (.statements (some .braceClose))) (opened tokens room none) (.ok ((), w))) (hsilent : w.Silent)
    (hend : w.unread = [x]) (hx : x.kind = .braceClose) :
    Leads block s (Sole .block (fun cs => Tree.statementsOf cs = Tree.statementsOf w.laid) s) := by
  have hsolid : Solid brace.kind ∧ newline.kind.isTrivia = false := by
    rw [hbrace, hnewline]
    decide
  obtain ⟨hlooked, h₀, hkind⟩ := h.looked hsolid.1.1
  refine .peekIs ?_
  rw [hkind, hbrace]
  refine (hbrace ▸ leads_bracketed h₀ hsolid.1 fun d hd _ _ _ => ?_).imp fun _ _ ht => ht.of_skims hlooked
  -- the newline
  obtain ⟨hblanks, hunread⟩ := Skims.looked_blanks hd.calm.toLive hd.unread hgap hsolid.2
  have hnext := hblanks.trans (.consumed (hblanks.live hd.calm.toLive) hunread)
  have hcalm := hd.calm.skims hnext
  have hroom : (d.looked.consumed newline after).depth + room ≤ (d.looked.consumed newline after).limit := by
    rw [hnext.kept.depth, hnext.limit]
    exact hd.room
  have hstatements := leads_closed hw hsilent hcalm rfl hafter hroom ⟨_, _, _, rfl⟩
  refine .bind (.separating hd.calm.separating (.behind_newline hd.calm.toLive hd.unread hgap hnewline (hstatements.imp ?_)))
  rintro _ t ⟨hlays, hcore⟩
  have hlive := hlays.live hcalm.toLive
  refine ⟨hlive.separating, ?_⟩
  -- the closing brace
  rw [hend] at hcore
  obtain ⟨y, rest, hunread', hy, hrest⟩ := List.map_eq_cons_iff.mp hcore
  obtain rfl := List.map_eq_nil_iff.mp hrest
  have hkind' : y.kind = .braceClose := (congrArg Prod.fst hy).trans hx
  refine .bind ((hkind' ▸ leads_close hlive hunread' (by rw [hkind']; rfl)).imp ?_)
  rintro _ z ⟨u, hu, hheld, hnil, rfl⟩
  refine .done ⟨_, u, hnext.lays.trans (hlays.trans hu.lays), hheld, hnil, rfl, rfl, ?_⟩
  rw [← List.singleton_append, show [brace.leaf] = [brace].map Token.leaf from rfl]
  simp only [Tree.statementsOf_append, Tree.statementsOf_leaves, List.append_nil, List.nil_append]

/-! ## The only statement -/

/-- A row of tokens that is read as one block or one group, with children that satisfy `P`, wherever there is room for `room` levels
in it, below the first level. It begins with a token of the kind `o`. -/
structure Enclosed (tokens : List Token) (room : Nat) (o K : Kind) (P : List Tree → Prop) : Prop where
  kinds : (o = .braceOpen ∧ K = .block) ∨ (o = .parenOpen ∧ K = .group)
  opener : ∃ t rest, tokens = t :: rest ∧ t.kind = o
  term : ∀ s, Facing tokens room s → 1 ≤ s.depth → Leads (termFrom o) s (Sole K P s)

/-- A brace that does not open an object opens a block. -/
theorem Enclosed.block {tokens : List Token} {room : Nat} {P : List Tree → Prop} (hopener : ∃ t rest, tokens = t :: rest ∧ t.kind = .braceOpen)
    (hopens : Lookahead.opensObject.holds tokens = false) (h : ∀ s, Facing tokens room s → Leads Parser.block s (Sole .block P s)) :
    Enclosed tokens room .braceOpen .block P := by
  refine ⟨.inl ⟨rfl, rfl⟩, hopener, fun s hs _ => ?_⟩
  obtain ⟨t, rest, rfl, ht⟩ := hopener
  obtain ⟨hlooked, hs', hkind⟩ := hs.looked (by rw [ht]; rfl)
  show Leads objectOrBlock s _
  unfold objectOrBlock
  rw [require_bind]
  refine .peek ?_
  rw [if_pos (hkind.trans ht)]
  refine .act (b := false) (t := s.looked) (by rw [Action.perform, hs'.unread, hopens]) ?_
  exact (h _ hs').imp fun _ _ ht => ht.of_skims hlooked

namespace Enclosed

variable {tokens : List Token} {room : Nat} {o K : Kind} {P : List Tree → Prop} {s : State} {source : Text} {checkPatterns : Bool}

/-- A look finds the opening bracket. -/
theorem looked (h : Enclosed tokens room o K P) {m : Nat} (hs : Facing tokens m s) :
    Skims [] s s.looked ∧ Facing tokens m s.looked ∧ s.looked.nextKind = o := by
  obtain ⟨t, rest, rfl, rfl⟩ := h.opener
  refine hs.looked ?_
  rcases h.kinds with ⟨ho, -⟩ | ⟨ho, -⟩ <;> rw [ho] <;> rfl

/-- No newline is passed before the bracket. -/
theorem newlines (h : Enclosed tokens room o K P) {m : Nat} (hs : Facing tokens m s) {β : Type} {f : Unit → Routine β}
    {Q : β → State → Prop} (hf : Leads (f ()) s.looked Q) : Leads (Parser.newlines >>= f) s Q := by
  refine .newlines_of_ne ?_ hf
  rw [(h.looked hs).2.2]
  rcases h.kinds with ⟨rfl, -⟩ | ⟨rfl, -⟩ <;> decide

/-- No path follows at the end of the input. -/
theorem continuePath (h : Enclosed tokens room o K P) {k : Kind} {t : State} (hs : s.Live) (ht : Sole K P s k t) :
    Leads (continuePath k) t (Sole K P s) := by
  obtain ⟨hlooked, hkind⟩ := ht.looked hs
  have hroot : canRoot k = true := by
    rw [ht.kind]
    rcases h.kinds with ⟨-, rfl⟩ | ⟨-, rfl⟩ <;> rfl
  unfold Parser.continuePath
  rw [if_pos hroot, atSegment_bind]
  refine .peek ?_
  rw [hkind]
  exact .done (ht.kind ▸ hlooked)

theorem nested (h : Enclosed tokens room o K P) (hs : Facing tokens (room + 1) s) : Leads Parser.term s (Sole K P s) := by
  rw [term_eq]
  refine .nested hs.calm.overflowed (by have := hs.room; omega) (.marked ?_)
  have hs' := hs.deeper.pushed none
  obtain ⟨hlooked, hs'', hkind⟩ := h.looked hs'
  refine .peek ?_
  rw [hkind]
  have hdepth : 1 ≤ (s.deeper.pushed none).looked.depth := by
    rw [hlooked.kept.depth, State.pushed, State.drain_eq]
    exact Nat.le_add_left 1 s.depth
  refine .bind ((h.term _ hs'' hdepth).imp fun k t ht => ?_)
  refine (h.continuePath hs'.calm.toLive (ht.of_skims hlooked)).imp fun k t ht => ⟨ht.kept, ht.joined.shallower⟩

theorem unary (h : Enclosed tokens room o K P) (hs : Facing tokens (room + 1) s) : Leads (rule .unary) s (Sole K P s) := by
  obtain ⟨hlooked, hs', -⟩ := h.looked hs
  obtain ⟨hlooked', hs'', hkind⟩ := h.looked hs'
  have hbang : (o == .bang) = false := by rcases h.kinds with ⟨rfl, -⟩ | ⟨rfl, -⟩ <;> rfl
  refine .rule (h.newlines hs (.peekIs ?_))
  rw [hkind, hbang]
  refine (h.nested hs'').imp fun _ _ ht => (ht.of_skims hlooked').of_skims hlooked

/-- No operator follows at the end of the input. -/
theorem binary (h : Enclosed tokens room o K P) (hs : Facing tokens (room + 1) s) : Leads (rule (.binary 0)) s (Sole K P s) := by
  have hs' := hs.pushed none
  refine .rule (.marked (.bind ((h.unary hs').imp fun k t ht => ?_)))
  obtain ⟨hlooked, hkind⟩ := ht.looked hs'.calm.toLive
  refine .rule (.peek ?_)
  rw [hkind]
  exact .done ⟨hlooked.kept, hlooked.joined⟩

/-- No assignment follows at the end of the input. -/
theorem assignment (h : Enclosed tokens room o K P) (hs : Facing tokens (room + 1) s) : Leads (rule .assignment) s (Sole K P s) := by
  have hs' := hs.pushed none
  obtain ⟨hlooked, hs'', hkind⟩ := h.looked hs'
  have htarget : Leads target (s.pushed none) (Sole K P (s.pushed none)) := by
    have hunderscore : (o == .underscore) = false := by rcases h.kinds with ⟨rfl, -⟩ | ⟨rfl, -⟩ <;> rfl
    refine .peekIs ?_
    rw [hkind, hunderscore]
    exact (h.binary hs'').imp fun _ _ ht => ht.of_skims hlooked
  refine .rule (.marked (.bind (htarget.imp fun k t ht => ?_)))
  obtain ⟨hlooked, hkind⟩ := ht.looked hs'.calm.toLive
  have hnoop : k ≠ .noop := by
    rw [ht.kind]
    rcases h.kinds with ⟨-, rfl⟩ | ⟨-, rfl⟩ <;> decide
  refine .peek ?_
  rw [hkind]
  show Leads (if k = .noop then _ else _) _ _
  rw [if_neg hnoop]
  exact .done ⟨hlooked.kept, hlooked.joined⟩

theorem statement (h : Enclosed tokens room o K P) (hs : Facing tokens (room + 2) s) : Leads (rule .statement) s (Sole K P s) := by
  obtain ⟨hlooked, hs', hkind⟩ := h.looked hs.deeper
  have hassignment := (h.assignment hs').imp fun _ _ ht => (ht.of_skims hlooked).shallower
  refine .rule (.nested hs.calm.overflowed (by have := hs.room; omega) (.peek ?_))
  rw [hkind]
  rcases h.kinds with ⟨rfl, -⟩ | ⟨rfl, -⟩ <;> exact hassignment

/-- The term is all there is of the program. -/
theorem leads (h : Enclosed tokens room o K P) :
    Leads programStatements (opened tokens (room + 2) none) fun _ t => ∃ cs, Lays [.node K cs] (opened tokens (room + 2) none) t ∧ P cs := by
  have hs : Facing tokens (room + 2) (opened tokens (room + 2) none) :=
    ⟨⟨⟨rfl, rfl, rfl⟩, rfl⟩, rfl, by rw [show (opened tokens (room + 2) none).depth = 0 from rfl, Nat.zero_add]; rfl⟩
  obtain ⟨hlooked, hs', -⟩ := h.looked hs
  obtain ⟨hlooked', hs'', hkind⟩ := h.looked hs'
  obtain ⟨t, rest, htokens, -⟩ := h.opener
  have hstopped : Action.stopped.perform (opened tokens (room + 2) none).looked = .ok (false, (opened tokens (room + 2) none).looked) := by
    have hlive : tokens.isEmpty = false := by rw [htokens]; rfl
    rw [Action.perform, hs'.unread, hlive, hs'.calm.exhausted]
    rfl
  have hend {u : State} (hu : u.unread = []) : Action.stopped.perform u = .ok (true, u) := by rw [Action.perform, hu]; rfl
  have hall : Leads (rule .statement >>= fun _ => afterStatement none) (opened tokens (room + 2) none).looked.looked fun _ t =>
      ∃ cs, Lays [.node K cs] (opened tokens (room + 2) none) t ∧ P cs := by
    refine .bind ((h.statement hs'').imp fun k t ht => ?_)
    have hsole := (ht.of_skims hlooked').of_skims hlooked
    obtain ⟨hlooked'', hnone⟩ := hsole.looked hs.calm.toLive
    refine .act (hend hsole.unread) ?_
    suffices hgoal : Leads (Parser.newlines >>= fun _ => atStatement none) t _ from hgoal.of_gives fun r hr => statements_iff.mpr hr
    exact .newlines_of_ne (by rw [hnone]; decide) (.act (hend hlooked''.unread) (.done hlooked''.lays))
  suffices hgoal : Leads (Parser.newlines >>= fun _ => atStatement none) (opened tokens (room + 2) none) _ from
    hgoal.of_gives fun r hr => statements_iff.mpr hr
  refine h.newlines hs (.act hstopped (.peek ?_))
  rw [hkind]
  rcases h.kinds with ⟨rfl, -⟩ | ⟨rfl, -⟩ <;> exact hall

/-- So is a source with these tokens. -/
theorem parse (h : Enclosed (scan source checkPatterns).tokens room o K P) (hscan : (scan source checkPatterns).diagnostics = []) :
    ∃ r n cs, Remap.parse { limit := room + 2, checkPatterns } source = .ok r ∧ r.diagnostics = [] ∧ r.statements = [n] ∧
      n.tree = .node K cs ∧ n.height ≤ r.tree.height ∧ P cs := by
  rcases h.leads with hstuck | ⟨_, t, hgives, cs, hlays, hcs⟩
  · exact absurd hstuck (not_gives_statements_stuck _ _ _)
  have hexpr : K.isExpr = true := by rcases h.kinds with ⟨-, rfl⟩ | ⟨-, rfl⟩ <;> rfl
  have hlaid : Tree.statementsOf t.laid = [.node K cs] := by
    rw [hlays.laid]
    exact List.filter_cons_of_pos hexpr
  rw [State.laid, Tree.statementsOf_append, Tree.statementsOf_leaves, List.append_nil, Tree.statementsOf_reverse] at hlaid
  obtain ⟨n, hone, hnode⟩ : ∃ n, (Node.mk 0 (resultOf t).tree).exprs = [n] ∧ n.tree = .node K cs :=
    List.map_eq_singleton_iff.mp ((Node.statementsOf_children _).trans ((statementsOf_resultOf t).trans hlaid))
  have hheight : n.height ≤ (resultOf t).tree.height :=
    Nat.le_of_lt (Node.height_of_mem_exprs (n := ⟨0, (resultOf t).tree⟩) (hone ▸ List.mem_singleton_self _))
  refine ⟨_, n, cs, parse_of_statements hgives, ?_, hone, hnode, hheight, hcs⟩
  have hreports : t.reports = [] := congrArg Prod.fst hlays.said
  show ((scan source checkPatterns).diagnostics ++ t.reports.reverse).sortByPosition.locate _ = []
  rw [hscan, hreports]
  simp [Diagnostics.sortByPosition, Diagnostics.locate]

end Enclosed

end Remap.Parser
