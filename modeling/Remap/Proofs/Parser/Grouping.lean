import Remap.Proofs.Parser.Leading
import Remap.Proofs.Parser.OneLine
import Remap.Proofs.Parser.Onset
import Remap.Proofs.Token.Parenthesised

/-!
# Reading an expression in parentheses

An expression on one line that is read silently as the only statement of a program is read the same way between parentheses.
There it is followed by the closing parenthesis, not by the end of the input; its first token touches what is before it; it stands
one level deeper, after the opening parenthesis and with that delimiter open (`leads_assignment`); and newlines would not separate
statements, which makes no difference where there are none.
-/

namespace Remap

namespace Parser

variable {α : Type}

/-- What comes after a row of tokens in parentheses. -/
def closing {x : Token} (hx : x.kind = .parenClose) : Seam .parenClose where
  tail := []
  gap := []
  next := [x]
  tail_trivia _ ht := absurd ht List.not_mem_nil
  gap_trivia _ ht := absurd ht List.not_mem_nil
  next_kind := hx
  stops := .inr (.inl rfl)

/-- Nothing was built and nothing was reported yet: `tokens` are the whole program, and so many levels of nesting were entered. -/
structure Lone (tokens : List Token) (limit depth : Nat) (s : State) : Prop where
  calm : s.Calm
  unread : s.unread = tokens
  held : s.held = []
  label : s.top.label ≠ none
  built : s.top.built = []
  below : leavesOfFrames s.below = []
  delimiters : s.delimiters = []
  depth : s.depth = depth
  limit : s.limit = limit

namespace Lone

variable {tokens : List Token} {limit depth : Nat} {s : State}

theorem opened (tokens : List Token) (limit : Nat) : Lone tokens limit 0 (opened tokens limit none) :=
  ⟨⟨⟨rfl, rfl, rfl⟩, rfl⟩, rfl, rfl, Option.some_ne_none _, rfl, rfl, rfl, rfl, rfl⟩

theorem steady (h : Lone tokens limit depth s) : s.Steady := h.calm.steady h.held

theorem row (h : Lone tokens limit depth s) : s.row = [] := by
  rw [State.row, h.built]
  rfl

theorem leaves (h : Lone tokens limit depth s) : s.leaves = tokens.map Token.piece := by
  simp only [State.leaves, leavesOfFrames, Frame.leaves, h.below, h.built, h.held, h.unread]
  rfl

theorem fit (h : Lone tokens limit depth s) (htidy : Tidy false tokens) : s.Fit :=
  ⟨⟨false, h.unread ▸ htidy⟩, fun _ ht => absurd (h.row ▸ ht) List.not_mem_nil⟩

theorem deeper (h : Lone tokens limit depth s) : Lone tokens limit (depth + 1) s.deeper := by
  obtain ⟨⟨⟨hseparating, hfuel, hexhausted⟩, hsaid⟩, hunread, hheld, hlabel, hbuilt, hbelow, hdelimiters, rfl, hlimit⟩ := h
  exact ⟨⟨⟨hseparating, hfuel, hexhausted⟩, hsaid⟩, hunread, hheld, hlabel, hbuilt, hbelow, hdelimiters, rfl, hlimit⟩

/-- A look at a token that is no blank. -/
theorem looked {t₀ : Token} {rest : List Token} (h : Lone (t₀ :: rest) limit depth s) (ht : Solid t₀.kind) :
    Lone (t₀ :: rest) limit depth s.looked ∧ s.looked.nextKind = t₀.kind := by
  obtain ⟨⟨⟨hseparating, hfuel, hexhausted⟩, hsaid⟩, hunread, hheld, hlabel, hbuilt, hbelow, hdelimiters, hdepth, hlimit⟩ := h
  rw [State.looked, State.skip_of_ready (ready_of_solid hunread ht)]
  refine ⟨⟨⟨⟨hseparating, hfuel, hexhausted⟩, hsaid⟩, hunread, hheld, hlabel, hbuilt, hbelow, hdelimiters, hdepth, hlimit⟩, ?_⟩
  simp only [State.nextKind, hunread]

end Lone

/-- An expression that was read by itself is read the same way in front of a closing parenthesis, one level deeper. -/
theorem leads_assignment {n limit : Nat} {t₀ x : Token} {rest : List Token} {a w c : State} {k : Kind} (ha : Lone (t₀ :: rest) limit 1 a)
    (hrun : (rule .assignment).run (runRule n) a = .ok (k, w)) (hsilent : w.Silent) (hend : w.unread = []) (hx : x.kind = .parenClose)
    (hfronts : Fronts (closing hx) (t₀ :: rest)) (hsolid : Solid t₀.kind) (hc : c.Calm) (hheld : c.held = [])
    (hunread : c.unread.map Token.core = (t₀.touching :: (rest ++ [x])).map Token.core) (hdepth : 1 ≤ c.depth)
    (hroom : c.depth + limit ≤ c.limit + 1) (hleaf : ∃ k text before, c.top.built = .leaf k text :: before) :
    Leads (rule .assignment) c fun _ t => Lays w.laid c t ∧ t.unread.map Token.core = [x].map Token.core := by
  have hsteady := ha.steady
  -- with the closing parenthesis after it
  have hpoised : Poised (closing hx) t₀.kind a (a.reading (t₀ :: rest ++ (closing hx).rest) a.held) :=
    ⟨ha.calm.separating, ⟨t₀ :: rest, hfronts, ha.unread.trans (List.append_nil _).symm, rfl⟩, t₀, rest, ha.unread, rfl, hsolid.1⟩
  obtain ⟨w₁, hrun₁, hw₁⟩ := (spine (closing hx) n).assignment t₀.kind _ _ hpoised hsteady k w hrun hsilent
  obtain rfl : w₁ = w.reading [x] w.held := by
    rcases hw₁.reading with ⟨front, -, hfront, rfl⟩ | ⟨-, held, htail, rfl⟩
    · rw [hend, show (closing hx).tail = [] from rfl, List.append_nil] at hfront
      rw [← hfront]
      rfl
    · rw [htail]
      rfl
  -- after a token that it touches
  have hsteady₁ : (a.reading (t₀ :: rest ++ (closing hx).rest) a.held).Steady := ⟨hsteady.calm, hsteady.held⟩
  have hsilent₁ : (w.reading [x] w.held).Silent := ⟨hsilent.reports, hsilent.fuelled⟩
  obtain ⟨w₂, hrun₂, rfl⟩ := onset_assignment (k := t₀.kind) (a.reading (t₀ :: rest ++ (closing hx).rest) a.held)
    { a with unread := t₀.touching :: (rest ++ [x]) } ⟨t₀, rest ++ [x], true, rfl, rfl, hsolid, rfl⟩ hsteady₁ k _ hrun₁ hsilent₁
  -- after other trees
  obtain ⟨K, text, before, hbuilt⟩ := hleaf
  have hechoes : Echoes .whole c.top.built (State.atop { a with unread := t₀.touching :: (rest ++ [x]) } c.delimiters) c :=
    { unread := hunread
      held := by rw [hheld]; exact congrArg _ ha.held.symm
      label := fun hnil => by cases hnil.symm.trans hbuilt
      built := by
        show _ = Tree.seenOf _ (a.top.built ++ c.top.built)
        rw [ha.built, List.nil_append]
      labelled := fun _ => ha.label
      leaf := fun t ht => by
        rw [hbuilt] at ht
        cases ht
        exact ⟨K, text, rfl⟩
      delimiters := by
        show _ = (a.delimiters ++ c.delimiters).length
        rw [ha.delimiters, List.nil_append]
      separating := hc.separating.trans ha.calm.separating.symm
      depth := by
        show a.depth ≤ c.depth
        rw [ha.depth]
        exact hdepth
      room := by
        show c.depth + a.limit ≤ a.depth + c.limit
        rw [ha.depth, ha.limit]
        omega
      overflowed := hc.overflowed.trans ha.calm.overflowed.symm
      fuel := hc.fuel.trans ha.calm.fuel.symm
      exhausted := hc.exhausted.trans ha.calm.exhausted.symm }
  have hsteady₂ : State.Steady { a with unread := t₀.touching :: (rest ++ [x]) } := ⟨hsteady.calm, hsteady.held⟩
  exact (leads_echoed rfl hrun₂ hsilent₁ hsteady₂ hechoes hc hheld).imp fun _ _ ht => ht.2

/-- Where newlines need not separate statements because there are none, it is the same not to let them. -/
theorem Leads.unseparated {body : Routine α} {s : State} {P : α → State → Prop} (hs : s.separating = true) (hline : s.OneLine)
    (hblind : ∀ n, Blind n body) (h : Leads body s fun a t => t.separating = true ∧ P a t) : Leads (Parser.separating false body) s P := by
  have hrun (n : Nat) : (Parser.separating false body).run (runRule n) s = (body.run (runRule n) s).map fun r => (r.1, r.2.parted true) := by
    rw [run_separating, hblind n s false hline, hs]
    cases body.run (runRule n) s <;> rfl
  rcases h with hstuck | ⟨a, t, hgives, ht, ha⟩
  · obtain ⟨-, n, hstuck⟩ := hstuck
    exact .inl (.of_stuck (n := n) (by rw [hrun, hstuck]; rfl))
  · obtain ⟨-, n, hgives⟩ := hgives
    refine .inr ⟨a, t, .of_run (n := n) ?_, ha⟩
    rw [hrun, hgives, ← ht]
    rfl

/-- A parenthesis, an expression, and the parenthesis that closes it. -/
theorem leads_group {room : Nat} {s : State} {o x : Token} {ts : List Token} {row : List Tree} (h : Facing (o :: (ts ++ [x])) room s)
    (hdepth : 1 ≤ s.depth) (ho : o.kind = .parenOpen) (hx : x.kind = .parenClose) (hline : ∀ t ∈ ts, t.kind ≠ .newline)
    (hfirst : ∃ t rest, ts = t :: rest ∧ t.kind.isTrivia = false ∧
      (KindSet.arithmeticFirst.contains t.kind || t.kind = .underscore) = true)
    (hrow : ∀ c : State, Facing (ts ++ [x]) room c → c.held = [] → 1 ≤ c.depth → (∃ k text before, c.top.built = .leaf k text :: before) →
      Leads (rule .assignment) c fun _ t => Lays row c t ∧ t.unread.map Token.core = [x].map Token.core) :
    Leads group s (Sole .group (fun cs => Tree.statementsOf cs = Tree.statementsOf row) s) := by
  unfold group
  refine ho ▸ leads_bracketed h (by rw [ho]; decide) fun d hd hheld hlevel hbuilt => ?_
  obtain ⟨t, rest, rfl, htrivia, hfirst⟩ := hfirst
  obtain ⟨hlooked, hd', hkind⟩ := hd.looked htrivia
  have hline' : d.OneLine := by
    intro y hy
    rw [hd.unread] at hy
    rcases List.mem_append.mp hy with hy | hy
    · exact hline y hy
    · rw [List.mem_singleton.mp hy, hx]
      decide
  refine .bind (.unseparated hd.calm.separating hline' (fun n => ?_) (.peek ?_))
  · have u := (uniform_blind n).toGrammarClosed
    exact u.bind (u.simple rfl) fun k => closed_ite (J := fun {_} y => Blind n y) (u.bind (u.rule _) fun _ => closed_close u.toParts _)
      (u.bind (closed_reportFound u.toParts rfl _) fun _ => closed_close u.toParts _)
  rw [hkind, if_pos hfirst]
  have hskip : d.skip = d := State.skip_of_ready (ready_of_solid hd.unread ⟨htrivia, hline t List.mem_cons_self⟩)
  have hheld' : d.looked.held = [] := by rw [State.looked, hskip, hheld]
  have hlevel' : 1 ≤ d.looked.depth := by rwa [hlooked.kept.depth, hlevel]
  have hbuilt' : ∃ k text before, d.looked.top.built = .leaf k text :: before := by
    obtain ⟨before, hbuilt⟩ := hbuilt
    exact ⟨o.kind, o.text, before, by rw [State.looked, hskip, hbuilt]; rfl⟩
  refine .bind ((hrow _ hd' hheld' hlevel' hbuilt').imp ?_)
  rintro k u ⟨hlays, hcore⟩
  have hlive := hlays.live hd'.calm.toLive
  -- the closing parenthesis
  obtain ⟨y, after, hunread, hy, hafter⟩ := List.map_eq_cons_iff.mp hcore
  obtain rfl := List.map_eq_nil_iff.mp hafter
  have hkind' : y.kind = .parenClose := (congrArg Prod.fst hy).trans hx
  refine (hkind' ▸ leads_close hlive hunread (by rw [hkind']; rfl)).imp ?_
  rintro _ z ⟨v, hv, hheld'', hnil, rfl⟩
  refine ⟨(hv.live hlive).separating, .done ⟨_, v, hlooked.lays.trans (hlays.trans hv.lays), hheld'', hnil, rfl, rfl, ?_⟩⟩
  rw [← List.singleton_append, show [o.leaf] = [o].map Token.leaf from rfl]
  simp only [Tree.statementsOf_append, Tree.statementsOf_leaves, List.append_nil, List.nil_append]

/-- In parentheses the expression is the one child of a group. -/
theorem Enclosed.group {n room : Nat} {t₀ o x : Token} {rest ts : List Token} {a w : State} {k : Kind}
    (ha : Lone (t₀ :: rest) (room + 1) 1 a) (hrun : (rule .assignment).run (runRule n) a = .ok (k, w)) (hsilent : w.Silent)
    (hend : w.unread = []) (ho : o.kind = .parenOpen) (hx : x.kind = .parenClose) (hfronts : Fronts (closing hx) (t₀ :: rest))
    (hsolid : Solid t₀.kind) (hfirst : (KindSet.arithmeticFirst.contains t₀.kind || t₀.kind = .underscore) = true)
    (hline : ∀ t ∈ t₀ :: rest, t.kind ≠ .newline) (hcore : ts.map Token.core = (t₀.touching :: rest).map Token.core) :
    Enclosed (o :: (ts ++ [x])) room .parenOpen .group fun cs => Tree.statementsOf cs = Tree.statementsOf w.laid := by
  obtain ⟨y, ys, rfl, hy, hys⟩ := List.map_eq_cons_iff.mp hcore
  have hkind : y.kind = t₀.kind := congrArg Prod.fst hy
  have hline' : ∀ t ∈ y :: ys, t.kind ≠ .newline := by
    intro t ht
    obtain ⟨t', ht', heq⟩ := List.mem_map.mp (hcore ▸ List.mem_map_of_mem (f := Token.core) ht)
    rw [← show t'.kind = t.kind from congrArg Prod.fst heq]
    rcases List.mem_cons.mp ht' with rfl | ht'
    · exact hsolid.2
    · exact hline t' (List.mem_cons_of_mem _ ht')
  refine ⟨.inr ⟨rfl, rfl⟩, ⟨o, _, rfl, ho⟩, fun s hs hdepth => ?_⟩
  refine leads_group hs hdepth ho hx hline' ⟨y, ys, rfl, hkind ▸ hsolid.1, hkind ▸ hfirst⟩ fun c hc hheld hdepth' hleaf => ?_
  have hcore' : c.unread.map Token.core = (t₀.touching :: (rest ++ [x])).map Token.core := by
    rw [hc.unread, List.map_append, hcore, ← List.map_append]
    rfl
  exact leads_assignment ha hrun hsilent hend hx hfronts hsolid hc.calm hheld hcore' hdepth' (by have := hc.room; omega) hleaf

/-! ## The expression by itself -/

end Parser

end Remap
