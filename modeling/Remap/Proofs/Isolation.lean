import Remap.Proofs.Concatenation
import Remap.Proofs.Parser.Skipping

/-!
# A bad line is isolated

A line that no statement can begin with stands between two programs without diagnostics. If the brackets on it are balanced,
it costs one diagnostic and nothing else: its tokens end up in one error node, and the statements before and after it are those
the two programs have by themselves.
-/

namespace Remap

/-! ## Where tokens stand -/

/-- The leaf of a token where the token stands. -/
def Token.asNode (t : Token) : Node := ⟨t.start, t.leaf⟩

/-- The node as it stands further to the right. -/
def Node.shifted (offset : Nat) (n : Node) : Node := ⟨offset + n.start, n.tree⟩

theorem Node.placeAll_add (offset start : Nat) (ts : List Tree) : placeAll (offset + start) ts = (placeAll start ts).map (shifted offset) := by
  induction ts generalizing start with
  | nil => rfl
  | cons t ts ih => simp only [placeAll, List.map_cons, Nat.add_assoc, ih, shifted]

/-- A row of tokens that stand one after the other from an offset on. -/
def Token.StandAt (offset : Nat) (ts : List Token) : Prop := ts.map Token.asNode = Node.placeAll offset (ts.map Token.leaf)

namespace Token.StandAt

variable {offset : Nat} {ts us : List Token}

theorem place (offset : Nat) (previous : Option Kind) (ps : List (Kind × Text)) : StandAt offset (Token.place offset previous ps) := by
  unfold StandAt
  induction ps generalizing offset previous with
  | nil => rfl
  | cons p ps ih =>
    simp only [Token.place, List.map_cons, Node.placeAll, ih]
    rfl

theorem append : StandAt offset (ts ++ us) ↔ StandAt offset ts ∧ StandAt (offset + Parser.State.sizeOfTokens ts) us := by
  unfold StandAt
  rw [List.map_append, List.map_append, Node.placeAll_append]
  refine ⟨fun h => ?_, fun ⟨hts, hus⟩ => ?_⟩
  · have hlength := congrArg List.length (Node.map_tree_placeAll offset (ts.map Token.leaf))
    rw [List.length_map, List.length_map] at hlength
    exact List.append_inj h (by rw [List.length_map, hlength])
  · rw [hts, hus]
    rfl

/-- Tokens that differ in where they stand only are the same tokens further to the right. -/
theorem shifted (h : StandAt offset ts) (h' : StandAt 0 us) (hcore : ts.map Token.core = us.map Token.core) :
    ts.map Token.asNode = (us.map Token.asNode).map (Node.shifted offset) := by
  rw [h, h', Parser.map_leaf hcore, ← Node.placeAll_add]
  rfl

end Token.StandAt

/-- The tokens in a row that are no trivia. -/
def Token.solids (ts : List Token) : List Token := ts.filter (!·.kind.isTrivia)

theorem Token.solids_append (ts us : List Token) : solids (ts ++ us) = solids ts ++ solids us := List.filter_append ..

theorem Token.solids_eq_nil {ts : List Token} (h : ∀ t ∈ ts, t.kind.isTrivia = true) : solids ts = [] :=
  List.filter_eq_nil_iff.mpr (by simpa using h)

/-- The nodes of those among the nodes of all. -/
theorem Token.filter_asNode (ts : List Token) : (ts.map asNode).filter (!·.kind.isTrivia) = (solids ts).map asNode := by
  rw [List.filter_map]
  rfl

/-- Tokens that differ in where they stand only have the same kinds and texts. -/
theorem Token.map_piece_of_core {ts us : List Token} (h : ts.map core = us.map core) : ts.map piece = us.map piece := by
  have hpiece : piece = (fun c : Kind × Text × Bool => (c.1, c.2.1)) ∘ core := rfl
  rw [hpiece, ← List.map_map, ← List.map_map, h]

/-- Tokens that are no trivia, where they stand in another row with other trivia at its end. -/
theorem Token.StandAt.solids_shifted {offset : Nat} {row front tail gap : List Token} (h : StandAt offset row)
    (h' : StandAt 0 (front ++ tail)) (hcore : row.map Token.core = (front ++ gap).map Token.core)
    (htail : ∀ t ∈ tail, t.kind.isTrivia = true) (hgap : ∀ t ∈ gap, t.kind.isTrivia = true) :
    (solids row).map asNode = (solids (front ++ tail)).map fun t => t.asNode.shifted offset := by
  rw [List.map_append] at hcore
  obtain ⟨row, gap', rfl, hrow, hgap'⟩ := List.map_eq_append_iff.mp hcore
  have htrivia : ∀ t ∈ gap', t.kind.isTrivia = true := by
    intro t ht
    obtain ⟨u, hu, hcore⟩ := List.mem_map.mp (hgap' ▸ List.mem_map_of_mem ht)
    have hkind : u.kind = t.kind := congrArg Prod.fst hcore
    exact hkind ▸ hgap u hu
  have hnodes := (append.mp h).1.shifted (append.mp h').1 hrow
  have hfilter (ns : List Node) : (ns.map (Node.shifted offset)).filter (!·.kind.isTrivia) = (ns.filter (!·.kind.isTrivia)).map (Node.shifted offset) := by
    rw [List.filter_map]
    rfl
  rw [solids_append, solids_append, solids_eq_nil htrivia, solids_eq_nil htail, List.append_nil, List.append_nil, ← filter_asNode, hnodes,
    hfilter, filter_asNode, List.map_map]
  rfl

namespace Parser

/-! ## Past the line -/

/-- The line `x :: line` and the newline after it were passed as an error, after some blanks, and reported. -/
def Recovers (blanks : List Token) (x : Token) (line : List Token) (newline : Token) (s u : State) : Prop :=
  ∃ v t, Skims blanks s v ∧ Encloses (x :: line) (v.report (expectedAt x)) t ∧ Skims [newline] t u ∧ u.held = []

namespace Recovers

variable {blanks line : List Token} {x newline : Token} {s u : State}

/-- What was built meanwhile: an error node between blanks, and the newline. -/
theorem laid (h : Recovers blanks x line newline s u) :
    ∃ body after, x :: line = body ++ after ∧ (∀ t ∈ after, t.kind.isTrivia = true) ∧
      u.top.built.reverse = s.laid ++ (blanks.map Token.leaf ++ .node .error (body.map Token.leaf) :: (after ++ [newline]).map Token.leaf) := by
  obtain ⟨v, t, hblanks, hline, hnewline, hheld⟩ := h
  obtain ⟨body, after, hsplit, hafter, hlaid⟩ := hline.laid
  have hreport : (v.report (expectedAt x)).laid = v.laid := by
    rw [State.report_eq]
    rfl
  have hbuilt : u.laid = u.top.built.reverse := by rw [State.laid, hheld, List.map_nil, List.append_nil]
  refine ⟨body, after, hsplit, hafter, ?_⟩
  rw [← hbuilt, hnewline.laid, hlaid, hreport, hblanks.laid]
  simp

theorem kept (h : Recovers blanks x line newline s u) : Kept s u := by
  obtain ⟨v, t, hblanks, hline, hnewline, -⟩ := h
  exact hblanks.kept.trans ((Kept.report v _).trans (hline.kept.trans hnewline.kept))

/-- One diagnostic is new. -/
theorem reports (h : Recovers blanks x line newline s u) (hmutes : s.mutes x.start = false) :
    u.reports = expectedAt x :: s.reports ∧ u.overflowed = s.overflowed := by
  obtain ⟨v, t, hblanks, hline, hnewline, -⟩ := h
  have hsaid : v.said = s.said := hblanks.said
  have hmutes' : v.mutes x.start = false := by
    have hlast : v.lastReport = s.lastReport := congrArg (·.2.1) hsaid
    have hover : v.overflowed = s.overflowed := congrArg (·.2.2) hsaid
    rw [State.mutes, hlast, hover]
    exact hmutes
  have hu : u.said = (v.report (expectedAt x)).said := hnewline.said.trans hline.said
  rw [State.report_eq, State.said, State.said] at hu
  simp only [show v.mutes (expectedAt x).span.start = false from hmutes', Bool.false_eq_true, if_false, Prod.mk.injEq] at hu
  exact ⟨hu.1.trans (congrArg (_ :: ·) (congrArg Prod.fst hsaid)), hu.2.2.trans (congrArg (·.2.2) hsaid)⟩

theorem settings (h : Recovers blanks x line newline s u) : u.limit = s.limit ∧ u.fuel = s.fuel ∧ u.exhausted = s.exhausted := by
  obtain ⟨v, t, hblanks, hline, hnewline, -⟩ := h
  have hreport : (v.report (expectedAt x)).limit = v.limit ∧ (v.report (expectedAt x)).fuel = v.fuel ∧
      (v.report (expectedAt x)).exhausted = v.exhausted := by
    rw [State.report_eq]
    exact ⟨rfl, rfl, rfl⟩
  obtain ⟨hlimit, hfuel, hexhausted⟩ := hreport
  exact ⟨hnewline.limit.trans (hline.limit.trans (hlimit.trans hblanks.limit)),
    hnewline.fuel.trans (hline.fuel.trans (hfuel.trans hblanks.fuel)),
    hnewline.exhausted.trans (hline.exhausted.trans (hexhausted.trans hblanks.exhausted))⟩

/-- What comes after the newline is read as if the line had not been there. -/
theorem echoes {pre : List Tree} {tokens more : List Token} {limit : Nat} {fuel : Option Nat}
    (h : Recovers blanks x line newline s u) (hmutes : s.mutes x.start = false) (hs : Echoes .whole pre (opened tokens limit fuel) s)
    (hmore : u.unread.map Token.core = more.map Token.core) : Echoes .whole u.top.built (opened more limit fuel) u := by
  obtain ⟨hlimit, hfuel, hexhausted⟩ := h.settings
  obtain ⟨body, after, -, -, hlaid⟩ := h.laid
  have hlast : u.top.built.head? = some newline.leaf := by
    rw [← List.getLast?_reverse, hlaid]
    simp only [List.map_append, List.map_cons, List.map_nil, ← List.append_assoc, ← List.cons_append, List.getLast?_concat]
  refine
    { unread := hmore
      held := ?_
      label := fun hnil => ?_
      built := rfl
      labelled := fun _ => Option.some_ne_none _
      leaf := fun t ht => ?_
      delimiters := (congrArg List.length h.kept.delimiters).trans hs.delimiters
      separating := h.kept.separating.trans hs.separating
      depth := hs.depth.trans h.kept.depth.ge
      room := ?_
      overflowed := (h.reports hmutes).2.trans hs.overflowed
      fuel := hfuel.trans hs.fuel
      exhausted := hexhausted.trans hs.exhausted }
  · obtain ⟨-, -, -, -, -, hheld⟩ := h
    rw [hheld]
    rfl
  · rw [hnil] at hlast
    cases hlast
  · rw [hlast] at ht
    cases ht
    exact ⟨_, _, rfl⟩
  · rw [h.kept.depth, hlimit]
    exact hs.room

end Recovers

/-- A line that no statement begins with is passed and reported, and then statements go on behind the newline after it. -/
theorem leads_atStatement {s t : State} {blanks line after : List Token} {x newline : Token} {Q : Unit → State → Prop} (hs : s.Live)
    (hblanks : Skims blanks s t) (hunread : t.unread = x :: (line ++ newline :: after)) (hnewline : newline.kind = .newline)
    (hline : Skippable x line)
    (h : ∀ u, Recovers blanks x line newline s u → u.unread = after → Leads programStatements u Q) : Leads (atStatement none) t Q := by
  have ht := hblanks.live hs
  obtain ⟨hlooked, hunread'⟩ := Skims.looked_of_cons ht hunread hline.solid
  have hkind : t.looked.nextKind = x.kind := by simp only [State.nextKind, hunread']
  refine .act (b := false) (t := t) (by rw [Action.perform, hunread, ht.exhausted]; rfl) (.peek ?_)
  rw [hkind, if_neg (hline.line x List.mem_cons_self).2, if_neg (Bool.eq_false_iff.mp hline.closes),
    if_neg (Bool.eq_false_iff.mp hline.begins)]
  refine .bind (leads_reportFound (hlooked.live ht) hunread' hline.solid (.bind ?_))
  obtain ⟨hlooked', hunread''⟩ := Skims.looked_of_cons (hlooked.live ht) hunread' hline.solid
  have hpassed : Skims blanks s t.looked.looked := by simpa using hblanks.trans (hlooked.trans hlooked')
  have hlive : (t.looked.looked.report (expectedAt x)).Live := by
    obtain ⟨hseparating, hfuel, hexhausted⟩ := hpassed.live hs
    rw [State.report_eq]
    exact ⟨hseparating, hfuel, hexhausted⟩
  have hreported : (t.looked.looked.report (expectedAt x)).unread = x :: (line ++ newline :: after) := by
    rw [State.unread_report]
    exact hunread''
  refine (leads_skipStatement hlive hreported hnewline hline).imp ?_
  rintro _ w ⟨htail, hencloses⟩
  have hw : w.Live :=
    ⟨hencloses.kept.separating.trans hlive.separating, hencloses.fuel.trans hlive.fuel, hencloses.exhausted.trans hlive.exhausted⟩
  have hsolid : newline.kind.isTrivia = false := by rw [hnewline]; rfl
  obtain ⟨hlook, hnext⟩ := Skims.looked_of_cons hw htail hsolid
  have hconsumed := hlook.trans (.consumed (hlook.live hw) hnext)
  have hbehind : w.unread = [] ++ newline :: after := htail
  exact .behind_newline hw hbehind (fun _ ht => absurd ht List.not_mem_nil) hnewline (h _ ⟨_, w, hpassed, hencloses, hconsumed, rfl⟩ rfl)

/-- The run of the joined row has read the first row, and the newline after it. -/
theorem Crossed.reading {front : List Token} {j : Seam .newline} {u v : State} (h : Crossed j u v) (hu : u.Reading (front ++ j.tail)) :
    v.Reading (front ++ j.rest) := by
  obtain ⟨_, ⟨hunread, held, hheld, rfl⟩, rfl⟩ := h
  have hsized : (u.reading j.next (held ++ j.gap)).Sized := hu.sized.of_eq rfl rfl rfl
  refine ⟨⟨front ++ (j.gap ++ [j.stop]), by simp [Seam.rest_eq, State.consumed]⟩, ?_, hsized.consumed⟩
  have hfront : leavesOfFrames (u.top :: u.below) ++ held.map Token.piece = front.map Token.piece := by
    have hleaves := hu.leaves
    rw [State.leaves, hunread, hheld, List.append_nil, List.map_append, List.map_append, ← List.append_assoc] at hleaves
    exact List.append_cancel_right hleaves
  have hrest : (u.reading j.next (held ++ j.gap)).unread = j.stop :: j.after := j.next_eq
  rw [leaves_consumed hrest, List.map_append, ← hfront]
  simp [State.leaves, State.reading, Seam.rest]

/-- Statements, a line that no statement begins with, and more statements. -/
theorem gives_isolated {n m limit : Nat} {front more blanks line after : List Token} {j : Seam .newline} {x newline : Token} {u w : State}
    (hfronts : Fronts j front) (hafter : j.after = blanks ++ x :: (line ++ newline :: after))
    (hblanks : ∀ t ∈ blanks, t.kind.isTrivia = true) (hnewline : newline.kind = .newline) (hline : Skippable x line)
    (hmore : after.map Token.core = more.map Token.core)
    (hrun : programStatements.run (runRule n) (opened (front ++ j.tail) limit none) = .ok ((), u)) (hsilent : u.Silent)
    (hrun' : programStatements.run (runRule m) (opened more limit none) = .ok ((), w)) (hsilent' : w.Silent) :
    ∃ v z w', Crossed j u v ∧ Recovers blanks x line newline v z ∧ z.reports = [expectedAt x] ∧
      Gives programStatements (opened (front ++ j.rest) limit none) (.ok ((), w')) ∧ w'.reports = z.reports ∧
      Echoes .whole z.top.built w w' := by
  rcases crosses_programStatements (fun k (hk : k ∈ (none : Option Kind)) => nomatch hk) n (beside_opened hfronts limit) (steady_opened _ _ _) hrun hsilent with hstuck | ⟨v, hv, hresumes⟩
  · exact absurd hstuck (not_gives_statements_stuck _ _ _)
  have hechoes := hv.echoes hrun hsilent rfl
  have hlive : v.Live := ⟨hechoes.separating, hechoes.fuel, hechoes.exhausted⟩
  have hunread : v.unread = blanks ++ x :: (line ++ newline :: after) := by
    obtain ⟨_, -, rfl⟩ := hv
    exact hafter
  have hmutes : v.mutes x.start = false := by
    have hlast : v.lastReport = none := by
      obtain ⟨_, ⟨-, _, -, rfl⟩, rfl⟩ := hv
      exact (((respected_hushes.run hrun).steady (steady_opened (front ++ j.tail) limit none)).calm hsilent.reports).2
    rw [State.mutes, hechoes.overflowed, hlast]
    rfl
  have hne {s : State} {rest : List Token} (hs : s.unread = x :: rest) : s.nextKind ≠ .newline := by
    simp only [State.nextKind, hs]
    exact (hline.line x List.mem_cons_self).1
  obtain ⟨hlooked, hunread'⟩ := Skims.looked_blanks hlive hunread hblanks hline.solid
  -- the line is met after one look, or after two
  have hstatements {t : State} (ht : Skims blanks v t) (htail : t.unread = x :: (line ++ newline :: after)) :
      Leads (atStatement none) t fun _ w' => ∃ z, Recovers blanks x line newline v z ∧ Repeated .whole z.top.built (opened more limit none) z w w' := by
    refine leads_atStatement hlive ht htail hnewline hline fun z hz htail => ?_
    have hz' : Echoes .whole z.top.built (opened more limit none) z := hz.echoes hmutes hechoes (htail ▸ hmore)
    rcases repeats_rule m (.statements none) _ _ z hz' (steady_opened _ _ _) () w hrun' hsilent' with ⟨w', hw, hrepeated⟩ | hstuck
    · exact .inr ⟨(), w', .of_run hw, z, hz, hrepeated⟩
    · exact .inl (.of_stuck hstuck)
  have hleads : Leads programStatements (opened (front ++ j.rest) limit none) fun _ w' =>
      ∃ z, Recovers blanks x line newline v z ∧ Repeated .whole z.top.built (opened more limit none) z w w' := by
    have hfrom {t : State} (ht : Skims blanks v t.looked) (htail : t.looked.unread = x :: (line ++ newline :: after)) :=
      (Leads.newlines_of_ne (f := fun _ => atStatement none) (hne htail) (hstatements ht htail)).of_gives fun r hr => statements_iff.mpr hr
    rcases hresumes with hgives | hgives
    · exact (hfrom hlooked hunread').of_gives hgives
    · obtain ⟨hagain, hunread''⟩ := Skims.looked_of_cons (hlooked.live hlive) hunread' hline.solid
      have hlooked' : Skims blanks v v.looked.looked := by simpa using hlooked.trans hagain
      exact (Leads.newlines_of_ne (f := fun _ => programStatements) (hne hunread') (hfrom hlooked' hunread'')).of_gives hgives
  rcases hleads with hstuck | ⟨_, w', hgives, z, hz, hrepeated⟩
  · exact absurd hstuck (not_gives_statements_stuck _ _ _)
  refine ⟨v, z, w', hv, hz, ?_, hgives, hrepeated.reports, hrepeated.echoes⟩
  rw [(hz.reports hmutes).1, hv.statementsOf_built.2, hsilent.reports]

/-- What was built before the second row is as large as what comes before that row. -/
theorem Crossed.bytesOf_built {front : List Token} {j : Seam .newline} {u v : State} {limit : Nat} (h : Crossed j u v)
    (hrun : programStatements.run (runRule n) (opened (front ++ j.tail) limit none) = .ok ((), u)) :
    Tree.bytesOf v.top.built.reverse = State.sizeOfTokens (front ++ (j.gap ++ [j.stop])) := by
  have hopened : (opened (front ++ j.tail) limit none).Reading (front ++ j.tail) :=
    (respected_reading _).perform (State.perform_openNode _ .program) (State.reading_start _ limit none)
  have hu := (respected_reading _).run hrun hopened
  have hv := h.reading hu
  have hbelow : v.below = [⟨none, 0, []⟩] := by
    obtain ⟨_, ⟨-, held, -, rfl⟩, rfl⟩ := h
    exact (kept_opened hrun).below
  have hheld : v.held = [] ∧ v.unread = j.after := by
    obtain ⟨_, -, rfl⟩ := h
    exact ⟨rfl, rfl⟩
  obtain ⟨before, hsplit, hbefore⟩ := hv.exists_before
  have hpassed : before = front ++ (j.gap ++ [j.stop]) := by
    have hwhole : before ++ j.after = front ++ (j.gap ++ [j.stop]) ++ j.after := by
      rw [← hheld.2, ← hsplit, hheld.2, Seam.rest_eq]
      simp
    exact List.append_cancel_right hwhole
  have hforest : v.forest = v.top.built.reverse := by simp [State.forest, treesOfFrames, hbelow]
  have hfront := hv.front_eq hbefore
  rw [State.front, hheld.1, hv.sized, hforest, hpassed] at hfront
  exact hfront

/-- The error node is a child of the program. It holds the line, but for blanks at its end. -/
theorem Recovers.mem_elements {blanks line : List Token} {x newline : Token} {v z w w' : State} (h : Recovers blanks x line newline v z)
    (hheld : v.held = []) (hechoes : Echoes .whole z.top.built w w') :
    ∃ body after, x :: line = body ++ after ∧ (∀ t ∈ after, t.kind.isTrivia = true) ∧
      ⟨Tree.bytesOf v.top.built.reverse + State.sizeOfTokens blanks, .node .error (body.map Token.leaf)⟩ ∈
        Node.elements ⟨0, (resultOf w').tree⟩ := by
  obtain ⟨body, after, hsplit, hafter, hlaid⟩ := h.laid
  refine ⟨body, after, hsplit, hafter, ?_⟩
  have hchildren : ∃ more, (resultOf w').tree.children = z.top.built.reverse ++ more := by
    refine ⟨w.top.built.reverse ++ (w'.skip.held.map Token.leaf), ?_⟩
    show w'.skip.drain.top.built.reverse = _
    rw [State.drain_eq, State.skip_eq]
    simp [hechoes.built_eq]
  obtain ⟨more, hmore⟩ := hchildren
  have hv : v.laid = v.top.built.reverse := by rw [State.laid, hheld, List.map_nil, List.append_nil]
  rw [Node.elements, hmore, hlaid, hv, Node.placeAll_append, Node.placeAll_append, Node.placeAll_append]
  refine List.mem_append_left _ (List.mem_append_right _ (List.mem_append_right _ ?_))
  rw [Nat.zero_add]
  exact List.mem_cons_self

/-- No statement is added by the line. -/
theorem Recovers.statementsOf_built {blanks line : List Token} {x newline : Token} {v z : State} (h : Recovers blanks x line newline v z)
    (hheld : v.held = []) : (Tree.statementsOf z.top.built).reverse = (Tree.statementsOf v.top.built).reverse := by
  obtain ⟨body, after, -, -, hlaid⟩ := h.laid
  have hv : v.laid = v.top.built.reverse := by rw [State.laid, hheld, List.map_nil, List.append_nil]
  have hleaves (ts : List Token) : List.filter Tree.isExpr (ts.map Token.leaf) = [] := Tree.statementsOf_leaves ts
  rw [← Tree.statementsOf_reverse, ← Tree.statementsOf_reverse, hlaid, hv, Tree.statementsOf_append, Tree.statementsOf_append]
  simp only [Tree.statementsOf, List.filter_cons, hleaves]
  simp [Tree.isExpr, Kind.isExpr]

end Parser

/-- A line that no statement begins with: its first token that is no trivia is `x`, and that begins no statement and closes no
bracket. The brackets on the line are balanced, and nothing on it separates statements. -/
structure BadLine (ts : List Token) (x : Token) : Prop where
  first : ts.find? (!·.kind.isTrivia) = some x
  begins : KindSet.statementFirst.contains x.kind = false
  closes : x.kind.isCloser = false
  balanced : Kind.balanced 0 (ts.map (·.kind)) = true
  line : ∀ t ∈ ts, t.kind ≠ .newline ∧ t.kind ≠ .semicolon

namespace BadLine

variable {ts front tail gap row : List Token} {x : Token}

theorem solid (h : BadLine ts x) : x.kind.isTrivia = false := by
  obtain ⟨hx, -⟩ := List.find?_eq_some_iff_append.mp h.first
  simpa using hx

/-- The line begins before the trivia at its end. -/
theorem exists_split (h : BadLine (front ++ tail) x) (htail : ∀ t ∈ tail, t.kind.isTrivia = true) :
    ∃ blanks line, front = blanks ++ x :: line ∧ ∀ t ∈ blanks, t.kind.isTrivia = true := by
  obtain ⟨hx, blanks, rest, hsplit, hblanks⟩ := List.find?_eq_some_iff_append.mp h.first
  have hsolid (us : List Token) (hus : tail = us ++ x :: rest) : False := by
    have htrivia := htail x (hus ▸ List.mem_append_right _ List.mem_cons_self)
    rw [h.solid] at htrivia
    cases htrivia
  rcases List.append_eq_append_iff.mp hsplit with ⟨us, -, hus⟩ | ⟨us, hfront, hus⟩
  · exact (hsolid us hus).elim
  · cases us with
    | nil => exact (hsolid ([] : List Token) hus.symm).elim
    | cons y line =>
      obtain ⟨rfl, -⟩ := List.cons.inj hus
      exact ⟨blanks, line, hfront, fun t ht => by simpa using hblanks t ht⟩

/-- The line can be skipped wherever it stands, and with other trivia at its end. -/
theorem skippable (h : BadLine (front ++ tail) x) (htail : ∀ t ∈ tail, t.kind.isTrivia = true) (hgap : ∀ t ∈ gap, t.kind.isTrivia = true)
    (hcore : row.map Token.core = (front ++ gap).map Token.core) :
    ∃ blanks y line, row = blanks ++ y :: line ∧ y.core = x.core ∧ (∀ t ∈ blanks, t.kind.isTrivia = true) ∧
      Parser.Skippable y line := by
  obtain ⟨blanks, line, rfl, hblanks⟩ := h.exists_split htail
  have hkinds (us : List Token) : us.map (·.kind) = (us.map Token.core).map (·.1) := by rw [List.map_map]; rfl
  rw [List.append_assoc, List.map_append] at hcore
  obtain ⟨blanks', rest', rfl, hb, hrest⟩ := List.map_eq_append_iff.mp hcore
  obtain ⟨y, line', rfl, hy, hline⟩ := List.map_eq_cons_iff.mp hrest
  have hykind : y.kind = x.kind := congrArg Prod.fst hy
  have hwhole : (y :: line').map (·.kind) = (x :: (line ++ gap)).map (·.kind) := by rw [hkinds, hkinds]; exact congrArg _ hrest
  have htrivia {us : List Token} (hus : ∀ t ∈ us, t.kind.isTrivia = true) : (us.map (·.kind)).filter (!·.isTrivia) = [] :=
    List.filter_eq_nil_iff.mpr (by simpa using hus)
  refine ⟨blanks', y, line', rfl, hy, ?_, ?_, ?_, ?_, ?_, ?_⟩
  · intro t ht
    have hmem : t.kind ∈ blanks.map (·.kind) := by
      rw [hkinds, ← hb, ← hkinds]
      exact List.mem_map_of_mem ht
    obtain ⟨u, hu, hk⟩ := List.mem_map.mp hmem
    exact hk ▸ hblanks u hu
  · exact hykind ▸ h.solid
  · exact hykind ▸ h.begins
  · exact hykind ▸ h.closes
  · have hbalanced := h.balanced
    rw [← Kind.balanced_filter] at hbalanced ⊢
    rw [hwhole]
    simpa only [List.map_append, List.map_cons, List.filter_append, List.filter_cons, htrivia hblanks, htrivia htail, htrivia hgap,
      List.append_nil, List.nil_append] using hbalanced
  · intro t ht
    have hmem : t.kind ∈ (x :: (line ++ gap)).map (·.kind) := hwhole ▸ List.mem_map_of_mem ht
    obtain ⟨u, hu, hk⟩ := List.mem_map.mp hmem
    rw [← hk]
    rcases List.mem_cons.mp hu with rfl | hu
    · exact h.line _ (by simp)
    · rcases List.mem_append.mp hu with hu | hu
      · exact h.line u (by simp [hu])
      · have hgaps := hgap u hu
        constructor <;> (intro heq; rw [heq] at hgaps; cases hgaps)

/-- The line where it stands in another row, with a newline and more after it: it is the same line further to the right. -/
theorem embedded {offset : Nat} {j : Seam .newline} (h : BadLine (front ++ j.tail) x) (hts : Token.StandAt 0 (front ++ j.tail))
    (hrow : Token.StandAt offset row) (hcore : row.map Token.core = (front ++ j.rest).map Token.core) :
    ∃ blanks y line newline after, row = blanks ++ y :: (line ++ newline :: after) ∧ (∀ t ∈ blanks, t.kind.isTrivia = true) ∧
      newline.kind = .newline ∧ Parser.Skippable y line ∧ after.map Token.core = j.after.map Token.core ∧
      y.asNode = x.asNode.shifted offset ∧ Token.StandAt (offset + Parser.State.sizeOfTokens blanks) (y :: line) ∧
      (Token.solids (y :: line)).map Token.asNode = (Token.solids (front ++ j.tail)).map fun t => t.asNode.shifted offset := by
  rw [Seam.rest_eq, ← List.append_assoc, List.map_append] at hcore
  obtain ⟨here, rest, rfl, hhere, hrest⟩ := List.map_eq_append_iff.mp hcore
  obtain ⟨newline, after, rfl, hnewline, hafter⟩ := List.map_eq_cons_iff.mp hrest
  have hkind : newline.kind = .newline := (congrArg Prod.fst hnewline).trans j.stop_kind
  have hsolids := (Token.StandAt.append.mp hrow).1.solids_shifted hts hhere j.tail_trivia j.gap_trivia
  obtain ⟨blanks, y, line, rfl, -, hblanks, hline⟩ := h.skippable j.tail_trivia j.gap_trivia hhere
  rw [Token.solids_append, Token.solids_eq_nil hblanks, List.nil_append] at hsolids
  refine ⟨blanks, y, line, newline, after, by simp, hblanks, hkind, hline, hafter, ?_, ?_, hsolids⟩
  · obtain ⟨blanks', line', hsplit, hblanks'⟩ := h.exists_split j.tail_trivia
    rw [hsplit, List.append_assoc, Token.solids_append, Token.solids_eq_nil hblanks', List.nil_append, List.cons_append, Token.solids,
      Token.solids, List.filter_cons_of_pos (by simpa using hline.solid), List.filter_cons_of_pos (by simpa using h.solid)] at hsolids
    exact (List.cons.inj hsolids).1
  · exact (Token.StandAt.append.mp (Token.StandAt.append.mp hrow).1).2

end BadLine

/-- Joined by a newline, the tokens of the second source stand right after the newline. -/
theorem standAt_joined {source more : Text} {checkPatterns : Bool} {front : List Token} {j : Seam .newline}
    (htokens : (scan (source ++ '\n' :: more) checkPatterns).tokens = front ++ j.rest)
    (hafter : j.after.map Token.core = (scan more checkPatterns).tokens.map Token.core) :
    Parser.State.sizeOfTokens (front ++ (j.gap ++ [j.stop])) = source.bytes + 1 ∧ Token.StandAt (source.bytes + 1) j.after := by
  have hrow : (scan (source ++ '\n' :: more) checkPatterns).tokens = front ++ (j.gap ++ [j.stop]) ++ j.after := by
    rw [htokens, Seam.rest_eq]
    simp
  have hsize : Parser.State.sizeOfTokens (front ++ (j.gap ++ [j.stop])) = source.bytes + 1 := by
    have hwhole := spelled_scan (source ++ '\n' :: more) checkPatterns
    have hbehind := spelled_scan more checkPatterns
    rw [← Token.map_piece_of_core hafter] at hbehind
    rw [hrow, List.map_append, spelled_append, hbehind, List.append_cons source] at hwhole
    rw [Parser.State.sizeOfTokens_eq_spelled, List.append_cancel_right hwhole, Text.bytes_append]
    rfl
  have hstand : Token.StandAt 0 (front ++ (j.gap ++ [j.stop]) ++ j.after) := hrow ▸ .place _ _ _
  have hstand' := (Token.StandAt.append.mp hstand).2
  rw [Nat.zero_add, hsize] at hstand'
  exact ⟨hsize, hstand'⟩

/-- A line that no statement begins with stands between two sources that parse without diagnostics under some limit. There is one
diagnostic then: an expression was expected where the line begins. The tokens of the line that are no trivia are all in one error
node among the children of the program, and the dumps of the statements are those of the first source and then those of the second. -/
theorem parse_isolated (limit : Nat) (checkPatterns : Bool) (source line more : Text) (p q : Parsed) (x : Token)
    (hp : parse { limit, checkPatterns } source = .ok p) (hclean : p.diagnostics = [])
    (hq : parse { limit, checkPatterns } more = .ok q) (hclean' : q.diagnostics = [])
    (hscan : (scan line checkPatterns).diagnostics = []) (hline : BadLine (scan line checkPatterns).tokens x) :
    ∃ r d n, parse { limit, checkPatterns } (source ++ '\n' :: (line ++ '\n' :: more)) = .ok r ∧
      r.diagnostics = [d] ∧ d.problem = .expectedExpression ∧ d.span = .ofSize (source.bytes + 1 + x.start) x.text.bytes ∧
      r.root.kind = .program ∧ n ∈ r.root.nodesOf .error ∧
      n.elements.filter (!·.kind.isTrivia) =
        (Token.solids (scan line checkPatterns).tokens).map (fun t => t.asNode.shifted (source.bytes + 1)) ∧
      r.statementDumps = p.statementDumps ++ q.statementDumps := by
  obtain ⟨hscan₁, n₁, u, hrun, hsilent, htree⟩ := Parser.statements_of_parse hp hclean
  obtain ⟨hscan₂, n₂, w, hrun', hsilent', htree'⟩ := Parser.statements_of_parse hq hclean'
  obtain ⟨hinner, front', j', -, htokens', hrest', hafter'⟩ := scan_joined hscan hscan₂
  obtain ⟨hjoined, front, j, hfirm, htokens, hrest, hafter⟩ := scan_joined hscan₁ hinner
  obtain ⟨hsize, hstand⟩ := standAt_joined hrest hafter
  rw [hrest'] at hafter
  rw [htokens'] at hline ⊢
  obtain ⟨blanks, y, rest, newline, after, hrow, hblanks, hnewline, hskippable, hmore, hy, hstand', hsolids⟩ :=
    hline.embedded (htokens' ▸ .place _ _ _) hstand hafter
  rw [htokens] at hrun
  obtain ⟨v, z, w', hv, hz, hreports, hgives, hw', hechoes⟩ :=
    Parser.gives_isolated (Parser.fronts_of_scan hscan₁ hfirm htokens) hrow hblanks hnewline hskippable (hmore.trans hafter') hrun hsilent
      hrun' hsilent'
  have hheld : v.held = [] := by
    obtain ⟨_, -, rfl⟩ := hv
    rfl
  obtain ⟨body, blanks', hbody, hblanks', hmem⟩ := hz.mem_elements hheld hechoes
  rw [hv.bytesOf_built hrun, hsize] at hmem
  rw [← hrest] at hgives
  refine ⟨_, (Parser.expectedAt y).locate (source ++ '\n' :: (line ++ '\n' :: more)), _, Parser.parse_of_statements hgives, ?_, rfl, ?_, rfl,
    List.mem_filter.mpr ⟨List.mem_filter.mpr ⟨hmem, rfl⟩, rfl⟩, ?_, ?_⟩
  · show ((scan _ checkPatterns).diagnostics ++ w'.reports.reverse).sortByPosition.locate _ = _
    rw [hjoined, hw', hreports]
    simp [Diagnostics.sortByPosition, Diagnostics.locate]
  · have hstart : y.start = source.bytes + 1 + x.start := congrArg Node.start hy
    have htext : y.text = x.text := (Tree.leaf.inj (congrArg Node.tree hy)).2
    show y.span = _
    rw [Token.span, Token.stop, hstart, htext]
    rfl
  · rw [hbody] at hstand' hsolids
    have hnodes : body.map Token.asNode = _ := (Token.StandAt.append.mp hstand').1
    rw [Token.solids_append, Token.solids_eq_nil hblanks', List.append_nil, ← Token.filter_asNode, hnodes] at hsolids
    exact hsolids
  · rw [Parsed.statementDumps_eq, Parsed.statementDumps_eq, Parsed.statementDumps_eq, htree, htree']
    show (Tree.statementsOf (Parser.resultOf w').tree.children).map _ = _
    rw [hechoes.statementsOf_resultOf, hz.statementsOf_built hheld, hv.statementsOf_built.1, ← Parser.statementsOf_resultOf,
      List.map_append]

/-- A line that begins with an assignment operator and holds a list and a comment, between two assignments. -/
theorem parse_isolated_operator :
    ∃ p q r d n, parse {} "a = 1 # b".toList = .ok p ∧ p.diagnostics = [] ∧ p.statements.length = 1 ∧
      parse {} ".c = [2]".toList = .ok q ∧ q.diagnostics = [] ∧ q.statements.length = 1 ∧
      parse {} ("a = 1 # b".toList ++ '\n' :: (" = [(3)] # d".toList ++ '\n' :: ".c = [2]".toList)) = .ok r ∧
      r.diagnostics = [d] ∧ d.problem = .expectedExpression ∧ d.span = ⟨11, 12⟩ ∧ r.root.kind = .program ∧ n ∈ r.root.nodesOf .error ∧
      (n.elements.filter (!·.kind.isTrivia)).map (·.start) = [11, 13, 14, 15, 16, 17] ∧
      r.statementDumps = p.statementDumps ++ q.statementDumps := by
  have hfirst : (parse {} "a = 1 # b".toList).toOption.any (fun p => p.diagnostics.isEmpty && p.statements.length == 1) = true := by
    decide +kernel
  have hsecond : (parse {} ".c = [2]".toList).toOption.any (fun q => q.diagnostics.isEmpty && q.statements.length == 1) = true := by
    decide +kernel
  have hscan : (scan " = [(3)] # d".toList false).diagnostics = [] := by decide +kernel
  have hline : BadLine (scan " = [(3)] # d".toList false).tokens ⟨.equals, ['='], 1, false⟩ :=
    ⟨by decide +kernel, by decide, by decide, by decide +kernel, by decide +kernel⟩
  cases hp : parse {} "a = 1 # b".toList with
  | error f => rw [hp] at hfirst; cases hfirst
  | ok p =>
    cases hq : parse {} ".c = [2]".toList with
    | error f => rw [hq] at hsecond; cases hsecond
    | ok q =>
      rw [hp] at hfirst
      rw [hq] at hsecond
      simp only [Except.toOption, Option.any_some, Bool.and_eq_true, List.isEmpty_iff, beq_iff_eq] at hfirst hsecond
      obtain ⟨r, d, n, hr, hd, hproblem, hspan, hroot, hn, helements, hdumps⟩ :=
        parse_isolated 256 false _ _ _ p q _ hp hfirst.1 hq hsecond.1 hscan hline
      refine ⟨p, q, r, d, n, rfl, hfirst.1, hfirst.2, rfl, hsecond.1, hsecond.2, hr, hd, hproblem, hspan.trans ?_, hroot, hn, ?_, hdumps⟩
      · decide
      · rw [helements]
        decide +kernel

end Remap
