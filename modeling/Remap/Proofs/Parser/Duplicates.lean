import Remap.Proofs.Parser.Parameters

/-!
# Repeated parameters are reported once

What is to be reported about the parameters of closures is read off the trees that were built: the closures come with what is around
them first, and the parser checks the parameters of a closure before it reads the block. So a run reports, in order, what is to be
reported about the closures that it builds, and nothing else about parameters.
-/

namespace Remap

/-- What is to be reported about the closures in a row of trees that begins at an offset. -/
def Tree.complaintsOf (offset : Nat) (ts : List Tree) : List Diagnostic := (descendantsOf offset ts).flatMap Node.complaints

namespace Tree

theorem complaintsOf_append (offset : Nat) (ts us : List Tree) :
    complaintsOf offset (ts ++ us) = complaintsOf offset ts ++ complaintsOf (offset + bytesOf ts) us := by
  rw [complaintsOf, descendantsOf_append, List.flatMap_append]
  rfl

theorem complaintsOf_node (offset : Nat) (k : Kind) (cs : List Tree) :
    complaintsOf offset [.node k cs] = Node.complaints ⟨offset, .node k cs⟩ ++ complaintsOf offset cs := by
  simp [complaintsOf, descendantsOf, descendants]

/-- Only closures are complained about. -/
theorem complaintsOf_other (offset : Nat) {k : Kind} (hk : k ≠ .closure) (cs : List Tree) :
    complaintsOf offset [.node k cs] = complaintsOf offset cs := by
  have hnone : Node.complaints ⟨offset, .node k cs⟩ = [] := if_neg (by simp [Node.isClosure, Node.kind, kind, hk])
  rw [complaintsOf_node, hnone, List.nil_append]

theorem complaintsOf_leaves (offset : Nat) (ts : List Token) : complaintsOf offset (ts.map Token.leaf) = [] := by
  induction ts generalizing offset with
  | nil => rfl
  | cons t ts ih =>
    have hleaf : complaintsOf offset [t.leaf] = [] := rfl
    rw [List.map_cons, ← List.singleton_append, complaintsOf_append, hleaf, ih, List.append_nil]

end Tree

namespace Parser

variable {α β : Type} {ps : List (Kind × Text)}

namespace State

variable {s t u : State}

/-- What is to be reported about the closures built so far. -/
def complaints (s : State) : List Diagnostic := Tree.complaintsOf 0 s.forest

/-- From an earlier state a parse went on and reported the repeated parameters of the closures that it built. -/
def Tallies (s t : State) : Prop := ∃ ds, t.duplicates = s.duplicates ++ ds ∧ t.complaints = s.complaints ++ ds

namespace Tallies

theorem of_eq (hduplicates : t.duplicates = s.duplicates) (hcomplaints : t.complaints = s.complaints) : Tallies s t :=
  ⟨[], by rw [hduplicates, List.append_nil], by rw [hcomplaints, List.append_nil]⟩

theorem refl (s : State) : Tallies s s := .of_eq rfl rfl

theorem trans (h : Tallies s t) (h' : Tallies t u) : Tallies s u := by
  obtain ⟨ds, hduplicates, hcomplaints⟩ := h
  obtain ⟨es, hduplicates', hcomplaints'⟩ := h'
  exact ⟨ds ++ es, by rw [hduplicates', hduplicates, List.append_assoc], by rw [hcomplaints', hcomplaints, List.append_assoc]⟩

/-- If nothing was reported about parameters, no closure was built that has repeated ones. -/
theorem complaints_eq (h : Tallies s t) (hduplicates : t.duplicates = s.duplicates) : t.complaints = s.complaints := by
  obtain ⟨ds, hds, hcomplaints⟩ := h
  rw [hduplicates] at hds
  rw [hcomplaints, List.append_cancel_left (hds.symm.trans (List.append_nil _).symm), List.append_nil]

end Tallies

theorem complaints_of_leaves {us : List Token} (h : t.forest = s.forest ++ us.map Token.leaf) : t.complaints = s.complaints := by
  rw [complaints, h, Tree.complaintsOf_append, Tree.complaintsOf_leaves, List.append_nil]
  rfl

theorem complaints_drain (s : State) : s.drain.complaints = s.complaints := complaints_of_leaves s.forest_drain

theorem forest_closed (hbelow : t.below = s.drain.top :: s.drain.below) (k : Kind) :
    t.forest = s.drain.forest ++ t.top.built.reverse ∧ (s.closed k t).forest = s.drain.forest ++ [.node k t.top.built.reverse] := by
  simp [forest, closed, treesOfFrames, hbelow]

theorem forest_wrapped (hbelow : t.below = { s.top with built := [] } :: s.below) (k : Kind) :
    t.forest = treesOfFrames s.below ++ t.top.built.reverse ∧
      (s.wrapped k t).forest = treesOfFrames s.below ++ [.node k t.top.built.reverse] := by
  simp [forest, wrapped, treesOfFrames, hbelow]

/-- Trees that become a node other than a closure. -/
theorem complaints_of_gathered {before inside : List Tree} {k : Kind} (hs : s.forest = before ++ inside)
    (ht : t.forest = before ++ [.node k inside]) (hk : k ≠ .closure) : t.complaints = s.complaints := by
  rw [complaints, complaints, hs, ht, Tree.complaintsOf_append, Tree.complaintsOf_append, Tree.complaintsOf_other _ hk]

end State

open State (Tallies Onward)

theorem duplicates_perform {action : Action α} {s t : State} {a : α} (h : action.perform s = .ok (a, t))
    (hproblems : .duplicateClosureParam ∉ action.problems) : t.duplicates = s.duplicates := by
  obtain ⟨ds, hds, hall⟩ := reports_perform h
  have hnone : ds.reverse.filter (·.problem = .duplicateClosureParam) = [] := by
    refine List.filter_eq_nil_iff.mpr fun d hd => ?_
    rw [decide_eq_true_eq]
    exact fun heq => hproblems (heq ▸ hall d (List.mem_reverse.mp hd))
  rw [State.duplicates, hds, List.reverse_append, List.filter_append, hnone, List.append_nil]
  rfl

/-- An action that neither compares parameters nor builds a node changes nothing. -/
theorem tallies_perform {action : Action α} {s t : State} {a : α} (h : action.perform s = .ok (a, t))
    (hproblems : .duplicateClosureParam ∉ action.problems) (hgathers : action.gathers = false) : Tallies s t := by
  obtain ⟨us, hforest⟩ := forest_perform hgathers h
  exact .of_eq (duplicates_perform h hproblems) (State.complaints_of_leaves hforest)

/-! ## The judgement -/

/-- A routine reports the repeated parameters of the closures that it builds. -/
def Tallied (ps : List (Kind × Text)) (n : Nat) (x : Routine α) : Prop :=
  ∀ s : State, s.Orderly ps → s.Spent → Returns n x s fun _ t => Tallies s t

namespace Tallied

variable {n : Nat}

theorem done (a : α) : Tallied ps n (pure a : Routine α) := fun s _ _ => .done (.refl s)

theorem bind {x : Routine α} {f : α → Routine β} (hx : Tallied ps n x) (hf : ∀ a, Tallied ps n (f a)) : Tallied ps n (x >>= f) := by
  refine fun s hs hspent => .bind <| (Returns.orderly hs (hx s hs hspent)).follows.imp fun a t ht => ?_
  exact (hf a t ht.2.1 (ht.1.spent hspent)).imp fun _ _ hu => ht.2.2.trans hu

theorem flat {action : Action α} (hflat : action.isFlat = true) (hproblems : .duplicateClosureParam ∉ action.problems) :
    Tallied ps n (act action) :=
  fun _ _ _ => .flat hflat fun _ _ h _ => tallies_perform h hproblems (by cases action <;> first | rfl | cases hflat)

theorem node {k : Kind} (hk : k ≠ .closure) {body : Routine α} (h : Tallied ps n body) : Tallied ps n (Parser.node k body) := by
  intro s hs hspent
  have hopened := (respected_orderly ps).perform (s.perform_openNode k) hs
  have htallies := tallies_perform (s.perform_openNode k) nofun rfl
  refine .node <| (h _ hopened (s.follows_drain.spent hspent)).follows.imp fun _ t ht => (htallies.trans ht.2).trans ?_
  obtain ⟨hforest, hclosed⟩ := State.forest_closed ht.1.below k
  exact .of_eq rfl (State.complaints_of_gathered hforest hclosed hk)

theorem marked {body : Routine α} (h : Tallied ps n body) : Tallied ps n (Parser.marked body) := by
  intro s hs hspent
  have hopened := (respected_orderly ps).perform s.perform_mark hs
  have htallies := tallies_perform s.perform_mark nofun rfl
  refine .marked <| (h _ hopened (s.follows_drain.spent hspent)).follows.imp fun _ t ht => (htallies.trans ht.2).trans ?_
  have hbelow : t.below = s.drain.top :: s.drain.below := ht.1.below
  have hjoined : (s.joined t).forest = t.forest := by simp [State.forest, State.joined, treesOfFrames, hbelow]
  exact .of_eq rfl (by rw [State.complaints, hjoined, State.complaints])

theorem wrapped {k : Kind} (hk : k ≠ .closure) {body : Routine α} (h : Tallied ps n body) : Tallied ps n (Parser.wrapped k body) := by
  refine fun s hs hspent => .of_mark fun hmark => ?_
  have hwrap : (Action.wrap k).perform s = .ok ((), s.wrapping k) := by simp only [Action.perform, hmark, State.wrapping]
  have hopened := (respected_orderly ps).perform hwrap hs
  have htallies := tallies_perform hwrap List.not_mem_nil rfl
  refine .wrapped <| (h _ hopened hspent).follows.imp fun _ t ht => (htallies.trans ht.2).trans ?_
  obtain ⟨hforest, hclosed⟩ := State.forest_wrapped ht.1.below k
  exact .of_eq rfl (State.complaints_of_gathered hforest hclosed hk)

/-- Where the limit is hit, what is left becomes an error, which holds no closure. -/
theorem swallow {s : State} (hs : s.Orderly ps) :
    Returns n (Parser.node .error (do rule .absorb; act .settle)) s fun _ t => Tallies s t := by
  have hforward : (Parser.node .error (do rule .absorb; act .settle)).Forward :=
    .bind (.act rfl) fun _ => .bind (.bind (x := rule _) rfl fun _ => .act rfl) fun _ => .bind (.act rfl) fun _ => .done _
  intro hsteady a t hrun hfuel
  obtain ⟨hfollows, -, -, ts, hbuilt⟩ := Returns.swallow n s hsteady a t hrun hfuel
  refine ⟨hfollows, .of_eq (hforward.run hrun hs).duplicates ?_⟩
  have hforest : t.forest = s.drain.forest ++ [.node .error (ts.map Token.leaf)] := by
    simp only [State.forest, treesOfFrames, hfollows.below, hbuilt, List.reverse_cons, s.follows_drain.below, List.append_assoc]
  rw [State.complaints, hforest, Tree.complaintsOf_append, Tree.complaintsOf_other _ (by decide), Tree.complaintsOf_leaves,
    List.append_nil]
  exact s.complaints_drain

theorem nested {body : Routine Kind} (h : Tallied ps n body) : Tallied ps n (Parser.nested body) := by
  intro s hs hspent
  have hdeeper : s.deeper.Orderly ps := ⟨{ hs.reading with }, hs.anchored, { hs.spaced with }⟩
  have hbody := h s.deeper hdeeper hspent
  have hfollows : Returns n (Parser.nested body) s fun _ _ => True :=
    .nested (fun _ => hbody.imp fun _ _ _ => trivial) (fun _ => trivial) fun _ _ _ _ _ => trivial
  intro hsteady a u hrun hfuel
  refine ⟨(hfollows hsteady a u hrun hfuel).1, ?_⟩
  obtain ⟨entry, s₁, henter, hrest⟩ := Routine.run_bind_eq_ok.mp hrun
  rw [Routine.run_single] at henter
  have hentered := tallies_perform henter nofun rfl
  have hs₁ := (respected_orderly ps).perform henter hs
  have hsteady := (hushes_perform henter).steady hsteady
  rw [State.perform_enter] at henter
  split at henter
  · cases henter
    cases hrest
    exact hentered
  · split at henter <;> cases henter
    · obtain ⟨k, t, hinner, hend⟩ := Routine.run_bind_eq_ok.mp hrest
      obtain ⟨_, t', hleave, hdone⟩ := Routine.run_bind_eq_ok.mp hend
      rw [Routine.run_single] at hleave
      cases hdone
      have hleft := tallies_perform hleave nofun rfl
      exact (hentered.trans (hbody hsteady _ _ hinner ((hushes_perform hleave).fuelled hfuel)).2).trans hleft
    · obtain ⟨_, t, hswallow, hdone⟩ := Routine.run_bind_eq_ok.mp hrest
      cases hdone
      exact hentered.trans (swallow hs₁ hsteady _ _ hswallow hfuel).2

end Tallied

/-! ## Closures -/

theorem reports_foldl_of_pairwise {s : State} {ds : List Diagnostic} (hopen : s.overflowed = false)
    (hlast : ∀ d ∈ ds, s.lastReport ≠ some d.span.start) (hds : ds.Pairwise fun d e => d.span.start ≠ e.span.start) :
    (ds.foldl State.report s).reports = ds.reverse ++ s.reports := by
  induction ds generalizing s with
  | nil => rfl
  | cons d ds ih =>
    obtain ⟨hd, hds⟩ := List.pairwise_cons.mp hds
    have hreport : s.report d = { s with reports := d :: s.reports, lastReport := some d.span.start } := by
      simp [State.report, hopen, hlast d List.mem_cons_self]
    have hrest := ih (s := s.report d) (by rw [hreport]; exact hopen)
      (by rw [hreport]; exact fun e he heq => hd e he (Option.some.inj heq)) hds
    rw [List.foldl_cons, hrest, hreport, List.reverse_cons, List.append_assoc]
    rfl

/-- What is wrong with the parameters of a list that was just built is reported in full. -/
theorem duplicates_checkParameters {s : State} {cs rest : List Tree} (hbuilt : s.top.built = .node .closureParams cs :: rest)
    (hopen : s.overflowed = false) (hcs : ∀ p ∈ Tree.leavesOf cs, p.2 ≠ [])
    (hfresh : ∀ o, s.lastReport = some o → ∀ x ∈ parametersOf (s.placed - Tree.bytesOf cs) cs, x.2.start ≠ o) :
    s.reportParameters.duplicates = s.duplicates ++ listProblems (s.placed - Tree.bytesOf cs) cs := by
  have hproblems : s.parameterProblems = listProblems (s.placed - Tree.bytesOf cs) cs := by
    simp only [State.parameterProblems, hbuilt, listProblems]
  rw [State.reportParameters_eq, hproblems, State.duplicates]
  generalize s.placed - Tree.bytesOf cs = offset at hfresh ⊢
  have hsublist := sublist_repeatedParameters [] (parametersOf offset cs)
  have hreports : ((listProblems offset cs).foldl State.report s).reports = (listProblems offset cs).reverse ++ s.reports := by
    refine reports_foldl_of_pairwise hopen (fun d hd heq => ?_) ?_
    · obtain ⟨x, hx, rfl⟩ := List.mem_map.mp hd
      exact hfresh _ heq _ (hsublist.subset (List.mem_map_of_mem hx)) rfl
    · rw [listProblems, List.pairwise_map]
      exact (List.pairwise_map.mp ((pairwise_parametersOf hcs).sublist hsublist)).imp Nat.ne_of_lt
  have hall : (listProblems offset cs).filter (·.problem = .duplicateClosureParam) = listProblems offset cs := by
    refine List.filter_eq_self.mpr fun d hd => ?_
    obtain ⟨x, -, rfl⟩ := List.mem_map.mp hd
    rfl
  rw [hreports, List.reverse_append, List.reverse_reverse, List.filter_append, hall]
  rfl

/-- The parameters of a closure are read and checked. -/
theorem checked_parameters (hps : Worded ps) {n : Nat} (hlist : Tallied ps n parameterList) {s : State} (hs : s.Orderly ps)
    (hspent : s.Spent) (hopen : s.overflowed = false) :
    Returns n (do node .closureParams parameterList; act .checkParameters) s fun _ t =>
      ∃ cs, t.top.built = .node .closureParams cs :: s.drain.top.built ∧ (∀ c ∈ cs, c.WellNamed) ∧
        t.duplicates = s.duplicates ++ listProblems s.drain.placed cs ∧ t.complaints = s.complaints := by
  have hopened := (respected_orderly ps).perform (s.perform_openNode .closureParams) hs
  have htallies := tallies_perform (s.perform_openNode .closureParams) nofun rfl
  have hpushed : (s.pushed (some .closureParams)).overflowed = false := by rw [State.pushed, State.drain_eq]; exact hopen
  refine .bind <| .node ?_
  intro hsteady _ u hrun hfuel
  obtain ⟨hfollows, hnamed, hfresh⟩ := fresh_list hps hopened hpushed rfl hsteady _ u hrun hfuel
  have honward := forward_parameterList.run hrun hopened
  have hu := (respected_orderly ps).run hrun hopened
  have htally := htallies.trans (hlist _ hopened (s.follows_drain.spent hspent) hsteady _ u hrun hfuel).2
  have hduplicates : u.duplicates = s.duplicates :=
    honward.duplicates.trans (duplicates_perform (s.perform_openNode .closureParams) nofun)
  -- the list begins where its node was opened
  have hstart : u.top.start = s.drain.placed := by
    rw [hu.anchored.1, hfollows.below]
    exact hs.reading.sized.drain.symm
  have hplaced : u.placed - Tree.bytesOf u.top.built.reverse = s.drain.placed := by rw [hu.placed_eq, hstart, Nat.add_sub_cancel]
  obtain ⟨hforest, hclosed⟩ := State.forest_closed hfollows.below .closureParams
  refine ⟨hfollows, .look rfl fun _ t hcheck hbuilt => ⟨u.top.built.reverse, hbuilt, fun c hc => hnamed c (List.mem_reverse.mp hc), ?_, ?_⟩⟩
  · have hall := duplicates_checkParameters (s := s.closed .closureParams u) rfl (honward.overflowed.trans hpushed) (hu.nonempty hps)
      (by rw [State.closed, hplaced, ← hstart]; exact hfresh)
    cases hcheck
    rw [hall, ← hduplicates, ← hplaced]
    rfl
  · have hgathered := State.complaints_of_gathered hforest hclosed (by decide)
    have hsame : t.forest = (s.closed .closureParams u).forest := State.forest_eq_of_follows (look_perform rfl hcheck).1.below hbuilt
    rw [State.complaints, hsame]
    exact hgathered.trans (htally.complaints_eq hduplicates)

/-- A closure that was read up to its end, in a state that followed `s` when its node was opened: the arrow and blanks, the parameters,
and the rest. -/
structure ClosureRead (s t : State) (ts : List Token) (cs more : List Tree) : Prop where
  built : t.top.built.reverse = ts.map Token.leaf ++ .node .closureParams cs :: more
  named : ∀ c ∈ cs, c.WellNamed
  counts : ∃ ds, t.duplicates = s.duplicates ++ (listProblems (s.drain.placed + Tree.bytesOf (ts.map Token.leaf)) cs ++ ds) ∧
    t.complaints = s.complaints ++ ds

theorem closure_read (hps : Worded ps) {n : Nat} (hlist : Tallied ps n parameterList)
    (hrest : Tallied ps n (do newlines; let _ ← block)) {s : State} (hs : s.Orderly ps) (hspent : s.Spent) :
    Returns n (do
      advance
      (do node .closureParams parameterList; act .checkParameters)
      newlines
      let _ ← block) (s.pushed (some .closure)) fun _ t => ∃ ts cs more, ClosureRead s t ts cs more := by
  have hopened := (respected_orderly ps).perform (s.perform_openNode .closure) hs
  have htallies := tallies_perform (s.perform_openNode .closure) List.not_mem_nil rfl
  have hspent : (s.pushed (some .closure)).Spent := s.follows_drain.spent hspent
  refine .bind <| .flat rfl fun _ t hadvance hadds => ?_
  have ht := (respected_orderly ps).perform hadvance hopened
  have hfollows := (flat_perform rfl hadvance).1
  have hduplicates : t.duplicates = s.duplicates :=
    (duplicates_perform hadvance List.not_mem_nil).trans (duplicates_perform (s.perform_openNode .closure) List.not_mem_nil)
  have hcomplaints := (htallies.trans (tallies_perform hadvance List.not_mem_nil rfl)).complaints_eq hduplicates
  -- a token was left to consume, so the limit was not hit
  have hopen : t.overflowed = false := by
    cases hunread : (s.pushed (some .closure)).unread with
    | nil =>
      simp only [Action.perform, hunread] at hadvance
      cases hadvance
    | cons x rest =>
      rw [State.perform_advance hunread] at hadvance
      cases hadvance
      exact Bool.eq_false_iff.mpr fun hover => by cases hunread.symm.trans (hspent hover)
  obtain ⟨lead, hlead⟩ := hadds
  have hlead : t.drain.top.built.reverse = (lead.reverse ++ t.held).map Token.leaf := by
    rw [State.built_drain, hlead]
    simp [State.pushed]
  have hstart : t.drain.placed = s.drain.placed + Tree.bytesOf ((lead.reverse ++ t.held).map Token.leaf) := by
    have hbelow : t.drain.below = s.drain.top :: s.drain.below := t.follows_drain.below.trans hfollows.below
    rw [ht.anchored.drain.placed_eq ht.reading.sized.drain, hlead, ht.anchored.drain.1, hbelow, hs.reading.sized.drain]
    rfl
  refine .bind <| (Returns.orderly ht (checked_parameters hps hlist ht (hfollows.spent hspent) hopen)).follows.imp fun _ u hu => ?_
  obtain ⟨hu, horderly, cs, hbuilt, hnamed, hduplicates', hcomplaints'⟩ := hu
  have hextends : Extends n (do newlines; let _ ← block) := by
    have e := uniform_extends n
    exact e.bind (closed_newlines e.toParts) fun _ => e.bind (closed_block e.toGrammarClosed) fun _ => e.done _
  refine ((hrest u horderly (hu.spent (hfollows.spent hspent))).and (hextends u)).imp fun _ v hv => ?_
  obtain ⟨⟨ds, hduplicates'', hcomplaints''⟩, hextends⟩ := hv
  obtain ⟨more, hmore⟩ := hextends (by rw [hu.label, hfollows.label]; exact Option.some_ne_none _)
  refine ⟨lead.reverse ++ t.held, cs, more.reverse, ?_, hnamed, ds, ?_, ?_⟩
  · rw [← hmore, hbuilt, List.reverse_append, List.reverse_cons, hlead, List.append_assoc]
    rfl
  · rw [hduplicates'', hduplicates', hduplicates, hstart, List.append_assoc]
  · rw [hcomplaints'', hcomplaints', hcomplaints]

theorem Tallied.closure (hps : Worded ps) {n : Nat} (hlist : Tallied ps n parameterList)
    (hrest : Tallied ps n (do newlines; let _ ← block)) : Tallied ps n closure := by
  intro s hs hspent
  rw [closure_eq]
  refine .node <| (closure_read hps hlist hrest hs hspent).follows.imp fun _ t ht => ?_
  obtain ⟨hfollows, ts, cs, more, hbuilt, hnamed, ds, hduplicates, hcomplaints⟩ := ht
  obtain ⟨hforest, hclosed⟩ := State.forest_closed hfollows.below .closure
  have hoffset : 0 + Tree.bytesOf s.drain.forest = s.drain.placed := by rw [hs.reading.sized.drain, Nat.zero_add]
  have hinside : Tree.complaintsOf s.drain.placed t.top.built.reverse = ds := by
    rw [State.complaints, hforest, Tree.complaintsOf_append, hoffset, ← s.complaints_drain] at hcomplaints
    exact List.append_cancel_left hcomplaints
  have hown : Node.complaints ⟨s.drain.placed, .node .closure t.top.built.reverse⟩ =
      listProblems (s.drain.placed + Tree.bytesOf (ts.map Token.leaf)) cs := by
    rw [hbuilt]
    refine complaints_closure (fun c hc => ?_) hnamed
    obtain ⟨x, -, rfl⟩ := List.mem_map.mp hc
    exact ⟨_, _, rfl⟩
  refine ⟨_, hduplicates, ?_⟩
  rw [State.complaints, hclosed, Tree.complaintsOf_append, hoffset, Tree.complaintsOf_node, hown, hinside, ← s.complaints_drain]
  rfl

/-! ## Every rule -/

end Parser

end Remap
