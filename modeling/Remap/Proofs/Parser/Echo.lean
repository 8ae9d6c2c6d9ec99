import Remap.Proofs.Parser.Closed
import Remap.Proofs.Parser.Silent
import Remap.Proofs.Token.Join

/-!
# Reading after something else

One run reads a row of tokens by itself, another one reads the same row after other trees were built, perhaps as deep in other
nodes as it has more levels to go. What was built before, where the row stands, and what was reported before it make no difference
to a run that is silent by itself: the second run does the same, and reports nothing new (`Repeats`). Only lookaheads are not
compared. The second run may have fewer of them left, so it may also be found to be stuck.

Nor does the text of a token make a difference, names apart. So the texts of the two rows are compared as far as they are seen
only (`Glimpse`).
-/

namespace Remap

/-! ## What is seen -/

/-- What is seen of the text of a token. Names are seen as they are. -/
structure Glimpse where
  text : Kind → Text → Text
  name : ∀ t, text .id t = t

/-- A glimpse of everything. -/
def Glimpse.whole : Glimpse := ⟨fun _ t => t, fun _ => rfl⟩

/-- What is seen of a token, where it stands apart. -/
def Token.seen (v : Glimpse) (t : Token) : Kind × Text × Bool := (t.kind, v.text t.kind t.text, t.immediate)

namespace Tree

mutual
/-- A tree as far as it is seen. -/
def seen (v : Glimpse) : Tree → Tree
  | .leaf k t => .leaf k (v.text k t)
  | .node k cs => .node k (seenOf v cs)
/-- A row of trees as far as it is seen. -/
def seenOf (v : Glimpse) : List Tree → List Tree
  | [] => []
  | t :: ts => seen v t :: seenOf v ts
end

variable {v : Glimpse}

theorem seenOf_eq (v : Glimpse) (ts : List Tree) : seenOf v ts = ts.map (seen v) := by
  induction ts with
  | nil => rfl
  | cons t ts ih => rw [seenOf, ih, List.map_cons]

theorem seenOf_append (v : Glimpse) (ts us : List Tree) : seenOf v (ts ++ us) = seenOf v ts ++ seenOf v us := by
  simp only [seenOf_eq, List.map_append]

theorem seenOf_reverse (v : Glimpse) (ts : List Tree) : seenOf v ts.reverse = (seenOf v ts).reverse := by
  simp only [seenOf_eq, List.map_reverse]

mutual
theorem seen_whole : (t : Tree) → seen .whole t = t
  | .leaf k t => rfl
  | .node k cs => by rw [seen, seenOf_whole cs]
theorem seenOf_whole : (ts : List Tree) → seenOf .whole ts = ts
  | [] => rfl
  | t :: ts => by rw [seenOf, seen_whole t, seenOf_whole ts]
end

/-- What is seen as a node is a node. -/
theorem exists_node_of_seenOf {k : Kind} {cs rest ts : List Tree} (h : seenOf v ts = seenOf v (.node k cs :: rest)) :
    ∃ cs' rest', ts = .node k cs' :: rest' ∧ seenOf v cs' = seenOf v cs := by
  cases ts with
  | nil => cases h
  | cons t ts =>
    obtain ⟨ht, -⟩ := List.cons.inj h
    cases t with
    | leaf k' text => cases ht
    | node k' cs' =>
      obtain ⟨rfl, hcs⟩ := Tree.node.inj ht
      exact ⟨cs', ts, rfl, hcs⟩

end Tree

namespace Parser

/-! ## Neither place nor text makes a difference to a question -/

/-- A token as if it stood at the start of the input and had no text. -/
def unplaced (t : Token) : Token := { t with start := 0, text := [] }

theorem map_unplaced {v : Glimpse} {ts us : List Token} (h : ts.map (Token.seen v) = us.map (Token.seen v)) :
    ts.map unplaced = us.map unplaced := by
  have hseen : unplaced = (fun c : Kind × Text × Bool => (⟨c.1, [], 0, c.2.2⟩ : Token)) ∘ Token.seen v := rfl
  rw [hseen, ← List.map_map, ← List.map_map, h]

theorem seenOf_leaves {v : Glimpse} {ts us : List Token} (h : ts.map (Token.seen v) = us.map (Token.seen v)) :
    Tree.seenOf v (ts.map Token.leaf) = Tree.seenOf v (us.map Token.leaf) := by
  have hseen : Tree.seen v ∘ Token.leaf = (fun c : Kind × Text × Bool => Tree.leaf c.1 c.2.1) ∘ Token.seen v := rfl
  rw [Tree.seenOf_eq, Tree.seenOf_eq, List.map_map, List.map_map, hseen, ← List.map_map, ← List.map_map, h]

theorem map_leaf {ts us : List Token} (h : ts.map Token.core = us.map Token.core) : ts.map Token.leaf = us.map Token.leaf := by
  have hseen : Tree.seenOf .whole (ts.map Token.leaf) = Tree.seenOf .whole (us.map Token.leaf) := seenOf_leaves h
  rwa [Tree.seenOf_whole, Tree.seenOf_whole] at hseen

namespace Lookahead

theorem significant_map (overNewlines : Bool) (ts : List Token) :
    significant overNewlines (ts.map unplaced) = (significant overNewlines ts).map unplaced := by
  simp only [significant, List.dropWhile_map]
  rfl

theorem startsWith_map (k : Kind) (ts : List Token) : startsWith k (ts.map unplaced) = startsWith k ts := by
  cases ts <;> rfl

theorem afterString_map (ts : List Token) : afterString (ts.map unplaced) = (afterString ts).map (List.map unplaced) := by
  induction ts with
  | nil => rfl
  | cons t ts ih =>
    simp only [List.map_cons, afterString, ih, unplaced]
    split
    · rfl
    · split <;> rfl

theorem isObject_map (ts : List Token) : isObject (ts.map unplaced) = isObject ts := by
  simp only [isObject, significant_map]
  cases significant true ts with
  | nil => rfl
  | cons t rest =>
    simp only [List.map_cons, afterString_map]
    cases afterString rest with
    | none => rfl
    | some after =>
      simp only [Option.map_some, significant_map, startsWith_map]
      rfl

theorem isCall_map (ts : List Token) : isCall (ts.map unplaced) = isCall ts := by
  cases ts with
  | nil => rfl
  | cons t rest =>
    have hhere := significant_map false (t :: rest)
    simp only [List.map_cons] at hhere
    simp only [isCall, List.map_cons, significant_map, startsWith_map, hhere]
    rfl

theorem holds_map (q : Lookahead) (ts : List Token) : q.holds (ts.map unplaced) = q.holds ts := by
  cases q with
  | opensObject => simp only [holds, ← List.map_drop, isObject_map]
  | startsCall => simp only [holds, ← List.map_drop, isCall_map]
  | namesArgument => simp only [holds, ← List.map_drop, significant_map, startsWith_map]
  | signs number =>
    simp only [holds, ← List.map_drop]
    cases ts.drop 1 <;> rfl

theorem holds_congr {v : Glimpse} (q : Lookahead) {ts us : List Token} (h : ts.map (Token.seen v) = us.map (Token.seen v)) :
    q.holds ts = q.holds us := by
  rw [← holds_map, map_unplaced h, holds_map]

end Lookahead

/-! ## Repeated parameters -/

/-- The names of parameters are seen at every glimpse. -/
theorem map_fst_parametersOf {v : Glimpse} (offset offset' : Nat) {cs cs' : List Tree} (h : Tree.seenOf v cs' = Tree.seenOf v cs) :
    (parametersOf offset cs).map Prod.fst = (parametersOf offset' cs').map Prod.fst := by
  induction cs generalizing cs' offset offset' with
  | nil =>
    cases cs' with
    | nil => rfl
    | cons t' cs' => cases h
  | cons t cs ih =>
    cases cs' with
    | nil => cases h
    | cons t' cs' =>
      obtain ⟨ht, hcs⟩ := List.cons.inj h
      cases t with
      | node k ts =>
        cases t' with
        | leaf k' text' => cases ht
        | node k' ts' =>
          simp only [parametersOf]
          exact ih _ _ hcs
      | leaf k text =>
        cases t' with
        | node k' ts' => cases ht
        | leaf k' text' =>
          obtain ⟨rfl, htext⟩ := Tree.leaf.inj ht
          simp only [parametersOf]
          split
          · rename_i hk
            subst hk
            rw [v.name, v.name] at htext
            rw [List.map_cons, List.map_cons, ih _ _ hcs, htext]
          · exact ih _ _ hcs

theorem lookup_isSome {seen : List (Text × Span)} {name : Text} : (seen.lookup name).isSome = decide (name ∈ seen.map Prod.fst) := by
  induction seen with
  | nil => rfl
  | cons p seen ih =>
    rw [List.lookup_cons]
    by_cases h : name = p.1
    · simp [h]
    · simp [h, ih, beq_false_of_ne h]

/-- Whether a name is repeated does not depend on where the names stand. -/
theorem repeatedParameters_eq_nil {seen seen' ps ps' : List (Text × Span)} (hseen : seen.map Prod.fst = seen'.map Prod.fst)
    (hps : ps.map Prod.fst = ps'.map Prod.fst) (h : repeatedParameters seen ps = []) : repeatedParameters seen' ps' = [] := by
  induction ps generalizing seen seen' ps' with
  | nil =>
    rw [List.map_nil, eq_comm, List.map_eq_nil_iff] at hps
    rw [hps]
    rfl
  | cons p ps ih =>
    obtain ⟨p', ps', rfl, hname, hrest⟩ := List.map_eq_cons_iff.mp hps.symm
    obtain ⟨name, span⟩ := p
    obtain ⟨name', span'⟩ := p'
    obtain rfl : name' = name := hname
    have hlookup : (seen'.lookup name').isSome = (seen.lookup name').isSome := by rw [lookup_isSome, lookup_isSome, hseen]
    rw [repeatedParameters] at h ⊢
    cases hfirst : seen.lookup name' with
    | some first =>
      rw [hfirst] at h
      cases h
    | none =>
      rw [hfirst] at h hlookup
      rw [Option.isSome_none, Option.isSome_eq_false_iff, Option.isNone_iff_eq_none] at hlookup
      rw [hlookup]
      exact ih (by simp only [List.map_append, hseen, List.map_cons]) hrest.symm h

/-! ## Two states -/

variable {α β : Type} {v : Glimpse}

/-- The second state stands where the first does, after the trees `pre`. These are children of the innermost node, and the
latest of them is a leaf. It is at least as deep as the first, and has as many levels to go. -/
structure Echoes (v : Glimpse) (pre : List Tree) (s s' : State) : Prop where
  unread : s'.unread.map (Token.seen v) = s.unread.map (Token.seen v)
  held : s'.held.map (Token.seen v) = s.held.map (Token.seen v)
  label : pre = [] → s'.top.label = s.top.label
  built : Tree.seenOf v s'.top.built = Tree.seenOf v (s.top.built ++ pre)
  labelled : pre ≠ [] → s.top.label ≠ none
  leaf : ∀ t ∈ pre.head?, ∃ k text, t = .leaf k text
  delimiters : s'.delimiters.length = s.delimiters.length
  separating : s'.separating = s.separating
  depth : s.depth ≤ s'.depth
  room : s'.depth + s.limit ≤ s.depth + s'.limit
  overflowed : s'.overflowed = s.overflowed
  fuel : s'.fuel = s.fuel
  exhausted : s'.exhausted = s.exhausted

namespace Echoes

variable {pre : List Tree} {s s' : State}

/-- Where all is seen, the second state has built what the first has, after the trees. -/
theorem built_eq (h : Echoes .whole pre s s') : s'.top.built = s.top.built ++ pre := by
  rw [← Tree.seenOf_whole s'.top.built, h.built, Tree.seenOf_whole]

theorem skip (h : Echoes v pre s s') : Echoes v pre s.skip s'.skip := by
  have hskips (u : State) : u.skips = (fun c : Kind × Text × Bool => c.1.isTrivia || (!u.separating && c.1 = .newline)) ∘ Token.seen v := rfl
  have hpassed : (s'.unread.takeWhile s'.skips).map (Token.seen v) = (s.unread.takeWhile s.skips).map (Token.seen v) := by
    rw [hskips, hskips, ← List.takeWhile_map, ← List.takeWhile_map, h.unread, h.separating]
  have hleft : (s'.unread.dropWhile s'.skips).map (Token.seen v) = (s.unread.dropWhile s.skips).map (Token.seen v) := by
    rw [hskips, hskips, ← List.dropWhile_map, ← List.dropWhile_map, h.unread, h.separating]
  rw [State.skip_eq, State.skip_eq]
  exact { h with unread := hleft, held := by simp only [List.map_append, h.held, hpassed] }

theorem looked (h : Echoes v pre s s') : Echoes v pre s.looked s'.looked := { h.skip with }

theorem built_held (h : Echoes v pre s s') : Tree.seenOf v ((s'.held.map Token.leaf).reverse ++ s'.top.built) =
    Tree.seenOf v ((s.held.map Token.leaf).reverse ++ s.top.built ++ pre) := by
  rw [Tree.seenOf_append, Tree.seenOf_reverse, seenOf_leaves h.held, h.built, ← Tree.seenOf_reverse, ← Tree.seenOf_append,
    List.append_assoc]

theorem drain (h : Echoes v pre s s') : Echoes v pre s.drain s'.drain := by
  rw [State.drain_eq, State.drain_eq]
  exact { h with held := rfl, built := h.built_held }

/-- A new innermost frame has nothing in it yet. -/
theorem pushed (h : Echoes v pre s s') (label : Option Kind) : Echoes v [] (s.pushed label) (s'.pushed label) := by
  refine { h.drain with label := fun _ => rfl, built := rfl, labelled := fun hne => absurd rfl hne, leaf := ?_ }
  exact fun t ht => by cases ht

theorem nextKind (h : Echoes v pre s s') : s'.nextKind = s.nextKind := by
  have hunread := h.unread
  unfold State.nextKind
  cases hs : s.unread with
  | nil =>
    rw [hs, List.map_nil, List.map_eq_nil_iff] at hunread
    rw [hunread]
  | cons t ts =>
    rw [hs, List.map_cons] at hunread
    obtain ⟨t', ts', hs', ht, -⟩ := List.map_eq_cons_iff.mp hunread
    rw [hs']
    exact congrArg Prod.fst ht

theorem isEmpty (h : Echoes v pre s s') : s'.unread.isEmpty = s.unread.isEmpty := by
  rw [← List.isEmpty_map (f := Token.seen v), h.unread, List.isEmpty_map]

/-- What comes next touches what is before it, or not. -/
theorem touches (h : Echoes v pre s s') : s'.unread.head?.any (·.immediate) = s.unread.head?.any (·.immediate) := by
  have hcore (ts : List Token) : ts.head?.any (·.immediate) = (ts.map (Token.seen v)).head?.any (·.2.2) := by cases ts <;> rfl
  rw [hcore, h.unread, hcore]

/-- If no parameter repeats a name, none does after other trees. -/
theorem parameterProblems (h : Echoes v pre s s') (hnone : s.parameterProblems = []) : s'.parameterProblems = [] := by
  unfold State.parameterProblems at hnone ⊢
  split
  · rename_i cs' rest' hs'
    have hbuilt := h.built
    rw [hs', eq_comm] at hbuilt
    obtain ⟨cs, rest, hs, hcs⟩ := Tree.exists_node_of_seenOf hbuilt
    cases hfirst : s.top.built with
    | nil =>
      rw [hfirst, List.nil_append] at hs
      obtain ⟨k, text, hleaf⟩ := h.leaf (.node .closureParams cs) (by rw [hs]; rfl)
      cases hleaf
    | cons t ts =>
      rw [hfirst, List.cons_append] at hs
      obtain ⟨rfl, -⟩ := List.cons.inj hs
      rw [hfirst] at hnone
      simp only [List.map_eq_nil_iff] at hnone ⊢
      exact repeatedParameters_eq_nil rfl (map_fst_parametersOf _ _ hcs.symm) hnone
  · rfl

end Echoes

/-! ## The judgement -/

/-- Where the two runs have come to: nothing new was reported by the second, and the frames around are as they were. -/
structure Repeated (v : Glimpse) (pre : List Tree) (s s' t t' : State) : Prop where
  echoes : Echoes v pre t t'
  below : t.below = s.below
  below' : t'.below = s'.below
  reports : t'.reports = s'.reports

theorem Repeated.refl {pre : List Tree} {s s' : State} (h : Echoes v pre s s') : Repeated v pre s s' s s' := ⟨h, rfl, rfl, rfl⟩

theorem Repeated.trans {pre : List Tree} {s s' t t' u u' : State} (h : Repeated v pre s s' t t') (h' : Repeated v pre t t' u u') :
    Repeated v pre s s' u u' :=
  ⟨h'.echoes, h'.below.trans h.below, h'.below'.trans h.below', h'.reports.trans h.reports⟩

/-- Whatever a routine returns silently by itself, it returns after other trees as well, unless it is found to be stuck. -/
def Repeats (v : Glimpse) (n : Nat) (x : Routine α) : Prop :=
  ∀ pre s s', Echoes v pre s s' → s.Steady → ∀ a t, x.run (runRule n) s = .ok (a, t) → t.Silent →
    (∃ t', x.run (runRule n) s' = .ok (a, t') ∧ Repeated v pre s s' t t') ∨ x.run (runRule n) s' = .error .stuck

namespace Repeats

variable {n : Nat}

theorem done (a : α) : Repeats v n (pure a : Routine α) := by
  intro pre s s' h _ b t hrun _
  cases hrun
  exact .inl ⟨s', rfl, .refl h⟩

theorem fail (f : Fault) : Repeats v n (.fail f : Routine α) := fun _ _ _ _ _ _ _ hrun => by cases hrun

theorem bind {x : Routine α} {f : α → Routine β} (hx : Repeats v n x) (hf : ∀ a, Repeats v n (f a)) : Repeats v n (x >>= f) := by
  intro pre s s' h hsteady b u hrun hsilent
  obtain ⟨a, t, hrun₁, hrun₂⟩ := Routine.run_bind_eq_ok.mp hrun
  have hsteady' := (respected_hushes.run hrun₁).steady hsteady
  rw [Routine.bind_eq, Routine.run_bind]
  rcases hx pre s s' h hsteady a t hrun₁ ((respected_hushes.run hrun₂).silent hsilent) with ⟨t', hrun₁', ht⟩ | hstuck
  · rw [hrun₁']
    rcases hf a pre t t' ht.echoes hsteady' b u hrun₂ hsilent with ⟨u', hrun₂', hu⟩ | hstuck
    · exact .inl ⟨u', hrun₂', ht.trans hu⟩
    · exact .inr hstuck
  · rw [hstuck]
    exact .inr rfl

/-- A single action. -/
theorem single {action : Action α} (h : ∀ pre s s' a t, Echoes v pre s s' → s.Steady → t.Silent → action.perform s = .ok (a, t) →
    (∃ t', action.perform s' = .ok (a, t') ∧ Repeated v pre s s' t t') ∨ action.perform s' = .error .stuck) :
    Repeats v n (Parser.act action) := by
  intro pre s s' hs hsteady a t hrun hsilent
  rw [Routine.run_single] at hrun ⊢
  exact h pre s s' a t hs hsteady hsilent hrun

/-- What never returns silently has nothing to repeat. -/
theorem never {x : Routine α} (h : ∀ s, Accepts n x s fun _ _ => False) : Repeats v n x :=
  fun _ s _ _ hsteady a t hrun hsilent => (h s hsteady a t hrun hsilent).elim

theorem look {pre : List Tree} {s s' u u' t : State} {a : Kind} (hs : Repeated v pre s s' u u') (h : Parser.look u = .ok (a, t)) :
    (∃ t', Parser.look u' = .ok (a, t') ∧ Repeated v pre s s' t t') ∨ Parser.look u' = .error .stuck := by
  unfold Parser.look at h ⊢
  split at h <;> cases h
  split
  · exact .inr rfl
  · rw [hs.echoes.nextKind]
    exact .inl ⟨_, rfl, { hs.echoes with }, hs.below, hs.below', hs.reports⟩

theorem skip {pre : List Tree} {s s' : State} (h : Echoes v pre s s') : Repeated v pre s s' s.skip s'.skip := by
  refine ⟨h.skip, ?_, ?_, ?_⟩ <;> rw [State.skip_eq]

theorem ahead (q : Lookahead) : Repeats v n (Parser.ahead q) := by
  refine single fun pre s s' a t h _ _ hp => ?_
  cases hp
  exact .inl ⟨s', congrArg (fun b => Except.ok (b, s')) (q.holds_congr h.unread), .refl h⟩

/-- Consuming the next token. -/
theorem advance : Repeats v n Parser.advance := by
  refine single fun pre s s' a t h _ _ hp => ?_
  obtain ⟨x, rest, hs, rfl⟩ := State.of_perform_advance hp
  have hunread := h.unread
  rw [hs, List.map_cons] at hunread
  obtain ⟨x', rest', hs', hx, hrest⟩ := List.map_eq_cons_iff.mp hunread
  have hleaf : Tree.seen v x'.leaf = Tree.seen v x.leaf := congrArg (fun c : Kind × Text × Bool => Tree.leaf c.1 c.2.1) hx
  refine .inl ⟨_, State.perform_advance hs', { h with unread := hrest, held := rfl, built := ?_, fuel := ?_, exhausted := ?_ }, rfl, rfl, rfl⟩
  · show Tree.seen v x'.leaf :: Tree.seenOf v _ = Tree.seen v x.leaf :: Tree.seenOf v _
    rw [hleaf, h.built_held]
    rfl
  · simp only [State.consumed, h.fuel]
  · simp only [State.consumed, h.fuel, h.exhausted]

theorem reportTarget (flaw : TargetFlaw) : Repeats v n (Parser.act (.reportTarget flaw)) := never fun _ => .reportTarget _ _

theorem reportUnclosed (closer : Kind) : Repeats v n (Parser.act (.reportUnclosed closer)) := by
  refine single fun pre s s' a t h hsteady hsilent hp => ?_
  have hdelimiters (u : State) : u.skip.delimiters = u.delimiters := by rw [State.skip_eq]
  simp only [Action.perform, hdelimiters] at hp ⊢
  cases hopen : s.delimiters with
  | nil =>
    have hopen' : s'.delimiters = [] := List.eq_nil_of_length_eq_zero (by rw [h.delimiters, hopen]; rfl)
    rw [hopen] at hp
    rw [hopen']
    cases hp
    exact .inl ⟨_, rfl, skip h⟩
  | cons d ds =>
    rw [hopen] at hp
    cases hp
    exact absurd hsilent.reports ((s.hushes_skip.steady hsteady).reports_report _)

theorem checkParameters : Repeats v n (Parser.act .checkParameters) := by
  refine single fun pre s s' a t h hsteady hsilent hp => ?_
  cases hp
  have hnone : s.parameterProblems = [] := by
    cases hproblems : s.parameterProblems with
    | nil => rfl
    | cons d ds =>
      have hreports := hsilent.reports
      rw [State.reportParameters_eq, hproblems, List.foldl_cons] at hreports
      exact absurd ((State.hushes_foldl_report ds _).reports hreports) (hsteady.reports_report d)
  rw [Action.perform, State.reportParameters_eq, State.reportParameters_eq, hnone, h.parameterProblems hnone]
  exact .inl ⟨s', rfl, .refl h⟩

theorem simple {action : Action α} (hsimple : action.isSimple = true) : Repeats v n (Parser.act action) := by
  cases action with
  | peek => exact single fun pre s s' a t h _ _ hp => look (skip h) hp
  | peekRaw => exact single fun pre s s' a t h _ _ hp => look (.refl h) hp
  | touches =>
    refine single fun pre s s' a t h _ _ hp => ?_
    cases hp
    exact .inl ⟨s'.skip, congrArg (fun b => Except.ok (b, s'.skip)) h.skip.touches, skip h⟩
  | ahead q => exact ahead q
  | atEnd =>
    refine single fun pre s s' a t h _ _ hp => ?_
    cases hp
    exact .inl ⟨s', congrArg (fun b => Except.ok (b, s')) h.isEmpty, .refl h⟩
  | stopped =>
    refine single fun pre s s' a t h _ _ hp => ?_
    cases hp
    exact .inl ⟨s', by rw [Action.perform, h.isEmpty, h.exhausted], .refl h⟩
  | advance => exact advance
  | report p d => exact never fun _ => .report _ _ _
  | reportUnclosed closer => exact reportUnclosed closer
  | reportTarget flaw => exact reportTarget flaw
  | checkParameters => exact checkParameters
  | pushDelimiter k =>
    refine single fun pre s s' a t h _ _ hp => ?_
    cases hp
    have hskip := skip h
    refine .inl ⟨_, rfl, { hskip.echoes with delimiters := ?_ }, hskip.below, hskip.below', hskip.reports⟩
    simp only [List.length_cons, hskip.echoes.delimiters]
  | popDelimiter =>
    refine single fun pre s s' a t h _ _ hp => ?_
    cases hp
    refine .inl ⟨_, rfl, { h with delimiters := ?_ }, rfl, rfl, rfl⟩
    simp only [List.length_drop, h.delimiters]
  | _ => cases hsimple

/-! Frames. -/

/-- Between an action that opens a frame and one that closes it. -/
theorem between {first last : Action Unit} {body : Routine α} (h : Repeats v n body)
    (hopen : ∀ pre s s' t, Echoes v pre s s' → first.perform s = .ok ((), t) → ∃ t' inner, first.perform s' = .ok ((), t') ∧
      Echoes v inner t t' ∧ t'.reports = s'.reports ∧
      ∀ u u' w, Repeated v inner t t' u u' → last.perform u = .ok ((), w) →
        ∃ w', last.perform u' = .ok ((), w') ∧ Echoes v pre w w' ∧ w.below = s.below ∧ w'.below = s'.below ∧ w'.reports = u'.reports) :
    Repeats v n (Parser.act first >>= fun _ => body >>= fun a => Parser.act last >>= fun _ => pure a) := by
  intro pre s s' hs hsteady a w hrun hsilent
  obtain ⟨_, t, hfirst, hrest⟩ := Routine.run_bind_eq_ok.mp hrun
  obtain ⟨b, u, hbody, hend⟩ := Routine.run_bind_eq_ok.mp hrest
  obtain ⟨_, x, hlast, hdone⟩ := Routine.run_bind_eq_ok.mp hend
  cases hdone
  have hsteady' := (respected_hushes.run hfirst).steady hsteady
  rw [Routine.run_single] at hfirst hlast
  obtain ⟨t', inner, hfirst', ht, hreports, hclose⟩ := hopen pre s s' t hs hfirst
  rw [Routine.bind_eq, Routine.run_bind, Routine.run_single, hfirst']
  show (∃ w', (body >>= fun a => Parser.act last >>= fun _ => pure a).run (runRule n) t' = _ ∧ _) ∨
    (body >>= fun a => Parser.act last >>= fun _ => pure a).run (runRule n) t' = _
  rw [Routine.bind_eq, Routine.run_bind]
  rcases h inner t t' ht hsteady' a u hbody ((hushes_perform hlast).silent hsilent) with ⟨u', hbody', hu⟩ | hstuck
  · obtain ⟨w', hlast', hw, hbelow, hbelow', hreports'⟩ := hclose u u' w hu hlast
    refine .inl ⟨w', ?_, hw, hbelow, hbelow', hreports'.trans (hu.reports.trans hreports)⟩
    rw [hbody']
    exact Routine.run_bind_eq_ok.mpr ⟨(), w', (Routine.run_single _ _).trans hlast', rfl⟩
  · rw [hstuck]
    exact .inr rfl

theorem drain_keeps (s : State) : s.drain.below = s.below ∧ s.drain.reports = s.reports ∧ s.drain.top.label = s.top.label := by
  rw [State.drain_eq]
  exact ⟨rfl, rfl, rfl⟩

theorem node {k : Kind} {body : Routine α} (h : Repeats v n body) : Repeats v n (Parser.node k body) := by
  refine between h fun pre s s' t hs hopen => ?_
  cases hopen
  refine ⟨_, [], s'.perform_openNode k, hs.pushed (some k), (drain_keeps s').2.1, fun u u' w hu hclose => ?_⟩
  have hdrain := hs.drain
  simp only [Action.perform, hu.below, hu.below', hu.echoes.label rfl] at hclose ⊢
  cases hlabel : u.top.label with
  | none =>
    rw [hlabel] at hclose
    cases hclose
  | some K =>
    rw [hlabel] at hclose
    cases hclose
    refine ⟨_, rfl, { hu.echoes with label := hdrain.label, built := ?_, labelled := hdrain.labelled, leaf := hdrain.leaf },
      (drain_keeps s).1, (drain_keeps s').1, rfl⟩
    show Tree.node K (Tree.seenOf v u'.top.built.reverse) :: Tree.seenOf v s'.drain.top.built =
      Tree.node K (Tree.seenOf v u.top.built.reverse) :: Tree.seenOf v (s.drain.top.built ++ pre)
    rw [Tree.seenOf_reverse, hu.echoes.built, List.append_nil, hdrain.built, ← Tree.seenOf_reverse]

theorem marked {body : Routine α} (h : Repeats v n body) : Repeats v n (Parser.marked body) := by
  refine between h fun pre s s' t hs hopen => ?_
  cases hopen
  refine ⟨_, [], s'.perform_mark, hs.pushed none, (drain_keeps s').2.1, fun u u' w hu hclose => ?_⟩
  have hdrain := hs.drain
  simp only [Action.perform, hu.below, hu.below', hu.echoes.label rfl] at hclose ⊢
  cases hlabel : u.top.label with
  | some K =>
    rw [hlabel] at hclose
    cases hclose
  | none =>
    rw [hlabel] at hclose
    cases hclose
    refine ⟨_, rfl, { hu.echoes with label := hdrain.label, built := ?_, labelled := hdrain.labelled, leaf := hdrain.leaf },
      (drain_keeps s).1, (drain_keeps s').1, rfl⟩
    show Tree.seenOf v (u'.top.built ++ s'.drain.top.built) = Tree.seenOf v (u.top.built ++ s.drain.top.built ++ pre)
    rw [Tree.seenOf_append, hu.echoes.built, List.append_nil, hdrain.built, ← Tree.seenOf_append, List.append_assoc]

/-- What is wrapped began at a mark, so there is nothing before it. -/
theorem wrapped {k : Kind} {body : Routine α} (h : Repeats v n body) : Repeats v n (Parser.wrapped k body) := by
  refine between h fun pre s s' t hs hopen => ?_
  simp only [Action.perform] at hopen ⊢
  cases hmark : s.top.label with
  | some K =>
    rw [hmark] at hopen
    cases hopen
  | none =>
    obtain rfl : pre = [] := Classical.byContradiction fun hne => hs.labelled hne hmark
    rw [hmark] at hopen
    rw [hs.label rfl, hmark]
    cases hopen
    refine ⟨_, [], rfl, { hs with label := fun _ => rfl, labelled := fun hne => absurd rfl hne }, rfl, fun u u' w hu hclose => ?_⟩
    simp only [hu.below, hu.below', hu.echoes.label rfl] at hclose ⊢
    cases hlabel : u.top.label with
    | none =>
      rw [hlabel] at hclose
      cases hclose
    | some K =>
      rw [hlabel] at hclose
      cases hclose
      refine ⟨_, rfl, { hu.echoes with label := fun _ => rfl, built := ?_, labelled := fun hne => absurd rfl hne }, rfl, rfl, rfl⟩
      show [Tree.node K (Tree.seenOf v u'.top.built.reverse)] = [Tree.node K (Tree.seenOf v u.top.built.reverse)]
      rw [Tree.seenOf_reverse, hu.echoes.built, List.append_nil, ← Tree.seenOf_reverse]

theorem setSeparating (b : Bool) : Repeats v n (Parser.act (.setSeparating b)) := by
  refine single fun pre s s' a t h _ _ hp => ?_
  cases hp
  refine .inl ⟨{ s' with separating := b }, ?_, { h with separating := rfl }, rfl, rfl, rfl⟩
  rw [Action.perform, h.separating]

theorem separating {b : Bool} {body : Routine α} (h : Repeats v n body) : Repeats v n (Parser.separating b body) :=
  .bind (.setSeparating b) fun before => .bind h fun _ => .bind (.setSeparating before) fun _ => .done _

theorem leave : Repeats v n (Parser.act .leave) := by
  refine single fun pre s s' a t h _ _ hp => ?_
  cases hp
  have hdepth := h.depth
  have hroom := h.room
  refine .inl ⟨_, rfl, { h with depth := ?_, room := ?_ }, rfl, rfl, rfl⟩
  · show s.depth - 1 ≤ s'.depth - 1
    omega
  · show s'.depth - 1 + s.limit ≤ s.depth - 1 + s'.limit
    omega

/-- A silent run has room for what it nests, and so has the other one. -/
theorem nested {body : Routine Kind} (h : Repeats v n body) : Repeats v n (Parser.nested body) := by
  intro pre s s' hs hsteady a t hrun hsilent
  obtain ⟨entry, u, henter, hrest⟩ := Routine.run_bind_eq_ok.mp hrun
  have hsilent' := (respected_hushes.run hrest).silent hsilent
  rw [Routine.run_single, State.perform_enter] at henter
  split at henter
  · rename_i hover
    cases henter
    rw [(hsteady.calm hsilent'.reports).1] at hover
    cases hover
  · rename_i hcalm
    split at henter <;> cases henter
    · rename_i hroom
      have henter' : Action.enter.perform s' = .ok (.entered, s'.deeper) := by
        rw [State.perform_enter, hs.overflowed, if_neg hcalm, if_pos (by have := hs.room; omega)]
      have hdeeper : Echoes v pre s.deeper s'.deeper := by
        refine { hs with depth := Nat.succ_le_succ hs.depth, room := ?_ }
        have := hs.room
        show s'.depth + 1 + s.limit ≤ s.depth + 1 + s'.limit
        omega
      have hsteady' := (hushes_perform (show Action.enter.perform s = .ok (.entered, s.deeper) by
        rw [State.perform_enter, if_neg hcalm, if_pos hroom])).steady hsteady
      have hinside : Repeats v n (body >>= fun k => Parser.act .leave >>= fun _ => pure k) := .bind h fun _ => .bind .leave fun _ => .done _
      unfold Parser.nested
      rw [Routine.bind_eq, Routine.run_bind, Routine.run_single, henter']
      rcases hinside pre _ _ hdeeper hsteady' a t hrest hsilent with ⟨t', hrun', ht⟩ | hstuck
      · exact .inl ⟨t', hrun', ht.echoes, ht.below, ht.below', ht.reports⟩
      · exact .inr hstuck
    · exact absurd hsilent'.reports (List.cons_ne_nil _ _)

end Repeats

/-- Routines put together from those that repeat what they do repeat it, too. -/
theorem uniform_repeats {n : Nat} (hrule : ∀ {γ : Type} (r : Rule γ), Repeats v n (rule r)) : Uniform (fun {_} x => Repeats v n x) where
  done := .done
  fail := .fail
  bind := .bind
  rule := hrule
  simple := .simple
  marked := .marked
  separating _ := .separating
  nested := .nested
  node _ := .node
  wrapped _ := .wrapped
  anyNode _ := .node
  anyWrapped _ := .wrapped

/-- Every rule repeats what it does, by induction on the bound on nested rules. -/
theorem repeats_rule (n : Nat) (r : Rule α) : Repeats v n (rule r) := by
  induction n generalizing α with
  | zero => exact fun _ _ _ _ _ _ _ hrun => by cases hrun
  | succ n ih =>
    have u : Uniform fun {_} x => Repeats v n x := uniform_repeats ih
    exact uniform_grammar u (uniform_objectOrBlock u (.ahead _)) r

end Parser

end Remap
