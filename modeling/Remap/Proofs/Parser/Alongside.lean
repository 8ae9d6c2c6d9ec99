import Remap.Proofs.Parser.Echo
import Remap.Proofs.Parser.Outlook
import Remap.Proofs.Token.Layouts
import Remap.Proofs.Tree.Bare

/-!
# Two layouts read alongside

Two states read two layouts of one row of tokens. They are alongside if they stand before the same patch, what they built
differs in trivia only, and whatever offsets they remember meet. Every action that the grammar is permitted to perform gets the
same reply in both and leaves them alongside.
-/

namespace Remap

open Patch (lefts rights)

/-! ## Trees that differ in trivia -/

namespace Tree

/-- Two rows of trees, latest first, that differ in trivia only and of which both or none end with trivia. -/
structure Alike (ts ts' : List Tree) : Prop where
  bare : bareOf ts' = bareOf ts
  head : ts'.head?.map isTrivia = ts.head?.map isTrivia

namespace Alike

variable {ts ts' us us' : List Tree}

theorem refl (ts : List Tree) : Alike ts ts := ⟨rfl, rfl⟩

theorem append (h : Alike ts ts') (h' : Alike us us') : Alike (ts ++ us) (ts' ++ us') := by
  refine ⟨by rw [bareOf_append, bareOf_append, h.bare, h'.bare], ?_⟩
  have hhead := h.head
  cases ts with
  | nil =>
    cases ts' with
    | nil => exact h'.head
    | cons t' ts' => cases hhead
  | cons t ts =>
    cases ts' with
    | nil => cases hhead
    | cons t' ts' => exact hhead

theorem leaf {t t' : Token} (core : t'.core = t.core) : Alike [t.leaf] [t'.leaf] := by
  have hleaf : t'.leaf = t.leaf := congrArg (fun c : Kind × Text × Bool => Tree.leaf c.1 c.2.1) core
  rw [hleaf]
  exact .refl _

theorem node (k : Kind) (h : bareOf ts' = bareOf ts) : Alike [.node k ts] [.node k ts'] := by
  have hnode (cs : List Tree) : bareOf [.node k cs] = [.node k (bareOf cs)] := by
    rw [bareOf, if_neg (by simp [isTrivia]), Tree.bare, bareOf]
  exact ⟨by rw [hnode, hnode, h], rfl⟩

theorem symm (h : Alike ts ts') : Alike ts' ts := ⟨h.bare.symm, h.head.symm⟩

/-- Where a node comes first, one of the same kind does. -/
theorem exists_node {k : Kind} {cs rest : List Tree} (h : Alike (.node k cs :: rest) ts') :
    ∃ cs' rest', ts' = .node k cs' :: rest' ∧ bareOf cs' = bareOf cs ∧ bareOf rest' = bareOf rest := by
  have hbare := h.bare
  have hhead := h.head
  cases ts' with
  | nil => cases hhead
  | cons t' rest' =>
    have ht' : t'.isTrivia = false := Option.some.inj hhead
    rw [bareOf, bareOf, ht', if_neg Bool.false_ne_true, if_neg (by simp [isTrivia])] at hbare
    obtain ⟨hfirst, hrest⟩ := List.cons.inj hbare
    rw [Tree.bare] at hfirst
    cases t' with
    | leaf k' text' =>
      rw [Tree.bare] at hfirst
      cases hfirst
    | node k' cs' =>
      rw [Tree.bare] at hfirst
      obtain ⟨rfl, hcs⟩ := Tree.node.inj hfirst
      exact ⟨cs', rest', rfl, hcs, hrest⟩

/-- Rows of nothing but trivia. -/
theorem trivia (h : ∀ t ∈ ts, t.isTrivia = true) (h' : ∀ t ∈ ts', t.isTrivia = true) (hne : ts ≠ []) (hne' : ts' ≠ []) :
    Alike ts ts' := by
  have hnone {us : List Tree} (hus : ∀ t ∈ us, t.isTrivia = true) : bareOf us = [] := by
    rw [bareOf_eq, List.filter_eq_nil_iff.mpr (by simpa using hus), List.map_nil]
  refine ⟨by rw [hnone h, hnone h'], ?_⟩
  cases ts with
  | nil => exact absurd rfl hne
  | cons t ts =>
    cases ts' with
    | nil => exact absurd rfl hne'
    | cons t' ts' =>
      simp only [List.head?_cons, Option.map_some, h t List.mem_cons_self, h' t' List.mem_cons_self]

end Alike

/-- The two rows of patches, as leaves. -/
theorem alike_patches (bs : List Patch) : Alike ((lefts bs).map Token.leaf).reverse ((rights bs).map Token.leaf).reverse := by
  induction bs with
  | nil => exact .refl _
  | cons b bs ih =>
    simp only [Patch.lefts_cons, Patch.rights_cons, List.map_append, List.reverse_append]
    refine ih.append ?_
    cases b with
    | same t t' core => exact .leaf core
    | gap t more blank spacing size kind size' =>
      refine .trivia (fun x hx => ?_) (fun x hx => ?_) (by simp [Patch.left]) (by simp [Patch.right])
      · obtain ⟨y, hy, rfl⟩ := List.mem_map.mp (List.mem_reverse.mp hx)
        exact Kind.isTrivia_of_isSpacing (spacing y hy)
      · obtain ⟨y, hy, rfl⟩ := List.mem_map.mp (List.mem_reverse.mp hx)
        rw [List.mem_singleton.mp hy]
        show blank.kind.isTrivia = true
        rw [kind]
        rfl

end Tree

namespace Parser

variable {α : Type} {w : Layouts}

/-! ## Reading patches -/

/-- Trivia is passed over in whole patches. -/
theorem exists_passed {p : Kind → Bool} (hp : ∀ k, k.isSpacing = true → p k = true) (bs : List Patch) :
    ∃ passed rest, bs = passed ++ rest ∧
      (lefts bs).takeWhile (fun t => p t.kind) = lefts passed ∧ (lefts bs).dropWhile (fun t => p t.kind) = lefts rest ∧
      (rights bs).takeWhile (fun t => p t.kind) = rights passed ∧ (rights bs).dropWhile (fun t => p t.kind) = rights rest := by
  induction bs with
  | nil => exact ⟨[], [], rfl, rfl, rfl, rfl, rfl⟩
  | cons b bs ih =>
    have hdecide : (∀ t ∈ b.left ++ b.right, p t.kind = true) ∨
        ∃ t t' core, b = .same t t' core ∧ p t.kind = false := by
      cases b with
      | same t t' core =>
        cases ht : p t.kind with
        | true => exact .inl (by simp [Patch.left, Patch.right, ht, Patch.kind_eq core])
        | false => exact .inr ⟨t, t', core, rfl, ht⟩
      | gap t more blank spacing size kind size' =>
        refine .inl fun x hx => hp _ ?_
        rcases List.mem_append.mp hx with hx | hx
        · exact spacing x hx
        · rw [List.mem_singleton.mp hx, kind]
          rfl
    rcases hdecide with hall | ⟨t, t', core, rfl, ht⟩
    · obtain ⟨passed, rest, rfl, htake, hdrop, htake', hdrop'⟩ := ih
      have hl : ∀ t ∈ b.left, p t.kind = true := fun t ht => hall t (List.mem_append_left _ ht)
      have hr : ∀ t ∈ b.right, p t.kind = true := fun t ht => hall t (List.mem_append_right _ ht)
      refine ⟨b :: passed, rest, rfl, ?_, ?_, ?_, ?_⟩
      · rw [Patch.lefts_cons, List.takeWhile_append_of_pos hl, htake, Patch.lefts_cons]
      · rw [Patch.lefts_cons, List.dropWhile_append_of_pos hl, hdrop]
      · rw [Patch.rights_cons, List.takeWhile_append_of_pos hr, htake', Patch.rights_cons]
      · rw [Patch.rights_cons, List.dropWhile_append_of_pos hr, hdrop']
    · refine ⟨[], .same t t' core :: bs, rfl, ?_⟩
      simp [Patch.left, Patch.right, ht, Patch.kind_eq core]

namespace Lookahead

theorem exists_significant (overNewlines : Bool) (bs : List Patch) :
    ∃ rest, significant overNewlines (lefts bs) = lefts rest ∧ significant overNewlines (rights bs) = rights rest := by
  obtain ⟨-, rest, -, -, hleft, -, hright⟩ := exists_passed
    (p := fun k => k.isTrivia || (overNewlines && k = .newline)) (fun k hk => by simp [Kind.isTrivia_of_isSpacing hk]) bs
  exact ⟨rest, hleft, hright⟩

theorem startsWith_patches {k : Kind} (hk : k.isSpacing = false) (bs : List Patch) :
    startsWith k (rights bs) = startsWith k (lefts bs) := by
  cases bs with
  | nil => rfl
  | cons b bs =>
    cases b with
    | same t t' core => simp [startsWith, Patch.left, Patch.right, Patch.kind_eq core]
    | gap t more blank spacing size kind size' =>
      have hne {x : Token} (hx : x.kind.isSpacing = true) : x.kind ≠ k := by
        intro heq
        rw [heq, hk] at hx
        cases hx
      have hblank : blank.kind ≠ k := hne (by rw [kind]; rfl)
      simp [startsWith, Patch.left, Patch.right, hblank, hne (spacing t List.mem_cons_self)]

theorem afterString_patches (bs : List Patch) :
    (afterString (lefts bs) = none ∧ afterString (rights bs) = none) ∨
      ∃ rest, afterString (lefts bs) = some (lefts rest) ∧ afterString (rights bs) = some (rights rest) := by
  induction bs with
  | nil => exact .inl ⟨rfl, rfl⟩
  | cons b bs ih =>
    cases b with
    | same t t' core =>
      simp only [Patch.lefts_cons, Patch.rights_cons, Patch.left, Patch.right, List.singleton_append, afterString,
        Patch.kind_eq core]
      split
      · exact .inr ⟨bs, rfl, rfl⟩
      · split
        · exact .inl ⟨rfl, rfl⟩
        · exact ih
    | gap t more blank spacing size kind size' =>
      have hpass {xs : List Token} (hxs : ∀ x ∈ xs, x.kind.isSpacing = true) (ts : List Token) :
          afterString (xs ++ ts) = afterString ts := by
        induction xs with
        | nil => rfl
        | cons x xs ihx =>
          have hx := hxs x List.mem_cons_self
          rw [List.cons_append, afterString, if_neg (fun hk => by rw [hk] at hx; cases hx),
            if_neg (fun hk => by rw [hk] at hx; cases hx), ihx fun y hy => hxs y (List.mem_cons_of_mem _ hy)]
      have hblank : ∀ x ∈ [blank], x.kind.isSpacing = true := by
        intro x hx
        rw [List.mem_singleton.mp hx, kind]
        rfl
      rw [Patch.lefts_cons, Patch.rights_cons, Patch.left, Patch.right, hpass spacing, hpass hblank]
      exact ih

theorem isObject_patches (bs : List Patch) : isObject (rights bs) = isObject (lefts bs) := by
  obtain ⟨rest, hleft, hright⟩ := exists_significant true bs
  unfold isObject
  rw [hleft, hright]
  cases rest with
  | nil => rfl
  | cons b rest =>
    cases b with
    | same t t' core =>
      simp only [Patch.lefts_cons, Patch.rights_cons, Patch.left, Patch.right, List.singleton_append, Patch.kind_eq core]
      rcases afterString_patches rest with ⟨hnone, hnone'⟩ | ⟨after, hsome, hsome'⟩
      · rw [hnone, hnone']
      · obtain ⟨more, hmore, hmore'⟩ := exists_significant true after
        rw [hsome, hsome']
        simp only [hmore, hmore', startsWith_patches (show Kind.colon.isSpacing = false from rfl)]
    | gap t more blank spacing size kind size' =>
      have ht := spacing t List.mem_cons_self
      have hclose : t.kind ≠ .braceClose := fun hk => by rw [hk] at ht; cases ht
      have hquote : t.kind ≠ .doubleQuote := fun hk => by rw [hk] at ht; cases ht
      simp [Patch.left, Patch.right, kind, hclose, hquote]

theorem isCall_patches (bs : List Patch) : isCall (rights bs) = isCall (lefts bs) := by
  have hparen (cs : List Patch) :
      startsWith .parenOpen (significant false (rights cs)) = startsWith .parenOpen (significant false (lefts cs)) := by
    obtain ⟨rest, hleft, hright⟩ := exists_significant false cs
    rw [hleft, hright, startsWith_patches rfl]
  cases bs with
  | nil => rfl
  | cons b bs =>
    have hhere := hparen (b :: bs)
    cases b with
    | same t t' core =>
      have himmediate : t'.immediate = t.immediate := congrArg (·.2.2) core
      simp only [Patch.lefts_cons, Patch.rights_cons, Patch.left, Patch.right, List.singleton_append] at hhere ⊢
      simp only [isCall, Patch.kind_eq core, himmediate, hparen, hhere]
    | gap t more blank spacing size kind size' =>
      have ht := spacing t List.mem_cons_self
      have hbang : t.kind ≠ .bang := fun hk => by rw [hk] at ht; cases ht
      simp only [Patch.lefts_cons, Patch.rights_cons, Patch.left, Patch.right, List.cons_append, List.nil_append] at hhere ⊢
      simpa [isCall, kind, hbang] using hhere

/-- A question about the tokens after one that both layouts have is answered alike. -/
theorem holds_patches {q : Lookahead} (hq : q.isApt = true) {t t' : Token} (bs : List Patch) :
    q.holds (t' :: rights bs) = q.holds (t :: lefts bs) := by
  cases q with
  | opensObject => exact isObject_patches bs
  | startsCall => exact isCall_patches bs
  | namesArgument =>
    obtain ⟨rest, hleft, hright⟩ := exists_significant false bs
    simp only [holds, List.drop_succ_cons, List.drop_zero, hleft, hright, startsWith_patches (show Kind.colon.isSpacing = false from rfl)]
  | signs number =>
    simp only [holds, List.drop_succ_cons, List.drop_zero]
    cases bs with
    | nil => rfl
    | cons b bs =>
      cases b with
      | same u u' core =>
        have himmediate : u'.immediate = u.immediate := congrArg (·.2.2) core
        simp [Patch.left, Patch.right, Patch.kind_eq core, himmediate]
      | gap u more blank spacing size kind size' =>
        have hnumber : number.isSpacing = false := by
          simp only [isApt, Bool.or_eq_true, decide_eq_true_eq] at hq
          rcases hq with rfl | rfl <;> rfl
        have hne {x : Token} (hx : x.kind.isSpacing = true) : x.kind ≠ number := by
          intro heq
          rw [heq, hnumber] at hx
          cases hx
        have hblank : blank.kind ≠ number := hne (by rw [kind]; rfl)
        simp [Patch.left, Patch.right, hblank, hne (spacing u List.mem_cons_self)]

end Lookahead

/-! ## States -/

/-- The same problem at offsets that meet. -/
def Agree (w : Layouts) (d d' : Diagnostic) : Prop := d'.problem = d.problem ∧ Meets w.patches d.span.start d'.span.start

/-- Frames that began at offsets that meet and hold trees that differ in trivia only. -/
structure Frame.Alike (w : Layouts) (f f' : Frame) : Prop where
  label : f'.label = f.label
  start : Meets w.patches f.start f'.start
  built : Tree.Alike f.built f'.built

namespace State

/-- The two states stand before the same patch, and nothing but layout makes a difference between them. -/
structure Alongside (w : Layouts) (s s' : State) : Prop where
  cut : ∃ done todo, w.patches = done ++ todo ∧ s.unread = lefts todo ∧ s'.unread = rights todo
  held : Tree.Alike (s.held.map Token.leaf).reverse (s'.held.map Token.leaf).reverse
  top : Frame.Alike w s.top s'.top
  below : List.Forall₂ (Frame.Alike w) s.below s'.below
  reports : List.Forall₂ (Agree w) s.reports s'.reports
  last : Option.Rel (Meets w.patches) s.lastReport s'.lastReport
  delimiters : s'.delimiters.length = s.delimiters.length
  separating : s'.separating = s.separating
  depth : s'.depth = s.depth
  limit : s'.limit = s.limit
  overflowed : s'.overflowed = s.overflowed
  patience : s'.patience = s.patience
  fuel : s.fuel = none ∧ s'.fuel = none
  exhausted : s.exhausted = false ∧ s'.exhausted = false

/-- Two states alongside, and what holds of each of them by itself. -/
structure Paired (w : Layouts) (s s' : State) : Prop extends Alongside w s s' where
  left : s.Orderly w.first
  right : s'.Orderly w.second
  steady : s.Steady

namespace Alongside

variable {s s' : State}

/-- What is passed over is passed over in whole patches. -/
theorem skip (h : Alongside w s s') : Alongside w s.skip s'.skip := by
  obtain ⟨done, todo, hsplit, hunread, hunread'⟩ := h.cut
  have hskips : s'.skips = s.skips := by
    funext t
    unfold State.skips
    rw [h.separating]
  obtain ⟨passed, rest, rfl, htake, hdrop, htake', hdrop'⟩ := exists_passed
    (p := fun k => k.isTrivia || (!s.separating && k = .newline)) (fun k hk => by simp [Kind.isTrivia_of_isSpacing hk]) todo
  change (lefts (passed ++ rest)).takeWhile s.skips = _ at htake
  change (lefts (passed ++ rest)).dropWhile s.skips = _ at hdrop
  change (rights (passed ++ rest)).takeWhile s.skips = _ at htake'
  change (rights (passed ++ rest)).dropWhile s.skips = _ at hdrop'
  rw [skip_eq, skip_eq, hskips, hunread, hunread', htake, hdrop, htake', hdrop']
  refine { h with cut := ⟨done ++ passed, rest, by rw [hsplit, List.append_assoc], rfl, rfl⟩, held := ?_ }
  simp only [List.map_append, List.reverse_append]
  exact (Tree.alike_patches passed).append h.held

theorem drain (h : Alongside w s s') : Alongside w s.drain s'.drain := by
  rw [drain_eq, drain_eq]
  exact { h with held := .refl _, top := ⟨h.top.label, h.top.start, h.held.append h.top.built⟩ }

/-- A new frame begins at the front. -/
theorem pushed (h : Alongside w s s') (hfront : Meets w.patches s.front s'.front) (label : Option Kind) :
    Alongside w (s.pushed label) (s'.pushed label) := by
  have hdrain := h.drain
  have hplaced (u : State) : u.drain.placed = u.front := by
    rw [drain_eq]
    rfl
  refine { hdrain with top := ⟨rfl, ?_, .refl _⟩, below := .cons hdrain.top hdrain.below }
  show Meets w.patches s.drain.placed s'.drain.placed
  rw [hplaced, hplaced]
  exact hfront

/-- Whether a report is left out depends on which offsets are the same. -/
theorem mutes (h : Alongside w s s') {o o' : Nat} (hmeets : Meets w.patches o o') : s'.mutes o' = s.mutes o := by
  unfold State.mutes
  rw [h.overflowed]
  refine congrArg (s.overflowed || ·) (decide_eq_decide.mpr ?_)
  have hlast := h.last
  cases hs : s.lastReport with
  | none =>
    rw [hs] at hlast
    generalize s'.lastReport = last at hlast ⊢
    cases hlast
    simp
  | some n =>
    rw [hs] at hlast
    generalize s'.lastReport = last at hlast ⊢
    cases hlast with
    | some hn =>
      rw [Option.some.injEq, Option.some.injEq]
      exact (hn.eq_iff hmeets).symm

theorem report (h : Alongside w s s') {d d' : Diagnostic} (hd : Agree w d d') : Alongside w (s.report d) (s'.report d') := by
  rw [report_eq, report_eq, h.mutes hd.2]
  cases s.mutes d.span.start with
  | true => exact { h with }
  | false => exact { h with reports := .cons hd h.reports, last := .some hd.2 }

theorem foldl_report (h : Alongside w s s') {ds ds' : List Diagnostic} (hds : List.Forall₂ (Agree w) ds ds') :
    Alongside w (ds.foldl State.report s) (ds'.foldl State.report s') := by
  induction hds generalizing s s' with
  | nil => exact h
  | cons hd _ ih => exact ih (h.report hd)

theorem isEmpty (h : Alongside w s s') : s'.unread.isEmpty = s.unread.isEmpty := by
  obtain ⟨done, todo, -, hunread, hunread'⟩ := h.cut
  rw [hunread, hunread']
  cases todo with
  | nil => rfl
  | cons b bs => cases b <;> rfl

/-- Where nothing is passed over, both states stand before a token of both layouts, or at the end. -/
theorem next (h : Alongside w s s') (hready : s.Ready) : (s.unread = [] ∧ s'.unread = []) ∨
    ∃ done todo t t' core, w.patches = done ++ .same t t' core :: todo ∧ s.unread = t :: lefts todo ∧ s'.unread = t' :: rights todo := by
  obtain ⟨done, todo, hsplit, hunread, hunread'⟩ := h.cut
  cases todo with
  | nil => exact .inl ⟨hunread, hunread'⟩
  | cons b bs =>
    cases b with
    | same t t' core => exact .inr ⟨done, bs, t, t', core, hsplit, hunread, hunread'⟩
    | gap t more blank spacing size kind size' =>
      have hskips := hready t (more ++ lefts bs) hunread
      simp [State.skips, Kind.isTrivia_of_isSpacing (spacing t List.mem_cons_self)] at hskips

theorem nextKind (h : Alongside w s s') (hready : s.Ready) : s'.nextKind = s.nextKind := by
  unfold State.nextKind
  rcases h.next hready with ⟨hunread, hunread'⟩ | ⟨_, _, t, t', core, -, hunread, hunread'⟩
  · rw [hunread, hunread']
  · rw [hunread, hunread']
    exact Patch.kind_eq core

theorem immediate (h : Alongside w s s') (hready : s.Ready) :
    s'.unread.head?.any (·.immediate) = s.unread.head?.any (·.immediate) := by
  rcases h.next hready with ⟨hunread, hunread'⟩ | ⟨_, _, t, t', core, -, hunread, hunread'⟩
  · rw [hunread, hunread']
  · rw [hunread, hunread']
    exact congrArg (·.2.2) core

/-- A look at the next token uses up some patience in both states. -/
theorem look (h : Alongside w s s') {t : State} {k : Kind} (hlook : Parser.look s = .ok (k, t)) :
    k = s.nextKind ∧ t.unread = s.unread ∧
      ∃ t', Parser.look s' = .ok (s'.nextKind, t') ∧ t'.unread = s'.unread ∧ Alongside w t t' := by
  unfold Parser.look at hlook ⊢
  rw [h.patience]
  split at hlook
  · cases hlook
  · rename_i hpatience
    cases hlook
    rw [if_neg hpatience]
    exact ⟨rfl, rfl, _, rfl, rfl, { h with patience := rfl }⟩

/-- Consuming a token of both layouts. -/
theorem consumed (h : Alongside w s s') {done todo : List Patch} {t t' : Token} {core : t'.core = t.core}
    (hsplit : w.patches = done ++ .same t t' core :: todo) :
    Alongside w (s.consumed t (lefts todo)) (s'.consumed t' (rights todo)) := by
  refine { h with
    cut := ⟨done ++ [.same t t' core], todo, by rw [hsplit, List.append_assoc]; rfl, rfl, rfl⟩
    held := .refl _
    top := ⟨h.top.label, h.top.start, (Tree.Alike.leaf core).append (h.held.append h.top.built)⟩
    patience := rfl
    fuel := ⟨?_, ?_⟩
    exhausted := ⟨?_, ?_⟩ }
  · simp only [State.consumed, h.fuel.1, Option.map_none]
  · simp only [State.consumed, h.fuel.2, Option.map_none]
  · simp [State.consumed, h.fuel.1, h.exhausted.1]
  · simp [State.consumed, h.fuel.2, h.exhausted.2]

end Alongside

/-- The fronts of two paired states meet. -/
theorem Paired.front {s s' : State} (h : Paired w s s') : Meets w.patches s.front s'.front := by
  obtain ⟨done, todo, hsplit, hunread, hunread'⟩ := h.cut
  have hleft := front_add_unread h.left.reading
  have hright := front_add_unread h.right.reading
  rw [← w.lefts_eq, hsplit, hunread, Patch.lefts_append, sizeOfTokens_append] at hleft
  rw [← w.rights_eq, hsplit, hunread', Patch.rights_append, sizeOfTokens_append] at hright
  have hmeets : Meets (done ++ todo) (sizeOfTokens (lefts done) + 0) (sizeOfTokens (rights done) + 0) := (Meets.zero todo).append
  rw [← hsplit, Nat.add_zero, Nat.add_zero] at hmeets
  rw [Nat.add_right_cancel hleft, Nat.add_right_cancel hright]
  exact hmeets

end State

/-! ## Repeated parameters -/

mutual
theorem leaves_bare : (t : Tree) → t.isTrivia = false → t.bare.leaves = t.leaves.filter (!·.1.isTrivia)
  | .leaf k text, h => by
    have hk : k.isTrivia = false := h
    rw [Tree.bare, Tree.leaves, List.filter_cons_of_pos (by simp [hk]), List.filter_nil]
  | .node k cs, _ => by rw [Tree.bare, Tree.leaves, Tree.leaves, leavesOf_bareOf cs]
/-- The bare form keeps all leaves but trivia. -/
theorem leavesOf_bareOf : (ts : List Tree) → Tree.leavesOf (Tree.bareOf ts) = (Tree.leavesOf ts).filter (!·.1.isTrivia)
  | [] => rfl
  | t :: ts => by
    rw [Tree.bareOf, Tree.leavesOf, List.filter_append]
    cases ht : t.isTrivia with
    | true =>
      cases t with
      | node k cs => cases ht
      | leaf k text =>
        have hk : k.isTrivia = true := ht
        rw [if_pos rfl, leavesOf_bareOf ts, Tree.leaves, List.filter_cons_of_neg (by simp [hk]), List.filter_nil, List.nil_append]
    | false => rw [if_neg Bool.false_ne_true, Tree.leavesOf, leaves_bare t ht, leavesOf_bareOf ts]
end

/-- Trivia names no parameter. -/
theorem parametersOf_trivia {ts : List Tree} (h : ∀ t ∈ ts, t.isTrivia = true) (offset : Nat) (cs : List Tree) :
    parametersOf offset (ts ++ cs) = parametersOf (offset + (spelled (Tree.leavesOf ts)).bytes) cs := by
  induction ts generalizing offset with
  | nil => rfl
  | cons t ts ih =>
    cases t with
    | node k cs => cases h _ List.mem_cons_self
    | leaf k text =>
      have hk : k.isTrivia = true := h _ List.mem_cons_self
      have hne : k ≠ .id := fun heq => by rw [heq] at hk; cases hk
      rw [List.cons_append, parametersOf, if_neg hne, ih fun t ht => h t (List.mem_cons_of_mem _ ht)]
      simp only [Tree.leavesOf, Tree.leaves, List.singleton_append, spelled_cons, Text.bytes_append, Nat.add_assoc]

/-- The first tree that is no trivia, with the trivia before it. -/
theorem exists_of_bareOf {ts us : List Tree} {u : Tree} (h : Tree.bareOf ts = u :: us) :
    ∃ blanks t rest, ts = blanks ++ t :: rest ∧ (∀ x ∈ blanks, x.isTrivia = true) ∧ t.isTrivia = false ∧ t.bare = u ∧
      Tree.bareOf rest = us := by
  induction ts with
  | nil => cases h
  | cons t ts ih =>
    rw [Tree.bareOf] at h
    cases ht : t.isTrivia with
    | true =>
      rw [ht, if_pos rfl] at h
      obtain ⟨blanks, x, rest, rfl, hblanks, hx, hbare, hrest⟩ := ih h
      exact ⟨t :: blanks, x, rest, rfl, List.forall_mem_cons.mpr ⟨ht, hblanks⟩, hx, hbare, hrest⟩
    | false =>
      rw [ht, if_neg Bool.false_ne_true] at h
      obtain ⟨hbare, hrest⟩ := List.cons.inj h
      exact ⟨[], t, ts, rfl, fun _ hx => absurd hx List.not_mem_nil, ht, hbare, hrest⟩

/-- Parameters of one name at offsets that meet. -/
def SameParameter (w : Layouts) (x x' : Text × Span) : Prop := x'.1 = x.1 ∧ Meets w.patches x.2.start x'.2.start

/-- The parameters among trees that differ in trivia only. The trees stand after the same leaves, trivia apart. -/
theorem parametersOf_alike {xs xs' ys ys' : List (Kind × Text)} {us cs cs' : List Tree} (hcs : Tree.bareOf cs = us)
    (hcs' : Tree.bareOf cs' = us) (hleft : (lefts w.patches).map Token.piece = xs ++ (Tree.leavesOf cs ++ ys))
    (hright : (rights w.patches).map Token.piece = xs' ++ (Tree.leavesOf cs' ++ ys'))
    (hsolids : xs'.filter (!·.1.isTrivia) = xs.filter (!·.1.isTrivia)) :
    List.Forall₂ (SameParameter w) (parametersOf (spelled xs).bytes cs) (parametersOf (spelled xs').bytes cs') := by
  induction us generalizing cs cs' xs xs' with
  | nil =>
    have hnone {ts : List Tree} (hts : Tree.bareOf ts = []) (offset : Nat) : parametersOf offset ts = [] := by
      have htrivia : ∀ t ∈ ts, t.isTrivia = true := by
        rw [Tree.bareOf_eq, List.map_eq_nil_iff, List.filter_eq_nil_iff] at hts
        exact fun t ht => by simpa using hts t ht
      have := parametersOf_trivia htrivia offset []
      rwa [List.append_nil] at this
    rw [hnone hcs, hnone hcs']
    exact .nil
  | cons u us ih =>
    obtain ⟨blanks, t, rest, rfl, hblanks, ht, hbare, hrest⟩ := exists_of_bareOf hcs
    obtain ⟨blanks', t', rest', rfl, hblanks', ht', hbare', hrest'⟩ := exists_of_bareOf hcs'
    have hnone {bs : List Tree} (hbs : ∀ x ∈ bs, x.isTrivia = true) : (Tree.leavesOf bs).filter (!·.1.isTrivia) = [] := by
      rw [← leavesOf_bareOf, Tree.bareOf_eq, List.filter_eq_nil_iff.mpr (by simpa using hbs)]
      rfl
    -- the first tree stands after the same leaves, trivia apart, and so do the trees after it
    have hhere : (xs' ++ Tree.leavesOf blanks').filter (!·.1.isTrivia) = (xs ++ Tree.leavesOf blanks).filter (!·.1.isTrivia) := by
      rw [List.filter_append, List.filter_append, hsolids, hnone hblanks, hnone hblanks']
    have hafter : (xs' ++ Tree.leavesOf blanks' ++ t'.leaves).filter (!·.1.isTrivia) =
        (xs ++ Tree.leavesOf blanks ++ t.leaves).filter (!·.1.isTrivia) := by
      rw [List.filter_append, hhere, ← leaves_bare t' ht', hbare', ← hbare, leaves_bare t ht, ← List.filter_append]
    have hleft' : (lefts w.patches).map Token.piece = xs ++ Tree.leavesOf blanks ++ t.leaves ++ (Tree.leavesOf rest ++ ys) := by
      simpa [Tree.leavesOf_append, Tree.leavesOf] using hleft
    have hright' : (rights w.patches).map Token.piece =
        xs' ++ Tree.leavesOf blanks' ++ t'.leaves ++ (Tree.leavesOf rest' ++ ys') := by
      simpa [Tree.leavesOf_append, Tree.leavesOf] using hright
    have hmore := ih hrest hrest' hleft' hright' hafter
    have hbytes (zs : List (Kind × Text)) (bs : List Tree) :
        (spelled zs).bytes + (spelled (Tree.leavesOf bs)).bytes = (spelled (zs ++ Tree.leavesOf bs)).bytes := by
      rw [spelled_append, Text.bytes_append]
    have hnext (zs : List (Kind × Text)) (x : Tree) : (spelled zs).bytes + x.bytes = (spelled (zs ++ x.leaves)).bytes := by
      rw [spelled_append, Text.bytes_append, Tree.bytes_eq_spelled]
    rw [parametersOf_trivia hblanks, parametersOf_trivia hblanks', hbytes, hbytes]
    cases t with
    | node k cs =>
      cases t' with
      | leaf k' text' =>
        rw [Tree.bare] at hbare'
        rw [← hbare', Tree.bare] at hbare
        cases hbare
      | node k' cs' =>
        rw [parametersOf, parametersOf, hnext, hnext]
        · exact hmore
        · exact fun _ _ h => by cases h
        · exact fun _ _ h => by cases h
    | leaf k text =>
      cases t' with
      | node k' cs' =>
        rw [Tree.bare] at hbare'
        rw [← hbare', Tree.bare] at hbare
        cases hbare
      | leaf k' text' =>
        rw [Tree.bare] at hbare'
        rw [← hbare', Tree.bare] at hbare
        cases hbare
        have hmeets := meets_of_solids (by simpa [Tree.leaves] using hleft') (by simpa [Tree.leaves] using hright')
          (show (k, text).1.isTrivia = false from ht) (show (k, text).1.isTrivia = false from ht) hhere
        have hsize (zs : List (Kind × Text)) : (spelled zs).bytes + text.bytes = (spelled (zs ++ (Tree.leaf k text).leaves)).bytes :=
          hnext zs (.leaf k text)
        rw [parametersOf, parametersOf, hsize, hsize]
        split
        · exact .cons ⟨rfl, hmeets⟩ hmore
        · exact hmore

/-- Which parameters repeat a name depends on the names alone. -/
theorem repeatedParameters_alike {seen seen' xs xs' : List (Text × Span)} (hseen : seen'.map Prod.fst = seen.map Prod.fst)
    (h : List.Forall₂ (SameParameter w) xs xs') :
    List.Forall₂ (fun x x' => Meets w.patches x.2.1.start x'.2.1.start) (repeatedParameters seen xs)
      (repeatedParameters seen' xs') := by
  induction h generalizing seen seen' with
  | nil => exact .nil
  | @cons x x' xs xs' hx _ ih =>
    obtain ⟨name, span⟩ := x
    obtain ⟨name', span'⟩ := x'
    obtain ⟨rfl, hmeets⟩ := hx
    have hlookup : (seen'.lookup name').isSome = (seen.lookup name').isSome := by rw [lookup_isSome, lookup_isSome, hseen]
    simp only [repeatedParameters]
    cases hfirst : seen.lookup name' with
    | some first =>
      rw [hfirst, Option.isSome_some, Option.isSome_iff_exists] at hlookup
      obtain ⟨first', hfirst'⟩ := hlookup
      rw [hfirst']
      exact .cons hmeets (ih hseen)
    | none =>
      rw [hfirst, Option.isSome_none, Option.isSome_eq_false_iff, Option.isNone_iff_eq_none] at hlookup
      rw [hlookup]
      exact ih (by simp only [List.map_append, hseen, List.map_cons])

theorem bareOf_treesOfFrames {fs fs' : List Frame} (h : List.Forall₂ (Frame.Alike w) fs fs') :
    Tree.bareOf (treesOfFrames fs') = Tree.bareOf (treesOfFrames fs) := by
  induction h with
  | nil => rfl
  | cons hf _ ih =>
    rw [treesOfFrames, treesOfFrames, Tree.bareOf_append, Tree.bareOf_append, ih, Tree.bareOf_reverse, Tree.bareOf_reverse, hf.built.bare]

/-- What comes before the node just built, and where it begins. -/
theorem State.Reading.exists_built {tokens : List Token} {s : State} (h : s.Reading tokens) {k : Kind} {cs rest : List Tree}
    (hbuilt : s.top.built = .node k cs :: rest) :
    ∃ ys, tokens.map Token.piece = Tree.leavesOf (treesOfFrames s.below ++ rest.reverse) ++ (Tree.leavesOf cs ++ ys) ∧
      s.placed - Tree.bytesOf cs = (spelled (Tree.leavesOf (treesOfFrames s.below ++ rest.reverse))).bytes := by
  have hforest : s.forest = treesOfFrames s.below ++ rest.reverse ++ [.node k cs] := by
    rw [forest, treesOfFrames, hbuilt, List.reverse_cons, List.append_assoc]
  refine ⟨(s.held ++ s.unread).map Token.piece, ?_, ?_⟩
  · rw [← h.leaves, State.leaves, ← leavesOf_treesOfFrames]
    change Tree.leavesOf s.forest ++ _ = _
    rw [hforest, Tree.leavesOf_append _ [_], List.append_assoc]
    simp only [Tree.leavesOf, Tree.leaves, List.append_nil]
  · have hsized : s.placed = Tree.bytesOf s.forest := h.sized
    rw [hsized, hforest, Tree.bytesOf_append, ← Tree.bytesOf_eq_spelled]
    simp [Tree.bytesOf, Tree.bytes]

/-- The same parameters are found to repeat a name. -/
theorem State.Paired.parameterProblems {s s' : State} (h : Paired w s s') :
    List.Forall₂ (Agree w) s.parameterProblems s'.parameterProblems := by
  have hbuilt := h.top.built
  unfold State.parameterProblems
  split
  · rename_i cs rest hs
    rw [hs] at hbuilt
    obtain ⟨cs', rest', hs', hcs, hrest⟩ := hbuilt.exists_node
    obtain ⟨ys, hleft, hstart⟩ := h.left.reading.exists_built hs
    obtain ⟨ys', hright, hstart'⟩ := h.right.reading.exists_built hs'
    rw [← w.lefts_eq] at hleft
    rw [← w.rights_eq] at hright
    have hsolids : (Tree.leavesOf (treesOfFrames s'.below ++ rest'.reverse)).filter (!·.1.isTrivia) =
        (Tree.leavesOf (treesOfFrames s.below ++ rest.reverse)).filter (!·.1.isTrivia) := by
      rw [← leavesOf_bareOf, ← leavesOf_bareOf, Tree.bareOf_append, Tree.bareOf_append, Tree.bareOf_reverse, Tree.bareOf_reverse,
        bareOf_treesOfFrames h.below, hrest]
    have hparameters := parametersOf_alike rfl hcs hleft hright hsolids
    rw [← hstart, ← hstart'] at hparameters
    have hnone : ([] : List (Text × Span)).map Prod.fst = ([] : List (Text × Span)).map Prod.fst := rfl
    have hrepeated := repeatedParameters_alike hnone hparameters
    simp only [hs']
    exact List.forall₂_map_left_iff.mpr (List.forall₂_map_right_iff.mpr (hrepeated.imp fun _ _ hx => ⟨rfl, hx⟩))
  · rename_i hnone
    split
    · rename_i cs' rest' hs'
      rw [hs'] at hbuilt
      obtain ⟨cs, rest, hs, -⟩ := hbuilt.symm.exists_node
      exact absurd hs (hnone cs rest)
    · exact .nil

/-! ## Actions -/

namespace State.Paired

variable {s s' : State}

/-- What both states pass over leaves them paired. -/
theorem skip (h : Paired w s s') : Paired w s.skip s'.skip := by
  have htouches (u : State) : Action.touches.perform u = .ok (u.skip.unread.head?.any (·.immediate), u.skip) := rfl
  exact ⟨h.toAlongside.skip, (respected_orderly _).perform (htouches s) h.left, (respected_orderly _).perform (htouches s') h.right,
    s.hushes_skip.steady h.steady⟩

/-- Problems at the next token are at offsets that meet. -/
theorem here (h : Paired w s s') : Meets w.patches s.here.start s'.here.start := by
  rw [start_here h.left.reading, start_here h.right.reading]
  exact h.front

theorem isEmpty_skip (h : Paired w s s') : s'.skip.unread.isEmpty = s.skip.unread.isEmpty := h.toAlongside.skip.isEmpty

end State.Paired

open State (Alongside Paired)

/-- An action that the grammar is permitted to perform, outside strings, gets the same reply in both states and leaves them
alongside. -/
theorem alongside_perform {action : Action α} {σ : Outlook} {s s' t : State} {a : α} (h : action.perform s = .ok (a, t))
    (hpermits : action.permits σ = true) (hraw : σ.raw = false) (hfresh : σ.fresh = true → s.Ready) (hs : Paired w s s') :
    ∃ t', action.perform s' = .ok (a, t') ∧ Alongside w t t' := by
  have hskip := hs.toAlongside.skip
  cases action with
  | peek =>
    obtain ⟨rfl, -, t', hlook, -, ht⟩ := hskip.look h
    exact ⟨t', hskip.nextKind s.ready_skip ▸ hlook, ht⟩
  | peekRaw =>
    simp [Action.permits, hraw] at hpermits
  | touches =>
    cases h
    exact ⟨s'.skip, by rw [← hskip.immediate s.ready_skip]; rfl, hskip⟩
  | ahead q =>
    cases h
    simp only [Action.permits, Bool.and_eq_true] at hpermits
    refine ⟨s', ?_, hs.toAlongside⟩
    rcases hs.next (hfresh hpermits.2) with ⟨hunread, hunread'⟩ | ⟨_, todo, t, t', core, -, hunread, hunread'⟩
    · rw [Action.perform, hunread, hunread']
    · rw [Action.perform, hunread, hunread', Lookahead.holds_patches hpermits.1]
  | atEnd =>
    cases h
    exact ⟨s', by rw [Action.perform, hs.isEmpty], hs.toAlongside⟩
  | stopped =>
    cases h
    exact ⟨s', by rw [Action.perform, hs.isEmpty, hs.exhausted.1, hs.exhausted.2], hs.toAlongside⟩
  | advance =>
    have hready : s.Ready := hfresh (by simpa [Action.permits, hraw] using hpermits)
    rcases hs.next hready with ⟨hunread, -⟩ | ⟨_, _, t, t', core, hsplit, hunread, hunread'⟩
    · simp [Action.perform, hunread] at h
    · rw [State.perform_advance hunread] at h
      cases h
      exact ⟨_, State.perform_advance hunread', hs.toAlongside.consumed hsplit⟩
  | settle =>
    cases h
    exact ⟨_, rfl, hskip.drain⟩
  | openNode k | mark =>
    cases h
    exact ⟨_, rfl, hs.toAlongside.pushed hs.front _⟩
  | closeNode =>
    simp only [Action.perform, hs.top.label] at h ⊢
    split at h <;> cases h
    rename_i k f fs hlabel hbelow
    have hframes := hs.below
    rw [hbelow] at hframes
    obtain ⟨f', fs', hf, hfs, hbelow'⟩ := List.forall₂_cons_left_iff.mp hframes
    rw [hlabel, hbelow']
    have hbuilt : Tree.bareOf s'.top.built.reverse = Tree.bareOf s.top.built.reverse := by
      rw [Tree.bareOf_reverse, Tree.bareOf_reverse, hs.top.built.bare]
    exact ⟨_, rfl, { hs.toAlongside with
      top := ⟨hf.label, hf.start, (Tree.Alike.node k hbuilt).append hf.built⟩
      below := hfs }⟩
  | wrap k =>
    simp only [Action.perform, hs.top.label] at h ⊢
    split at h <;> cases h
    rename_i hlabel
    rw [hlabel]
    exact ⟨_, rfl, { hs.toAlongside with
      top := ⟨rfl, hs.top.start, hs.top.built⟩
      below := .cons ⟨rfl, hs.top.start, .refl []⟩ hs.below }⟩
  | unmark =>
    simp only [Action.perform, hs.top.label] at h ⊢
    split at h <;> cases h
    rename_i f fs hlabel hbelow
    have hframes := hs.below
    rw [hbelow] at hframes
    obtain ⟨f', fs', hf, hfs, hbelow'⟩ := List.forall₂_cons_left_iff.mp hframes
    rw [hlabel, hbelow']
    exact ⟨_, rfl, { hs.toAlongside with
      top := ⟨hf.label, hf.start, hs.top.built.append hf.built⟩
      below := hfs }⟩
  | report p d =>
    cases h
    refine ⟨_, rfl, hskip.report ⟨?_, hs.skip.here⟩⟩
    simp only [hs.isEmpty_skip]
  | reportUnclosed closer =>
    have hlength := hskip.delimiters
    simp only [Action.perform] at h ⊢
    split at h <;> cases h
    · rename_i hnil
      rw [hnil] at hlength
      rw [List.eq_nil_of_length_eq_zero hlength]
      exact ⟨_, rfl, hskip⟩
    · rename_i d ds hcons
      rw [hcons] at hlength
      obtain ⟨d', ds', hcons'⟩ := List.exists_cons_of_length_eq_add_one hlength
      rw [hcons']
      exact ⟨_, rfl, hskip.report ⟨rfl, hs.skip.here⟩⟩
  | reportTarget flaw =>
    cases h
    exact ⟨_, rfl, hs.toAlongside.report ⟨rfl, hs.top.start⟩⟩
  | checkParameters =>
    cases h
    refine ⟨_, rfl, ?_⟩
    rw [State.reportParameters_eq, State.reportParameters_eq]
    exact hs.toAlongside.foldl_report hs.parameterProblems
  | enter =>
    rw [State.perform_enter] at h ⊢
    rw [hs.overflowed, hs.depth, hs.limit]
    split at h
    · rename_i hover
      cases h
      rw [if_pos hover]
      exact ⟨s', rfl, hs.toAlongside⟩
    · rename_i hover
      rw [if_neg hover]
      split at h <;> cases h
      · rename_i hroom
        rw [if_pos hroom]
        refine ⟨_, rfl, { hs.toAlongside with depth := ?_, patience := rfl }⟩
        show s'.depth + 1 = s.depth + 1
        rw [hs.depth]
      · rename_i hroom
        rw [if_neg hroom]
        exact ⟨_, rfl, { hskip with reports := .cons ⟨rfl, hs.skip.here⟩ hskip.reports, overflowed := rfl }⟩
  | leave =>
    cases h
    exact ⟨_, rfl, { hs.toAlongside with depth := by show s'.depth - 1 = s.depth - 1; rw [hs.depth], patience := rfl }⟩
  | pushDelimiter k =>
    cases h
    exact ⟨_, rfl, { hskip with delimiters := by simp only [List.length_cons, hskip.delimiters] }⟩
  | popDelimiter =>
    cases h
    exact ⟨_, rfl, { hs.toAlongside with delimiters := by simp only [List.length_drop, hs.delimiters] }⟩
  | setSeparating b =>
    cases h
    refine ⟨{ s' with separating := b }, ?_, { hs.toAlongside with separating := rfl }⟩
    rw [Action.perform, hs.separating]

end Parser

end Remap
