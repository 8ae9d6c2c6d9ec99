import Remap.Proofs.Parser.Builds.Strings
import Remap.Proofs.Parser.Seam

/-!
# Reading past a seam

Where the first row of tokens ends, one run finds the end of the input and the other one what stops the row, if anything does. A routine
that ends without any report in the first run either is done with its work there, and then takes that for the end of what it reads; or it
still misses something, and then it does not end without a report after all (`Mute`).

`Heads k x` is about runs of `x` in front of a token of kind `k`, `Tails x` about runs with nothing but trivia left, and
`Carries x` about both.
-/

namespace Remap.Parser

variable {α β : Type}

/-- Nothing but trivia is left to read. -/
def State.Dry (s : State) : Prop := ∀ t ∈ s.unread, t.kind.isTrivia = true

theorem State.Dry.of_suffix {s t : State} (h : s.Dry) (hsuffix : t.unread <:+ s.unread) : t.Dry :=
  fun x hx => h x (hsuffix.subset hx)

theorem State.dry_of_nil {s : State} (h : s.unread = []) : s.Dry := fun t ht => by rw [h] at ht; cases ht

/-- In a dry state the end of the input comes next. -/
theorem State.Dry.unread_looked {s : State} (h : s.Dry) : s.looked.unread = [] := by
  show s.skip.unread = []
  rw [State.unread_skip, ← List.append_nil s.unread, List.dropWhile_append_of_pos fun t ht => by simp [State.skips, h t ht],
    List.dropWhile_nil]

/-- Both runs have come to the end of the first row and passed over the trivia there. -/
def Ended {stop : Kind} (j : Seam stop) (s s' : State) : Prop :=
  s.unread = [] ∧ ∃ held, s.held = held ++ j.tail ∧ s' = s.reading j.next (held ++ j.gap)

/-- Both runs are in the first row or at its end, where newlines separate statements. -/
structure Beside {stop : Kind} (j : Seam stop) (s s' : State) : Prop where
  separating : s.separating = true
  reading : Abreast j s s' ∨ Ended j s s'

/-- Both runs are in front of a token of a kind in the first row. -/
structure Poised {stop : Kind} (j : Seam stop) (k : Kind) (s s' : State) : Prop where
  separating : s.separating = true
  abreast : Abreast j s s'
  next : ∃ t rest, s.unread = t :: rest ∧ t.kind = k ∧ k.isTrivia = false

theorem Poised.beside {stop : Kind} {j : Seam stop} {k : Kind} {s s' : State} (h : Poised j k s s') : Beside j s s' :=
  ⟨h.separating, .inl h.abreast⟩

theorem Ended.dry {stop : Kind} {j : Seam stop} {s s' : State} (h : Ended j s s') : s.Dry := State.dry_of_nil h.1

theorem stops_of_not_dry {s : State} (hseparating : s.separating = true) (h : ¬ s.Dry) : s.Stops := by
  simp only [State.Dry, Classical.not_forall] at h
  obtain ⟨t, ht, hk⟩ := h
  exact ⟨t, ht, by simp [State.skips, hseparating, hk]⟩

theorem Poised.stops {stop : Kind} {j : Seam stop} {k : Kind} {s s' : State} (h : Poised j k s s') : s.Stops := by
  obtain ⟨t, rest, hunread, hk, hsolid⟩ := h.next
  exact ⟨t, hunread ▸ List.mem_cons_self, by simp [State.skips, h.separating, hk, hsolid]⟩

theorem Poised.not_dry {stop : Kind} {j : Seam stop} {k : Kind} {s s' : State} (h : Poised j k s s') : ¬ s.Dry := by
  obtain ⟨t, rest, hunread, rfl, hsolid⟩ := h.next
  intro hdry
  rw [hdry t (hunread ▸ List.mem_cons_self)] at hsolid
  cases hsolid

theorem Poised.nextKind_looked {stop : Kind} {j : Seam stop} {k : Kind} {s s' : State} (h : Poised j k s s') : s.looked.nextKind = k := by
  obtain ⟨t, rest, hunread, hk, hsolid⟩ := h.next
  have hskips : s.skips t = false := by simp [State.skips, h.separating, hk, hsolid]
  have hlooked : s.looked.unread = t :: rest := by
    show s.skip.unread = _
    rw [State.unread_skip, hunread, List.dropWhile_cons_of_neg (by rw [hskips]; exact Bool.false_ne_true)]
  simp only [State.nextKind, hlooked, hk]

theorem State.separating_looked (s : State) : s.looked.separating = s.separating := by
  simp only [State.looked]
  rw [State.skip_eq]

theorem not_dry_looked {s : State} (hseparating : s.separating = true) (h : ¬ s.Dry) : ¬ s.looked.Dry := by
  simp only [State.Dry, Classical.not_forall] at h ⊢
  obtain ⟨t, ht, hk⟩ := h
  refine ⟨t, ?_, hk⟩
  rw [← List.takeWhile_append_dropWhile (p := s.skips) (l := s.unread)] at ht
  refine State.unread_skip s ▸ (List.mem_append.mp ht).resolve_left fun htake => hk ?_
  simpa [State.skips, hseparating] using List.all_eq_true.mp List.all_takeWhile t htake

/-- What was just looked at comes next. -/
theorem poised_looked {stop : Kind} {j : Seam stop} {s u' : State} (hseparating : s.separating = true) (h : Abreast j s.looked u')
    (hdry : ¬ s.looked.Dry) : Poised j s.looked.nextKind s.looked u' := by
  refine ⟨s.separating_looked.trans hseparating, h, ?_⟩
  cases hunread : s.looked.unread with
  | nil => exact absurd (fun t ht => by rw [hunread] at ht; cases ht) hdry
  | cons t rest =>
    refine ⟨t, rest, rfl, by simp only [State.nextKind, hunread], ?_⟩
    have hhead := List.head?_dropWhile_not s.skips s.unread
    rw [← State.unread_skip, show s.skip.unread = t :: rest from hunread] at hhead
    simpa [State.nextKind, hunread, State.skips, hseparating] using hhead

/-! ## Four judgements -/

section Judgements

variable {stop : Kind} (j : Seam stop) (n : Nat)

/-- A routine does the same in both runs, wherever they are in the first row or at its end. -/
def Carries (x : Routine α) : Prop := ∀ s s', Beside j s s' → Mirrors n x s s' fun _ t t' => Beside j t t'

/-- A routine does the same in both runs in front of a token of a kind. -/
def Heads (k : Kind) (x : Routine α) : Prop := ∀ s s', Poised j k s s' → Mirrors n x s s' fun _ t t' => Beside j t t'

/-- A routine does the same in both runs at the end of the first row. -/
def Tails (x : Routine α) : Prop := ∀ s s', Beside j s s' → s.Dry → Mirrors n x s s' fun _ t t' => Beside j t t'

/-- A routine never ends without a report where nothing is left to read. -/
def Mute (x : Routine α) : Prop := ∀ s : State, s.Dry → Accepts n x s fun _ _ => False

end Judgements

variable {stop : Kind} {j : Seam stop} {n : Nat} {k : Kind}

theorem Carries.heads {x : Routine α} (h : Carries j n x) : Heads j n k x := fun s s' hs => h s s' hs.beside

theorem Carries.tails {x : Routine α} (h : Carries j n x) : Tails j n x := fun s s' hs _ => h s s' hs

theorem Mute.tails {x : Routine α} (h : Mute n x) : Tails j n x := fun s _ _ hdry => .never (h s hdry)

/-- A silent run has room for what it nests. -/
theorem accepts_nested {body : Routine Kind} {s : State} {Q : Kind → State → Prop}
    (h : s.depth < s.limit → Accepts n (body >>= fun k => act .leave >>= fun _ => pure k) s.deeper Q) :
    Accepts n (nested body) s Q := by
  refine .bind (.single fun hsteady entry t hperform hsilent => ?_)
  rw [State.perform_enter] at hperform
  split at hperform
  · rename_i hover
    cases hperform
    rw [(hsteady.calm hsilent.reports).1] at hover
    cases hover
  · split at hperform <;> rename_i hdepth <;> cases hperform
    · exact h hdepth
    · exact absurd hsilent.reports (List.cons_ne_nil _ _)

namespace Mute

theorem bind {x : Routine α} {f : α → Routine β} (h : ∀ a, Mute n (f a)) : Mute n (x >>= f) := by
  intro s hdry hsteady b t hrun hsilent
  obtain ⟨a, u, hrun₁, hrun₂⟩ := Routine.run_bind_eq_ok.mp hrun
  exact h a u (hdry.of_suffix (respected_suffix.run hrun₁)) ((respected_hushes.run hrun₁).steady hsteady) b t hrun₂ hsilent

theorem first {x : Routine α} {f : α → Routine β} (h : Mute n x) : Mute n (x >>= f) := fun s hdry => .never (h s hdry)

theorem peek {f : Kind → Routine α} (h : Mute n (f .error)) : Mute n (Parser.peek >>= f) := by
  refine fun s hdry => .bind (.single fun _ k t hperform _ => ?_)
  obtain ⟨rfl, rfl⟩ := State.of_perform_peek hperform
  have hkind : s.looked.nextKind = .error := by simp only [State.nextKind, hdry.unread_looked]
  rw [hkind]
  exact h _ (hdry.of_suffix s.suffix_skip)

theorem never {x : Routine α} (h : ∀ s, Accepts n x s fun _ _ => False) : Mute n x := fun s _ => h s

theorem marked {x : Routine α} (h : Mute n x) : Mute n (Parser.marked x) := .bind fun _ => h.first

theorem nested {x : Routine Kind} (h : Mute n x) : Mute n (Parser.nested x) := by
  refine fun s hdry => accepts_nested fun _ => ?_
  exact .bind ((h s.deeper hdry).imp fun _ _ => False.elim)

theorem rule {r : Rule α} (h : ∀ m, Mute m (grammar r)) : Mute n (Parser.rule r) := by
  intro s hdry hsteady a t hrun hsilent
  cases n with
  | zero => cases hrun
  | succ m => exact h m s hdry hsteady a t hrun hsilent

end Mute

/-! ## How they compose -/

/-- Both runs look at the next token. -/
theorem looked_abreast {s s' : State} (h : Abreast j s s') (hseparating : s.separating = true) (hdry : ¬ s.Dry) {a : Kind} {t : State}
    (hp : Action.peek.perform s = .ok (a, t)) : ∃ t', Action.peek.perform s' = .ok (a, t') ∧ Poised j a t t' := by
  obtain ⟨t', hp', ht⟩ := perform_abreast rfl h (stops_of_not_dry hseparating hdry) hp
  obtain ⟨rfl, rfl⟩ := State.of_perform_peek hp
  exact ⟨t', hp', poised_looked hseparating ht (not_dry_looked hseparating hdry)⟩

/-- Where nothing but trivia is left, nothing is left of the first row. -/
theorem Fronts.eq_nil_of_dry {front : List Token} (h : Fronts j front) {s : State} (hunread : s.unread = front ++ j.tail)
    (hdry : s.Dry) : front = [] := by
  by_cases hne : front = []
  · exact hne
  · obtain ⟨t, ht, hk⟩ := h.firm.exists_mem hne
    rw [hdry t (hunread ▸ List.mem_append_left _ ht)] at hk
    cases hk

/-- A look is possible wherever as much patience is left. -/
theorem perform_peek_of {s s' t : State} {a : Kind} (hp : Action.peek.perform s = .ok (a, t)) (hpatience : s'.patience = s.patience) :
    Action.peek.perform s' = .ok (s'.looked.nextKind, s'.looked) := by
  have hskip (s : State) : s.skip.patience = s.patience := by rw [State.skip_eq]
  simp only [Action.perform, look, hskip, hpatience] at hp ⊢
  split at hp
  · cases hp
  · rename_i hleft
    rw [if_neg hleft]
    simp only [State.looked, hpatience]
    rfl

/-- A look passes over a row of trivia. -/
theorem looked_eq {s : State} (blanks ts : List Token) (hunread : s.unread = blanks ++ ts)
    (hblanks : ∀ t ∈ blanks, t.kind.isTrivia = true) (hts : ∀ t ∈ ts.head?, s.skips t = false) :
    s.looked = { s with unread := ts, held := s.held ++ blanks, patience := s.patience - 1 } := by
  have hpassed : ∀ t ∈ blanks, s.skips t = true := fun t ht => by simp [State.skips, hblanks t ht]
  have hstop : ts.takeWhile s.skips = [] ∧ ts.dropWhile s.skips = ts := by
    cases ts with
    | nil => exact ⟨rfl, rfl⟩
    | cons t ts => simp [hts t rfl]
  simp only [State.looked, State.skip_eq, hunread, List.takeWhile_append_of_pos hpassed, List.dropWhile_append_of_pos hpassed, hstop,
    List.append_nil]

/-- Passing over the trivia at the end of the first row. -/
theorem ended_looked {s s' : State} (h : Beside j s s') (hdry : s.Dry) :
    Ended j s.looked s'.looked ∧ s'.looked.nextKind = stop ∧ s'.patience = s.patience := by
  have hstop : ∀ t ∈ j.next.head?, s.skips t = false := by
    intro t ht
    have hne : t.kind = stop := j.kind_of_mem_next t ht
    simp [State.skips, h.separating, hne, j.solid]
  have hkind {v : State} (hunread : v.unread = j.next) : v.nextKind = stop := by
    rw [← j.next_kind, State.nextKind, hunread]
    cases j.next <;> rfl
  rcases h.reading with ⟨front, hfronts, hunread, rfl⟩ | ⟨hnil, held, htail, rfl⟩
  · obtain rfl := hfronts.eq_nil_of_dry hunread hdry
    rw [looked_eq j.tail [] (by rw [hunread]; simp) j.tail_trivia (fun _ ht => by cases ht),
      looked_eq (s := s.reading ([] ++ j.rest) s.held) j.gap j.next rfl j.gap_trivia hstop]
    exact ⟨⟨rfl, s.held, rfl, rfl⟩, hkind rfl, rfl⟩
  · rw [looked_eq [] [] hnil (fun _ ht => by cases ht) (fun _ ht => by cases ht),
      looked_eq (s := s.reading j.next (held ++ j.gap)) [] j.next rfl (fun _ ht => by cases ht) hstop]
    exact ⟨⟨rfl, held, by rw [List.append_nil, htail], by rw [List.append_nil]; rfl⟩, hkind rfl, rfl⟩

/-- At the end of the first row the other run finds what stops it. -/
theorem looked_ended {s s' : State} (h : Beside j s s') (hdry : s.Dry) {a : Kind} {t : State} (hp : Action.peek.perform s = .ok (a, t)) :
    a = .error ∧ ∃ t', Action.peek.perform s' = .ok (stop, t') ∧ Beside j t t' ∧ t.Dry := by
  obtain ⟨hended, hkind, hpatience⟩ := ended_looked h hdry
  obtain ⟨rfl, rfl⟩ := State.of_perform_peek hp
  refine ⟨by simp only [State.nextKind, hdry.unread_looked], s'.looked, ?_, ⟨s.separating_looked.trans h.separating, .inr hended⟩, hended.dry⟩
  rw [← hkind]
  exact perform_peek_of hp hpatience

theorem Carries.intro {x : Routine α} (hheads : ∀ s s', Abreast j s s' → s.separating = true → ¬ s.Dry →
    Mirrors n x s s' fun _ t t' => Beside j t t') (htails : Tails j n x) : Carries j n x := by
  intro s s' h
  by_cases hdry : s.Dry
  · exact htails s s' h hdry
  · rcases h.reading with habreast | hended
    · exact hheads s s' habreast h.separating hdry
    · exact absurd hended.dry hdry

namespace Tails

theorem done (a : α) : Tails j n (pure a : Routine α) := fun _ _ h _ => .done h

/-- Looking at the next token, if at the end of the first row what stops it is taken for the end of the input. -/
theorem peek_of_eq {f : Kind → Routine α} (hsame : f stop = f .error) (h : Tails j n (f .error)) : Tails j n (Parser.peek >>= f) := by
  intro s s' hs hdry hsteady b t hrun hsilent
  obtain ⟨a, u, hp, hrest⟩ := Routine.run_bind_eq_ok.mp hrun
  obtain ⟨rfl, u', hp', hu, hdry'⟩ := looked_ended hs hdry ((Routine.run_single _ _).symm.trans hp)
  obtain ⟨t', hrest', ht⟩ := h u u' hu hdry' ((respected_hushes.run hp).steady hsteady) b t hrest hsilent
  exact ⟨t', Routine.run_bind_eq_ok.mpr ⟨stop, u', (Routine.run_single _ _).trans hp', hsame ▸ hrest'⟩, ht⟩

theorem peek {f : Kind → Routine α} (hnewline : f .newline = f .error) (hparen : f .parenClose = f .error)
    (h : Tails j n (f .error)) : Tails j n (Parser.peek >>= f) :=
  peek_of_eq (by rcases j.kind_cases with rfl | rfl | rfl <;> first | rfl | assumption) h

end Tails

namespace Heads

theorem done (a : α) : Heads j n k (pure a : Routine α) := fun _ _ h => .done h.beside

theorem bind {x : Routine α} {f : α → Routine β} (hx : Heads j n k x) (hf : ∀ a, Carries j n (f a)) : Heads j n k (x >>= f) :=
  fun s s' h => .bind ((hx s s' h).imp fun a t t' ht => hf a t t' ht)

theorem never {x : Routine α} (h : ∀ s, Accepts n x s fun _ _ => False) : Heads j n k x := fun s _ _ => .never (h s)

theorem peek {f : Kind → Routine α} (h : Heads j n k (f k)) : Heads j n k (Parser.peek >>= f) := by
  refine fun s s' hs => .bind (.single fun _ a t hp _ => ?_)
  obtain ⟨t', hp', ht⟩ := looked_abreast hs.abreast hs.separating hs.not_dry hp
  obtain ⟨rfl, rfl⟩ := State.of_perform_peek hp
  rw [hs.nextKind_looked] at hp' ht ⊢
  exact ⟨t', hp', h _ t' ht⟩

theorem ite {c : Prop} [Decidable c] {x y : Routine α} (hx : c → Heads j n k x) (hy : ¬ c → Heads j n k y) :
    Heads j n k (if c then x else y) := by
  split
  · exact hx ‹_›
  · exact hy ‹_›

theorem advance : Heads j n k Parser.advance := by
  refine fun s s' hs => .single fun _ a t hp _ => ?_
  obtain ⟨t', hp', ht⟩ := perform_abreast rfl hs.abreast hs.stops hp
  refine ⟨t', hp', ?_, .inl ht⟩
  obtain ⟨x, rest, hunread, -, -⟩ := hs.next
  rw [State.perform_advance hunread] at hp
  cases hp
  exact hs.separating

end Heads

namespace Carries

theorem done (a : α) : Carries j n (pure a : Routine α) := fun _ _ h => .done h

theorem bind {x : Routine α} {f : α → Routine β} (hx : Carries j n x) (hf : ∀ a, Carries j n (f a)) : Carries j n (x >>= f) :=
  fun s s' h => .bind ((hx s s' h).imp fun a t t' ht => hf a t t' ht)

theorem never {x : Routine α} (h : ∀ s, Accepts n x s fun _ _ => False) : Carries j n x := fun s _ _ => .never (h s)

/-- Looking at the next token: it is one of the first row, or the end of the first row has come. -/
theorem peek {f : Kind → Routine α} (hheads : ∀ k, Heads j n k (f k)) (htails : Tails j n (Parser.peek >>= f)) :
    Carries j n (Parser.peek >>= f) := by
  refine .intro (fun s s' h hseparating hdry => .bind (.single fun _ k t hp _ => ?_)) htails
  obtain ⟨t', hp', ht⟩ := looked_abreast h hseparating hdry hp
  exact ⟨t', hp', hheads k t t' ht⟩

/-- An action that looks at no token, and does not change how newlines are read. -/
theorem inner {action : Action α} (hinner : action.isInner = true)
    (hkeeps : ∀ s t a, action.perform s = .ok (a, t) → t.separating = s.separating) : Carries j n (Parser.act action) := by
  refine fun s s' h => .single fun _ a t hp _ => ?_
  obtain ⟨hunread, hheld⟩ := reading_of_isInner hinner hp
  have hseparating : t.separating = true := (hkeeps s t a hp).trans h.separating
  rcases h.reading with ⟨front, hfronts, hfront, rfl⟩ | ⟨hnil, held, htail, rfl⟩
  · rw [perform_reading hinner, hp]
    exact ⟨_, rfl, hseparating, .inl ⟨front, hfronts, hunread.trans hfront, by rw [← hheld]⟩⟩
  · rw [perform_reading hinner, hp]
    exact ⟨_, rfl, hseparating, .inr ⟨hunread.trans hnil, held, hheld.trans htail, rfl⟩⟩

theorem closeNode : Carries j n (Parser.act .closeNode) := by
  refine inner rfl fun s t a hp => ?_
  simp only [Action.perform] at hp
  split at hp <;> cases hp
  rfl

theorem unmark : Carries j n (Parser.act .unmark) := by
  refine inner rfl fun s t a hp => ?_
  simp only [Action.perform] at hp
  split at hp <;> cases hp
  rfl

theorem leave : Carries j n (Parser.act .leave) := by
  refine inner rfl fun s t a hp => ?_
  cases hp
  rfl

end Carries

/-- Whether an action consumes nothing, whatever comes next. -/
def Action.isStanding : {α : Type} → Action α → Bool
  | _, .openNode _ | _, .mark | _, .wrap _ | _, .touches => true
  | _, .ahead q => q.isNear
  | _, _ => false

theorem unread_of_isStanding {action : Action α} (h : action.isStanding = true) {s t : State} {a : α}
    (hp : action.perform s = .ok (a, t)) : (t.unread = s.unread ∨ t.unread = s.skip.unread) ∧ t.separating = s.separating := by
  cases action with
  | openNode k | mark =>
    cases hp
    exact ⟨.inl (s.unread_pushed _), by simp only [State.drain_eq]⟩
  | wrap k =>
    simp only [Action.perform] at hp
    split at hp <;> cases hp
    exact ⟨.inl rfl, rfl⟩
  | touches =>
    cases hp
    exact ⟨.inr rfl, by rw [State.skip_eq]⟩
  | ahead q =>
    cases hp
    exact ⟨.inl rfl, rfl⟩
  | _ => cases h

theorem Poised.unread_skip {s s' : State} (h : Poised j k s s') : s.skip.unread = s.unread := by
  obtain ⟨t, rest, hunread, hk, hsolid⟩ := h.next
  have hskips : s.skips t = false := by simp [State.skips, h.separating, hk, hsolid]
  rw [State.unread_skip, hunread, List.dropWhile_cons_of_neg (by rw [hskips]; exact Bool.false_ne_true)]

namespace Heads

/-- Standing at a token, and then reading it. -/
theorem stand {action : Action α} {f : α → Routine β} (hstanding : action.isStanding = true) (h : ∀ a, Heads j n k (f a)) :
    Heads j n k (Parser.act action >>= f) := by
  refine fun s s' hs => .bind (.single fun _ a t hp _ => ?_)
  have hnear : action.isNear = true := by cases action <;> first | rfl | exact hstanding
  obtain ⟨t', hp', ht⟩ := perform_abreast hnear hs.abreast hs.stops hp
  obtain ⟨hunread, hseparating⟩ := unread_of_isStanding hstanding hp
  have hsame : t.unread = s.unread := hunread.elim id fun heq => heq.trans hs.unread_skip
  exact ⟨t', hp', h a t t' ⟨hseparating.trans hs.separating, ht, hsame ▸ hs.next⟩⟩

theorem node {K : Kind} {body : Routine α} (h : Heads j n k body) : Heads j n k (Parser.node K body) :=
  .stand rfl fun _ => .bind h fun _ => .bind .closeNode fun _ => .done _

theorem marked {body : Routine α} (h : Heads j n k body) : Heads j n k (Parser.marked body) :=
  .stand rfl fun _ => .bind h fun _ => .bind .unmark fun _ => .done _

theorem wrapped {K : Kind} {body : Routine α} (h : Heads j n k body) : Heads j n k (Parser.wrapped K body) :=
  .stand rfl fun _ => .bind h fun _ => .bind .closeNode fun _ => .done _

theorem nested {body : Routine Kind} (h : Heads j n k body) : Heads j n k (Parser.nested body) := by
  refine fun s s' hs => .bind (.single fun hsteady entry t hp hsilent => ?_)
  obtain ⟨t', hp', ht⟩ := perform_abreast rfl hs.abreast hs.stops hp
  refine ⟨t', hp', ?_⟩
  rw [State.perform_enter] at hp
  split at hp
  · rename_i hover
    cases hp
    rw [(hsteady.calm hsilent.reports).1] at hover
    cases hover
  · split at hp <;> cases hp
    · exact (h.bind fun _ => .bind .leave fun _ => .done _) _ t' ⟨hs.separating, ht, hs.next⟩
    · exact absurd hsilent.reports (List.cons_ne_nil _ _)

theorem require {f : Unit → Routine α} (h : Heads j n k (f ())) : Heads j n k (Parser.require k >>= f) := by
  rw [require_bind]
  refine .peek ?_
  rw [if_pos rfl]
  exact h

theorem peekIs {K : Kind} {f : Bool → Routine α} (h : Heads j n k (f (k == K))) : Heads j n k (Parser.peekIs K >>= f) :=
  .peek h

theorem eat {K : Kind} {f : Bool → Routine α} (hyes : k = K → Carries j n (f true)) (hno : k ≠ K → Heads j n k (f false)) :
    Heads j n k (Parser.eat K >>= f) := by
  rw [eat_bind]
  refine .peek ?_
  by_cases hk : k = K
  · rw [hk, beq_self_eq_true]
    exact hk ▸ .bind .advance fun _ => hyes hk
  · rw [beq_false_of_ne hk]
    exact hno hk

end Heads

/-- What needs a fence needs one before the end of the first row. -/
theorem Brackets.mute {x : Routine α} (h : Brackets j n false x) : Mute n x := by
  refine fun s hdry => (h.fenced s fun ho => by cases ho).imp fun _ _ ⟨t, ht, hk⟩ => ?_
  have htrivia := (Kind.of_isFence hk).1
  rw [hdry t ht] at htrivia
  cases htrivia

theorem Brackets.carries {x : Routine α} (h : Brackets j n false x) (hscoped : Scoped (runRule n) false x) : Carries j n x := by
  refine .intro (fun s s' habreast hseparating _ => ?_) h.mute.tails
  have hkept : Accepts n x s fun _ t => Kept s t := fun _ _ _ hrun _ => (hscoped.kept s).of_ok hrun
  refine ((h.mirrors s s' (fun ho => by cases ho) habreast).and hkept).imp fun _ t t' ht => ?_
  exact ⟨ht.2.separating.trans hseparating, .inl ht.1⟩

/-! ## Runs that stay in the first row -/

/-- A routine does the same in both runs if it ends before the first row does. -/
def Stays {stop : Kind} (j : Seam stop) (n : Nat) (x : Routine α) : Prop :=
  ∀ s s' t a, Abreast j s s' → s.separating = true → x.run (runRule n) s = .ok (a, t) → ¬ t.Dry →
    t.separating = true ∧ ∃ t', x.run (runRule n) s' = .ok (a, t') ∧ Abreast j t t'

namespace Stays

theorem done (a : α) : Stays j n (pure a : Routine α) := by
  intro s s' t b h hseparating hrun _
  cases hrun
  exact ⟨hseparating, s', rfl, h⟩

theorem bind {x : Routine α} {f : α → Routine β} (hx : Stays j n x) (hf : ∀ a, Stays j n (f a)) : Stays j n (x >>= f) := by
  intro s s' t b h hseparating hrun hdry
  obtain ⟨a, u, hrun₁, hrun₂⟩ := Routine.run_bind_eq_ok.mp hrun
  have hdry' : ¬ u.Dry := fun hu => hdry (hu.of_suffix (respected_suffix.run hrun₂))
  obtain ⟨hseparating', u', hrun₁', hu⟩ := hx s s' u a h hseparating hrun₁ hdry'
  obtain ⟨hseparating'', t', hrun₂', ht⟩ := hf a u u' t b hu hseparating' hrun₂ hdry
  exact ⟨hseparating'', t', Routine.run_bind_eq_ok.mpr ⟨a, u', hrun₁', hrun₂'⟩, ht⟩

theorem plain {action : Action α} (hplain : action.isPlain = true) (hnear : action.isNear = true) : Stays j n (act action) := by
  intro s s' t a h hseparating hrun hdry
  have hkept : Kept s t := ((Scoped.plain (m := false) hplain).kept s).of_ok hrun
  rw [Routine.run_single] at hrun
  have hdry' : ¬ s.Dry := fun hs => hdry (hs.of_suffix (suffix_perform hrun))
  obtain ⟨t', hp', ht⟩ := perform_abreast hnear h (stops_of_not_dry hseparating hdry') hrun
  exact ⟨hkept.separating.trans hseparating, t', (Routine.run_single _ _).trans hp', ht⟩

theorem ite {c : Prop} [Decidable c] {x y : Routine α} (hx : Stays j n x) (hy : Stays j n y) : Stays j n (if c then x else y) := by
  split
  · exact hx
  · exact hy

end Stays

theorem stays_newlines (n : Nat) : Stays j n newlines := by
  induction n with
  | zero => exact fun _ _ _ _ _ _ hrun => by cases hrun
  | succ n ih =>
    have hbody : Stays j n newlinesBody :=
      .bind (.bind (.plain rfl rfl) fun _ => .done _) fun _ => .ite (.bind (.plain rfl rfl) fun _ => ih) (.done _)
    exact hbody

theorem stays_templateParts (n : Nat) : Stays j n (rule .templateParts) := by
  induction n with
  | zero => exact fun _ _ _ _ _ _ hrun => by cases hrun
  | succ n ih =>
    have hbody : Stays j n templatePartsBody := by
      refine .bind (.plain rfl rfl) fun k => ?_
      split
      · exact .bind (.plain rfl rfl) fun _ => ih
      · exact .bind (.plain rfl rfl) fun _ => ih
      · exact .done _
    exact hbody

/-- After newlines the next token was looked at. -/
theorem looked_of_newlines {n : Nat} {s t : State} {a : Unit} (h : newlines.run (runRule n) s = .ok (a, t)) :
    ∃ u : State, t = u.looked := by
  induction n generalizing s with
  | zero => cases h
  | succ n ih =>
    obtain ⟨b, u, hpeek, hrest⟩ := Routine.run_bind_eq_ok.mp (show newlinesBody.run (runRule n) s = .ok (a, t) from h)
    obtain ⟨k, v, hp, hdone⟩ := Routine.run_bind_eq_ok.mp hpeek
    obtain ⟨rfl, rfl⟩ := State.of_perform_peek ((Routine.run_single _ _).symm.trans hp)
    cases hdone
    split at hrest
    · obtain ⟨_, v, _, hmore⟩ := Routine.run_bind_eq_ok.mp hrest
      exact ih hmore
    · cases hrest
      exact ⟨s, rfl⟩

/-- Newlines, and then something that is missing if the first row ends with them. -/
theorem Carries.newlines {f : Unit → Routine α} (hheads : ∀ k, Heads j n k (f ())) (hmute : Mute n (f ())) :
    Carries j n (Parser.newlines >>= f) := by
  refine .intro (fun s s' h hseparating hdry hsteady b t hrun hsilent => ?_) (Mute.bind fun _ => hmute).tails
  obtain ⟨_, u, hrun₁, hrun₂⟩ := Routine.run_bind_eq_ok.mp hrun
  have hsteady' := (respected_hushes.run hrun₁).steady hsteady
  have hdry' : ¬ u.Dry := fun hu => hmute u hu hsteady' b t hrun₂ hsilent
  obtain ⟨hseparating', u', hrun₁', hu⟩ := stays_newlines n s s' u () h hseparating hrun₁ hdry'
  obtain ⟨v, rfl⟩ := looked_of_newlines hrun₁
  have hpoised := poised_looked (v.separating_looked.symm.trans hseparating') hu hdry'
  obtain ⟨t', hrun₂', ht⟩ := hheads _ _ u' hpoised hsteady' b t hrun₂ hsilent
  exact ⟨t', Routine.run_bind_eq_ok.mpr ⟨(), u', hrun₁', hrun₂'⟩, ht⟩

/-! ## Strings -/

/-- One action in the first row. -/
theorem Mirrors.near {action : Action α} {s s' : State} {Q : α → State → State → Prop} (hnear : action.isNear = true)
    (h : Abreast j s s') (hstop : s.Stops) (hQ : ∀ a t t', action.perform s = .ok (a, t) → Abreast j t t' → Q a t t') :
    Mirrors n (Parser.act action) s s' Q := by
  refine .single fun _ a t hp _ => ?_
  obtain ⟨t', hp', ht⟩ := perform_abreast hnear h hstop hp
  exact ⟨t', hp', hQ a t t' hp ht⟩

theorem stops_of_cons {s : State} {t : Token} {rest : List Token} (hseparating : s.separating = true) (hunread : s.unread = t :: rest)
    (hk : t.kind.isTrivia = false) : s.Stops :=
  ⟨t, hunread ▸ List.mem_cons_self, by simp [State.skips, hseparating, hk]⟩

/-- Consuming the next token of the first row. -/
theorem Mirrors.advance {s s' : State} {t : Token} {rest : List Token} {Q : Unit → State → State → Prop}
    (hseparating : s.separating = true) (h : Abreast j s s') (hunread : s.unread = t :: rest) (hk : t.kind.isTrivia = false)
    (hQ : ∀ u', Abreast j (s.consumed t rest) u' → Q () (s.consumed t rest) u') : Mirrors n Parser.advance s s' Q := by
  refine .near rfl h (stops_of_cons hseparating hunread hk) fun _ u u' hp hu => ?_
  rw [State.perform_advance hunread] at hp
  cases hp
  exact hQ u' hu

/-- Looking at the very next token of the first row. -/
theorem Mirrors.peekRaw {s s' : State} {t : Token} {rest : List Token} {Q : Kind → State → State → Prop}
    (hseparating : s.separating = true) (h : Abreast j s s') (hstop : s.Stops) (hunread : s.unread = t :: rest)
    (hQ : ∀ u u', u.unread = t :: rest → u.separating = true → Abreast j u u' → Q t.kind u u') :
    Mirrors n Parser.peekRaw s s' Q := by
  refine .near rfl h hstop fun k u u' hp hu => ?_
  simp only [Action.perform, look] at hp
  split at hp <;> cases hp
  rw [show s.nextKind = t.kind by simp only [State.nextKind, hunread]]
  exact hQ _ u' hunread hseparating hu

/-- A template is closed before the first row ends. -/
theorem template_abreast {s s' : State} {o : Token} {rest : List Token} (h : Abreast j s s') (hseparating : s.separating = true)
    (hunread : s.unread = o :: rest) (ho : o.kind = .templateOpen) :
    Mirrors n template s s' fun _ t t' => Beside j t t' := by
  obtain ⟨inner, c, more, rfl, hinner, hc⟩ : ∃ inner c more, rest = inner ++ c :: more ∧
      (∀ t ∈ inner, t.kind = .whitespace ∨ t.kind = .id) ∧ c.kind = .templateClose := by
    obtain ⟨front, hfronts, hfront, -⟩ := h
    exact hfronts.whole o rest (hfront ▸ hunread ▸ List.suffix_refl _) ho
  have hsolid : o.kind.isTrivia = false ∧ c.kind.isTrivia = false := by rw [ho, hc]; decide
  have hpushed : (s.pushed (some .template)).separating = true := by simp only [State.pushed, State.drain_eq, hseparating]
  refine .bind (.near rfl h (stops_of_cons hseparating hunread hsolid.1) fun _ t t' hp ht => ?_)
  cases hp
  have hparts {v v' : State} (hv : Abreast j v v') (hseparating' : v.separating = true) (hunread' : v.unread = inner ++ c :: more) :
      Mirrors n (rule .templateParts) v v' fun _ t t' => t.unread = c :: more ∧ t.separating = true ∧ Abreast j t t' := by
    intro hsteady a t hrun hsilent
    have hend := (accepts_templateParts hinner hc hunread' hsteady a t hrun hsilent).1
    have hdry : ¬ t.Dry := fun hdry => by
      rw [hdry c (hend ▸ List.mem_cons_self)] at hsolid
      cases hsolid.2
    obtain ⟨hseparating'', t', hrun', ht⟩ := stays_templateParts n v v' t a hv hseparating' hrun hdry
    exact ⟨t', hrun', hend, hseparating'', ht⟩
  refine .bind (.bind (.advance hpushed ht ((s.unread_pushed _).trans hunread) hsolid.1 fun u' hu => .bind ?_))
  refine (hparts hu hpushed rfl).imp fun _ v v' hv => .bind (.peekRaw hv.2.1 hv.2.2 (stops_of_cons hv.2.1 hv.1 hsolid.2) hv.1 fun w w' hunread' hw hw' => ?_)
  rw [if_pos hc]
  refine .advance hw hw' hunread' hsolid.2 fun x' hx => ?_
  exact (Carries.closeNode.bind fun _ => .done _) _ x' ⟨hw, .inl hx⟩

/-- Looking at the very next token at the end of the first row, if what is found there makes no difference. -/
theorem Tails.peekRaw {f : Kind → Routine α} {a : α}
    (hf : ∀ k, k.isTrivia = true ∨ k = .error ∨ k = .newline ∨ k = .parenClose → f k = pure a) : Tails j n (Parser.peekRaw >>= f) := by
  have hkind {s : State} (hs : ∀ t ∈ s.unread.head?, t.kind.isTrivia = true ∨ t.kind = stop) : f s.nextKind = pure a := by
    unfold State.nextKind
    cases hunread : s.unread with
    | nil => exact hf _ (.inr (.inl rfl))
    | cons t rest =>
      have hstops : t.kind = stop → t.kind = .error ∨ t.kind = .newline ∨ t.kind = .parenClose := by
        rintro rfl
        rcases j.kind_cases with h | h | h
        · exact .inr (.inl h)
        · exact .inr (.inr h)
        · exact .inl h
      exact hf _ ((hs t (by rw [hunread]; rfl)).imp id hstops)
  have hrun {s t : State} {b : α} (hs : ∀ t ∈ s.unread.head?, t.kind.isTrivia = true ∨ t.kind = stop) :
      (Parser.peekRaw >>= f).run (runRule n) s = .ok (b, t) ↔ s.patience ≠ 0 ∧ b = a ∧ t = { s with patience := s.patience - 1 } := by
    rw [Routine.bind_eq, Routine.run_bind, Parser.peekRaw, Routine.run_single, Action.perform, look]
    by_cases hleft : s.patience = 0
    · simp [hleft]
    · simp only [if_neg hleft, hkind hs, Routine.pure_eq, Routine.run, Except.ok.injEq, Prod.mk.injEq]
      exact ⟨fun h => ⟨hleft, h.1.symm, h.2.symm⟩, fun h => ⟨h.2.1.symm, h.2.2.symm⟩⟩
  intro s s' h hdry _ b t hrunA _
  obtain ⟨hpatience, rfl, rfl⟩ := (hrun fun t ht => .inl (hdry t (List.mem_of_mem_head? ht))).mp hrunA
  rcases h.reading with ⟨front, hfronts, hunread, rfl⟩ | ⟨hnil, held, htail, rfl⟩
  · refine ⟨_, (hrun ?_).mpr ⟨hpatience, rfl, rfl⟩, h.separating, .inl ⟨front, hfronts, hunread, rfl⟩⟩
    obtain rfl := hfronts.eq_nil_of_dry hunread hdry
    exact j.head?_rest
  · refine ⟨_, (hrun ?_).mpr ⟨hpatience, rfl, rfl⟩, h.separating, .inr ⟨hnil, held, htail, rfl⟩⟩
    exact fun t ht => .inr (j.kind_of_mem_next t ht)

/-- The inside of a string. At the end of the first row it is over in both runs. -/
theorem carries_stringParts (n : Nat) : Carries j n (rule .stringParts) := by
  induction n with
  | zero => exact fun _ _ _ _ _ _ hrun => by cases hrun
  | succ n ih =>
    have hbody : Carries j n stringPartsBody := by
      refine .intro (fun s s' h hseparating hdry => ?_) fun s s' h hdry => ?_
      · have hstop := stops_of_not_dry hseparating hdry
        obtain ⟨x, ts, -, hunread, -⟩ := h.exists_cons hstop
        refine .bind (.peekRaw hseparating h hstop hunread fun t t' hunread' hseparating' ht => ?_)
        have hadvance {f : Unit → Routine Unit} (hx : x.kind.isTrivia = false) (hf : ∀ a, Carries j n (f a)) :
            Mirrors n (advance >>= f) t t' fun _ t t' => Beside j t t' :=
          .bind (.advance hseparating' ht hunread' hx fun u' hu => hf () _ u' ⟨hseparating', .inl hu⟩)
        split <;> rename_i hx
        · exact hadvance (by rw [hx]; rfl) fun _ => ih
        · exact hadvance (by rw [hx]; rfl) fun _ => ih
        · exact .bind ((template_abreast ht hseparating' hunread' hx).imp fun _ u u' hu => ih u u' hu)
        · exact hadvance (f := pure) (by rw [hx]; rfl) fun _ => .done _
        · exact .done ⟨hseparating', .inl ht⟩
      · refine Tails.peekRaw (a := ()) (fun k hk => ?_) s s' h hdry
        rcases hk with hk | rfl | rfl | rfl
        · cases k <;> first | rfl | cases hk
        all_goals rfl
    exact hbody

end Remap.Parser
