import Mathlib.Data.List.DropRight
import Remap.Proofs.Parser.Builds
import Remap.Proofs.Parser.Returns
import Remap.Proofs.Tree.Spelled

/-!
# Reading known tokens

Where the tokens ahead are known, a run is known step by step. `Reads n x s m qs X` says of the runs of `x` from the state `s`:
they report nothing, they come to the pieces of text `qs`, with room for `m` levels of nesting as before, and what they return
goes with the row they end with as `X` says.

Blanks make no difference to what is ahead (`State.Faces`) until a token was looked at: then it is the very next one
(`State.Before`), and can be consumed.
-/

namespace Remap.Parser

variable {α β : Type}

/-- Tokens for pieces of text, placed anywhere, of which the first touches what is before it, or not. -/
inductive Placed : Bool → List (Kind × Text) → List Token → Prop
  | nil (tight : Bool) : Placed tight [] []
  | cons {t : Token} {ps : List (Kind × Text)} {ts : List Token} (h : Placed (!t.kind.breaksAdjacency) ps ts) :
      Placed t.immediate (t.piece :: ps) (t :: ts)

theorem placed_place (offset : Nat) (previous : Option Kind) (ps : List (Kind × Text)) :
    Placed (previous.any (!·.breaksAdjacency)) ps (Token.place offset previous ps) := by
  induction ps generalizing offset previous with
  | nil => exact .nil _
  | cons p ps ih => exact .cons (t := ⟨p.1, p.2, offset, _⟩) (ih _ (some p.1))

theorem Placed.uncons {b : Bool} {k : Kind} {x : Text} {ps : List (Kind × Text)} {ts : List Token} (h : Placed b ((k, x) :: ps) ts) :
    ∃ t rest, ts = t :: rest ∧ t.kind = k ∧ t.text = x ∧ t.immediate = b ∧ Placed (!k.breaksAdjacency) ps rest := by
  generalize hqs : (k, x) :: ps = qs at h
  cases h with
  | nil => cases hqs
  | cons hrest =>
    cases hqs
    exact ⟨_, _, rfl, rfl, rfl, rfl, hrest⟩

/-- The kind of the first piece; `error` stands for none. -/
def firstKind (ps : List (Kind × Text)) : Kind := (ps.head?.map (·.1)).getD .error

/-- The kind of the first piece that is no trivia; `error` stands for none. -/
def aheadKind (ps : List (Kind × Text)) : Kind := firstKind (ps.dropWhile (·.1.isTrivia))

/-- The first piece is no blank, if there is one. -/
def Sharp (ps : List (Kind × Text)) : Prop := Solid (firstKind ps)

theorem sharp_cons {k : Kind} (h : Solid k) (x : Text) (ps : List (Kind × Text)) : Sharp ((k, x) :: ps) := h

theorem Sharp.aheadKind {ps : List (Kind × Text)} (h : Sharp ps) : aheadKind ps = firstKind ps := by
  cases ps with
  | nil => rfl
  | cons p ps =>
    have hp : p.1.isTrivia = false := h.1
    simp [Parser.aheadKind, hp]

theorem Placed.next {b : Bool} {ps : List (Kind × Text)} {ts : List Token} (h : Placed b ps ts) : Next (firstKind ps) ts := by
  cases h with
  | nil => rfl
  | cons _ => rfl

theorem Placed.next_ahead {b : Bool} {ps : List (Kind × Text)} {ts : List Token} (h : Placed b ps ts) :
    Next (aheadKind ps) (ts.dropWhile (·.kind.isTrivia)) := by
  induction h with
  | nil => rfl
  | @cons t ps ts _ ih =>
    simp only [aheadKind, List.dropWhile_cons, Token.piece]
    split
    · exact ih
    · rfl

/-- Passing over more than a test says makes no difference where the test stops. -/
theorem dropWhile_or {p q : Token → Bool} {ts : List Token} (h : ∀ t ∈ (ts.dropWhile p).head?, q t = false) :
    (ts.dropWhile fun t => p t || q t) = ts.dropWhile p := by
  induction ts with
  | nil => rfl
  | cons t ts ih =>
    by_cases hp : p t = true
    · rw [List.dropWhile_cons_of_pos hp] at h ⊢
      rw [List.dropWhile_cons_of_pos (by rw [hp]; rfl), ih h]
    · rw [List.dropWhile_cons_of_neg hp] at h ⊢
      rw [List.dropWhile_cons_of_neg (by simp [hp, h t rfl])]

namespace State

/-- What is known of a state apart from the tokens ahead: the row of its innermost frame, for how many levels of nesting there is
room, and that nothing was reported. -/
structure Clear (s : State) (m : Nat) (r : List Tree) : Prop where
  row : s.row = r
  room : s.depth + m ≤ s.limit
  reports : s.reports = []

/-- The very next tokens are those of pieces of text. -/
structure Before (s : State) (m : Nat) (b : Bool) (ps : List (Kind × Text)) (r : List Tree) : Prop extends s.Clear m r where
  unread : Placed b ps s.unread

/-- The next tokens after blanks are those of pieces of text. -/
structure Faces (s : State) (m : Nat) (b : Bool) (ps : List (Kind × Text)) (r : List Tree) : Prop extends s.Clear m r where
  unread : ∃ ts, Placed b ps ts ∧ s.unread.dropWhile (·.kind.isTrivia) = ts.dropWhile (·.kind.isTrivia)

variable {s : State} {m : Nat} {b : Bool} {ps : List (Kind × Text)} {r : List Tree}

theorem Before.faces (h : s.Before m b ps r) : s.Faces m b ps r := ⟨h.toClear, _, h.unread, rfl⟩

/-- A blank ahead is none. -/
theorem Faces.blank {x : Text} (h : s.Faces m b ((.whitespace, x) :: ps) r) : s.Faces m false ps r := by
  obtain ⟨ts, hts, hunread⟩ := h.unread
  obtain ⟨t, rest, rfl, ht, -, -, hrest⟩ := hts.uncons
  refine ⟨h.toClear, rest, hrest, hunread.trans ?_⟩
  exact List.dropWhile_cons_of_pos (by rw [ht]; rfl)

/-- What is passed over is trivia unless a newline comes next. -/
theorem Faces.unread_skip (h : s.Faces m b ps r) (hps : aheadKind ps ≠ .newline) :
    s.skip.unread = s.unread.dropWhile (·.kind.isTrivia) := by
  obtain ⟨ts, hts, hunread⟩ := h.unread
  rw [State.unread_skip]
  refine dropWhile_or fun t ht => ?_
  have hkind : t.kind = aheadKind ps := by
    rw [← hts.next_ahead, ← hunread, Option.mem_def.mp ht]
    rfl
  simp [hkind, hps]

theorem Clear.skip (h : s.Clear m r) : s.skip.Clear m r := by
  refine ⟨s.still_skip.row.trans h.row, ?_, ?_⟩
  · rw [skip_eq]
    exact h.room
  · rw [skip_eq]
    exact h.reports

/-- Passing over blanks makes no difference to what a state faces. -/
theorem Faces.skip (h : s.Faces m b ps r) (hps : aheadKind ps ≠ .newline) : s.skip.Faces m b ps r := by
  obtain ⟨ts, hts, hunread⟩ := h.unread
  refine ⟨h.toClear.skip, ts, hts, ?_⟩
  rw [h.unread_skip hps, List.dropWhile_idempotent, hunread]

theorem Faces.nextKind_skip (h : s.Faces m b ps r) (hps : aheadKind ps ≠ .newline) : s.skip.nextKind = aheadKind ps := by
  obtain ⟨ts, hts, hunread⟩ := h.unread
  refine nextKind_of_next ?_
  rw [h.unread_skip hps, hunread]
  exact hts.next_ahead

/-- Passing over blanks brings a state right before what it faces. -/
theorem Faces.before_skip (h : s.Faces m b ps r) (hps : Sharp ps) : s.skip.Before m b ps r := by
  obtain ⟨ts, hts, hunread⟩ := h.unread
  have hstop : ts.dropWhile (·.kind.isTrivia) = ts := by
    cases hts with
    | nil => rfl
    | cons _ => exact List.dropWhile_cons_of_neg (Bool.eq_false_iff.mp hps.1)
  refine ⟨h.toClear.skip, ?_⟩
  rw [h.unread_skip (hps.aheadKind ▸ hps.2), hunread, hstop]
  exact hts

end State

/-! ## The judgement -/

/-- What a routine returns from a state goes with the row it ends with as `X` says; it comes to the pieces `qs`, and reports
nothing. -/
def Reads (n : Nat) (x : Routine α) (s : State) (m : Nat) (qs : List (Kind × Text)) (X : α → List Tree → Prop) : Prop :=
  Returns n x s fun a t => ∃ r, X a r ∧ t.Faces m true qs r

namespace Reads

variable {n m m' : Nat} {s : State} {b : Bool} {k : Kind} {ps qs : List (Kind × Text)} {r : List Tree} {X Y : α → List Tree → Prop}

theorem imp {x : Routine α} (h : Reads n x s m qs X) (hX : ∀ a r, X a r → Y a r) : Reads n x s m qs Y :=
  Returns.imp h fun a _ ⟨r, hr, ht⟩ => ⟨r, hX a r hr, ht⟩

theorem done {a : α} (h : s.Faces m true qs r) (hX : X a r) : Reads n (pure a) s m qs X := Returns.done ⟨r, hX, h⟩

/-- One routine after another. -/
theorem bind {x : Routine β} {f : β → Routine α} {Z : β → List Tree → Prop} (hx : Reads n x s m' ps Z)
    (hf : ∀ a r t, Z a r → t.Faces m' true ps r → Reads n (f a) t m qs X) : Reads n (x >>= f) s m qs X :=
  Returns.bind (Returns.imp hx fun a t ⟨r, hr, ht⟩ => hf a r t hr ht)

/-- A rule reads what its body reads. -/
theorem rule {x : Rule α} (h : ∀ l, Reads l (grammar x) s m qs X) : Reads n (Parser.rule x) s m qs X := by
  cases n with
  | zero => exact Returns.zero _ _
  | succ n => exact Returns.rule (h n)

/-! ### Looking -/

/-- Looking at the next token. -/
theorem of_peek {Q : Kind → State → Prop} (h : s.Faces m b ps r) (hps : Sharp ps) (hQ : ∀ t, t.Before m b ps r → Q (firstKind ps) t) :
    Returns n Parser.peek s Q := by
  refine .look rfl fun k t hpeek _ => ?_
  obtain ⟨rfl, rfl⟩ := State.of_perform_peek hpeek
  have hskip := h.before_skip hps
  rw [State.nextKind_of_next (s := s.looked) hskip.unread.next]
  exact hQ _ ⟨⟨hskip.row, hskip.room, hskip.reports⟩, hskip.unread⟩

theorem peek {f : Kind → Routine α} (h : s.Faces m' b ps r) (hps : Sharp ps)
    (hf : ∀ t, t.Before m' b ps r → Reads n (f (firstKind ps)) t m qs X) : Reads n (Parser.peek >>= f) s m qs X :=
  Returns.bind (of_peek h hps hf)

/-- Looking past blanks. -/
theorem peekPast {f : Kind → Routine α} (h : s.Faces m' b ps r) (hps : aheadKind ps ≠ .newline)
    (hf : ∀ t, t.Faces m' b ps r → Reads n (f (aheadKind ps)) t m qs X) : Reads n (Parser.peek >>= f) s m qs X := by
  refine Returns.bind <| .look rfl fun k t hpeek _ => ?_
  obtain ⟨rfl, rfl⟩ := State.of_perform_peek hpeek
  have hskip := h.skip hps
  rw [show s.looked.nextKind = s.skip.nextKind from rfl, h.nextKind_skip hps]
  exact hf _ ⟨⟨hskip.row, hskip.room, hskip.reports⟩, hskip.unread⟩

/-- Asking whether the next token is of a kind. -/
theorem peekIs {f : Bool → Routine α} (h : s.Faces m' b ps r) (hps : Sharp ps)
    (hf : ∀ t, t.Before m' b ps r → Reads n (f (firstKind ps == k)) t m qs X) : Reads n (Parser.peekIs k >>= f) s m qs X := by
  simp only [Parser.peekIs, Routine.bind_eq, Routine.pure_eq, Routine.bind_assoc]
  exact peek h hps hf

theorem peekIsPast {f : Bool → Routine α} (h : s.Faces m' b ps r) (hps : aheadKind ps ≠ .newline)
    (hf : ∀ t, t.Faces m' b ps r → Reads n (f (aheadKind ps == k)) t m qs X) : Reads n (Parser.peekIs k >>= f) s m qs X := by
  simp only [Parser.peekIs, Routine.bind_eq, Routine.pure_eq, Routine.bind_assoc]
  exact peekPast h hps hf

/-- The next token is as it has to be. -/
theorem require {f : Unit → Routine α} (h : s.Faces m' b ps r) (hps : Sharp ps) (hk : firstKind ps = k)
    (hf : ∀ t, t.Before m' b ps r → Reads n (f ()) t m qs X) : Reads n (Parser.require k >>= f) s m qs X := by
  rw [require_bind]
  refine peek h hps fun t ht => ?_
  rw [if_pos hk]
  exact hf t ht

/-- Passing newlines where there are none. -/
theorem newlines {f : Unit → Routine α} (h : s.Faces m' b ps r) (hps : Sharp ps)
    (hf : ∀ t, t.Before m' b ps r → Reads n (f ()) t m qs X) : Reads n (Parser.newlines >>= f) s m qs X := by
  cases n with
  | zero => exact Returns.bind (.zero _ _)
  | succ n =>
    have hnone : (firstKind ps == Kind.newline) = false := beq_eq_false_iff_ne.mpr hps.2
    refine Returns.bind <| .rule <| .bind <| .bind <| of_peek h hps fun t ht => .done ?_
    rw [hnone]
    exact .done (hf t ht)

/-- Whether the next token touches the one before it. -/
theorem touches {x : Kind × Text} {f : Bool → Routine α} (h : s.Before m' b (x :: ps) r) (hx : Solid x.1)
    (hf : ∀ t, t.Before m' b (x :: ps) r → Reads n (f b) t m qs X) : Reads n (Parser.touches >>= f) s m qs X := by
  refine Returns.bind <| .look rfl fun a t htouches _ => ?_
  cases htouches
  have hskip := h.faces.before_skip hx
  obtain ⟨token, rest, hunread, -, -, himmediate, -⟩ := hskip.unread.uncons
  have hreply : (s.skip.unread.head?.any (·.immediate)) = b := by
    rw [hunread]
    exact himmediate
  rw [hreply]
  exact hf _ hskip

/-- There are tokens left, and fuel. -/
theorem stopped {f : Bool → Routine α} (h : s.Before m' b ps r) (hps : ps ≠ []) (hf : Reads n (f false) s m qs X) :
    Reads n (Parser.stopped >>= f) s m qs X := by
  intro hs a t hrun hfuel
  obtain ⟨c, s', hstopped, hrest⟩ := Routine.run_bind_eq_ok.mp hrun
  rw [Parser.stopped, Routine.run_single] at hstopped
  cases hstopped
  have hexhausted : s.exhausted = false := (respected_hushes.run hrest).fuelled hfuel
  obtain ⟨p, ps, rfl⟩ := List.exists_cons_of_ne_nil hps
  obtain ⟨token, rest, hunread, -⟩ := h.unread.uncons
  rw [hunread, hexhausted] at hrest
  exact hf hs a t hrest hfuel

/-- The answer to a question about the tokens ahead. -/
theorem ahead {q : Lookahead} {a : Bool} {f : Bool → Routine α} (h : s.Before m' b ps r) (ha : ∀ ts, Placed b ps ts → q.holds ts = a)
    (hf : Reads n (f a) s m qs X) : Reads n (Parser.ahead q >>= f) s m qs X := by
  refine Returns.bind <| .look rfl fun c t hahead _ => ?_
  cases hahead
  rw [ha _ h.unread]
  exact hf

/-- Noting the delimiter that comes next. -/
theorem pushDelimiter {f : Unit → Routine α} (h : s.Faces m' b ps r) (hps : Sharp ps)
    (hf : ∀ t, t.Before m' b ps r → Reads n (f ()) t m qs X) : Reads n (act (.pushDelimiter k) >>= f) s m qs X := by
  refine Returns.bind <| .look rfl fun _ t hpush _ => ?_
  cases hpush
  have hskip := h.before_skip hps
  exact hf _ ⟨⟨hskip.row, hskip.room, hskip.reports⟩, hskip.unread⟩

/-! ### Consuming -/

/-- What is no blank lets its neighbours touch. -/
theorem breaksAdjacency_of_solid (hk : Solid k) : k.breaksAdjacency = false := by
  unfold Kind.breaksAdjacency
  split
  · exact absurd hk.1 (by decide)
  · exact absurd rfl hk.2
  · exact absurd hk.1 (by decide)
  · rfl

/-- Consuming the next token. -/
theorem of_advance {x : Text} {Q : Unit → State → Prop} (h : s.Before m b ((k, x) :: ps) r) (hk : Solid k)
    (hQ : ∀ t, t.Before m true ps (r ++ [.leaf k x]) → Q () t) : Returns n Parser.advance s Q := by
  refine .of_steady fun hsteady => .flat rfl fun _ t hadvance _ => ?_
  obtain ⟨token, rest, hunread, rfl, rfl, -, hrest⟩ := h.unread.uncons
  rw [State.perform_advance hunread] at hadvance
  cases hadvance
  have hsolid : Tree.solid [token.leaf] = [.leaf token.kind token.text] :=
    List.filter_cons_of_pos (by simp [Token.leaf, Tree.isBlank, hk.1, hk.2])
  rw [breaksAdjacency_of_solid hk] at hrest
  refine hQ _ ⟨⟨?_, h.room, h.reports⟩, hrest⟩
  rw [hsteady.row_consumed, hsolid, h.row]

theorem advance {x : Text} {f : Unit → Routine α} (h : s.Before m' b ((k, x) :: ps) r) (hk : Solid k)
    (hf : ∀ t, t.Before m' true ps (r ++ [.leaf k x]) → Reads n (f ()) t m qs X) : Reads n (Parser.advance >>= f) s m qs X :=
  Returns.bind (of_advance h hk hf)

/-- Consuming the closing delimiter, which comes next. -/
theorem close {x : Text} (h : s.Faces m b ((k, x) :: qs) r) (hk : Solid k) :
    Reads n (Parser.close k) s m qs fun _ r' => r' = r ++ [.leaf k x] := by
  unfold Parser.close
  rw [eat_bind]
  refine peek h hk fun t ht => ?_
  rw [if_pos (show (firstKind ((k, x) :: qs) == k) = true from beq_self_eq_true k)]
  refine advance ht hk fun u hu => Returns.look rfl fun _ v hpop _ => ?_
  cases hpop
  exact ⟨_, rfl, State.Before.faces ⟨⟨hu.row, hu.room, hu.reports⟩, hu.unread⟩⟩

/-! ### Building -/

theorem drain_clear (h : s.Clear m r) (hs : s.Steady) : s.drain.Clear m r := by
  refine ⟨hs.still_drain.row.trans h.row, ?_, ?_⟩
  · rw [State.drain_eq]
    exact h.room
  · rw [State.drain_eq]
    exact h.reports

/-- Building a node, after which nothing else is read. -/
theorem of_node (m' : Nat) {body : Routine α} {Q : α → State → Prop} (h : s.Before m b ps r)
    (hbody : ∀ t, t.Before m b ps [] → Returns n body t fun a t => ∃ r', t.Clear m' r' ∧
      ∀ u cs, u.unread = t.unread → u.Clear m' (r ++ [.node k cs]) → Tree.solid cs = r' → Q a u) :
    Returns n (Parser.node k body) s Q := by
  refine Returns.of_steady fun hsteady => .node ?_
  have hdrain := drain_clear h.toClear hsteady
  have hunread : (s.pushed (some k)).unread = s.unread := s.unread_pushed _
  have hopen : (s.pushed (some k)).Before m b ps [] := ⟨⟨rfl, hdrain.room, hdrain.reports⟩, hunread ▸ h.unread⟩
  refine Returns.imp (hbody _ hopen) fun a t ⟨r', ht, hQ⟩ => ?_
  refine hQ _ t.top.built.reverse rfl ⟨?_, ht.room, ht.reports⟩ ht.row
  show Tree.solid (Tree.node k t.top.built.reverse :: s.drain.top.built).reverse = _
  rw [List.reverse_cons, State.solid_append, show Tree.solid s.drain.top.built.reverse = r from hdrain.row]
  rfl

/-- Building a node. -/
theorem node {body : Routine α} (h : s.Before m b ps r)
    (hbody : ∀ t, t.Before m b ps [] → Reads n body t m' qs fun a r' => ∀ cs, Tree.solid cs = r' → X a (r ++ [.node k cs])) :
    Reads n (Parser.node k body) s m' qs X :=
  of_node m' h fun t ht => Returns.imp (hbody t ht) fun _ _ ⟨r', hX, ht⟩ =>
    ⟨r', ht.toClear, fun _ cs hunread hclear hcs => ⟨_, hX cs hcs, hclear, hunread ▸ ht.unread⟩⟩

/-- Building from a mark on. -/
theorem marked {body : Routine α} (h : s.Faces m b ps r)
    (hbody : ∀ t, t.Faces m b ps [] → Reads n body t m' qs fun a xs => X a (r ++ xs)) : Reads n (Parser.marked body) s m' qs X := by
  refine Returns.of_steady fun hsteady => .marked ?_
  have hdrain := drain_clear h.toClear hsteady
  have hunread : (s.pushed none).unread = s.unread := s.unread_pushed _
  have hopen : (s.pushed none).Faces m b ps [] := ⟨⟨rfl, hdrain.room, hdrain.reports⟩, hunread ▸ h.unread⟩
  refine Returns.imp (hbody _ hopen) fun a t ⟨xs, hX, ht⟩ => ?_
  refine ⟨_, hX, ⟨?_, ht.room, ht.reports⟩, ht.unread⟩
  show Tree.solid (t.top.built ++ s.drain.top.built).reverse = _
  rw [List.reverse_append, State.solid_append, show Tree.solid s.drain.top.built.reverse = r from hdrain.row,
    show Tree.solid t.top.built.reverse = xs from ht.row]

/-- Building a node that begins at the innermost mark. -/
theorem wrapped {body : Routine α} (h : s.Before m b ps r)
    (hbody : ∀ t, t.Before m b ps r → Reads n body t m' qs fun a r' => ∀ cs, Tree.solid cs = r' → X a [.node k cs]) :
    Reads n (Parser.wrapped k body) s m' qs X := by
  have hopen : (s.wrapping k).Before m b ps r := ⟨⟨h.row, h.room, h.reports⟩, h.unread⟩
  refine Returns.wrapped <| Returns.imp (hbody _ hopen) fun a t ⟨r', hX, ht⟩ => ?_
  exact ⟨_, hX t.top.built.reverse ht.row, ⟨rfl, ht.room, ht.reports⟩, ht.unread⟩

/-- Building one level deeper, where there is room. -/
theorem nested {body : Routine Kind} {X : Kind → List Tree → Prop} (h : s.Before (m + 1) b ps r)
    (hbody : ∀ t, t.Before m b ps r → Reads n body t m qs X) : Reads n (Parser.nested body) s (m + 1) qs X := by
  have hroom := h.room
  refine Returns.of_steady fun hsteady => .nested (fun _ => ?_) (fun hover => ?_) fun hfull => ?_
  · have hdeeper : s.deeper.Before m b ps r := ⟨⟨h.row, by simp only [State.deeper, State.refresh]; omega, h.reports⟩, h.unread⟩
    refine (Returns.follows (hbody _ hdeeper)).imp fun a t h => ?_
    obtain ⟨hfollows, r', hX, ht⟩ := h
    refine ⟨r', hX, ⟨ht.row, ?_, ht.reports⟩, ht.unread⟩
    have hdepth : t.depth = s.depth + 1 := hfollows.depth
    have hlimit : t.limit = s.limit := hfollows.limit
    simp only [State.shallower, State.refresh, hdepth, hlimit]
    omega
  · rw [(hsteady.calm h.reports).1] at hover
    cases hover
  · omega

/-- How newlines are read makes no difference where there are none. -/
theorem separating {body : Routine α} {c : Bool} (h : s.Before m b ps r) (hbody : ∀ t, t.Before m b ps r → Reads n body t m' qs X) :
    Reads n (Parser.separating c body) s m' qs X := by
  refine Returns.bind <| .look rfl fun _ t hset _ => ?_
  cases hset
  have hset : State.Before { s with separating := c } m b ps r := ⟨⟨h.row, h.room, h.reports⟩, h.unread⟩
  refine .bind <| Returns.imp (hbody _ hset) fun a t ⟨r', hX, ht⟩ => .bind <| .look rfl fun _ u hset _ => ?_
  cases hset
  exact .done ⟨r', hX, ⟨ht.row, ht.room, ht.reports⟩, ht.unread⟩

end Reads

end Remap.Parser
