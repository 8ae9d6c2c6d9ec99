import Remap.Proofs.Parser.Gives
import Remap.Proofs.Parser.Offsets
import Remap.Proofs.Parser.Outlook

/-!
# Skipping a line

A statement cannot begin where the next token is none that begins one. The parser then reports this once and skips tokens up
to the end of the statement: the next newline or semicolon, or a closing bracket that was not opened meanwhile. Where brackets
are balanced on the rest of the line, it skips the line up to the newline and nothing else. It skips into one error node, so
what was built before, the open delimiters and the nesting depth are left as they were.
-/

namespace Remap

/-- Whether brackets are balanced in a row of kinds when `depth` are open before it: no closing bracket comes without one to
close, and none is open at the end. -/
def Kind.balanced : Nat → List Kind → Bool
  | depth, [] => depth = 0
  | depth, k :: ks =>
    if k.isOpener then balanced (depth + 1) ks
    else if k.isCloser then depth ≠ 0 && balanced (depth - 1) ks
    else balanced depth ks

/-- Trivia is no bracket. -/
theorem Kind.isBracket_of_isTrivia {k : Kind} (h : k.isTrivia = true) : k.isOpener = false ∧ k.isCloser = false := by
  cases k <;> first | exact ⟨rfl, rfl⟩ | cases h

/-- Trivia makes no difference to whether brackets are balanced. -/
theorem Kind.balanced_filter (depth : Nat) (ks : List Kind) : balanced depth (ks.filter (!·.isTrivia)) = balanced depth ks := by
  induction ks generalizing depth with
  | nil => rfl
  | cons k ks ih =>
    by_cases hk : k.isTrivia = true
    · obtain ⟨hopener, hcloser⟩ := isBracket_of_isTrivia hk
      rw [List.filter_cons_of_neg (by simp [hk]), balanced, hopener, hcloser]
      exact ih depth
    · rw [List.filter_cons_of_pos (by simpa using hk), balanced, balanced, ih, ih, ih]

theorem Kind.balanced_append_of_isTrivia {ks : List Kind} (h : ∀ k ∈ ks, k.isTrivia = true) (depth : Nat) (ls : List Kind) :
    balanced depth (ks ++ ls) = balanced depth ls := by
  rw [← balanced_filter, List.filter_append, List.filter_eq_nil_iff.mpr (by simpa using h), List.nil_append, balanced_filter]

/-- Brackets stay balanced behind the first kind, and what closes a bracket is not outside all brackets. -/
theorem Kind.balanced_cons {depth : Nat} {k : Kind} {ks : List Kind} (h : balanced depth (k :: ks) = true) :
    balanced (Parser.depthAfter depth k) ks = true ∧ (depth = 0 → k.isCloser = false) := by
  unfold Parser.depthAfter
  rw [balanced] at h
  split at h
  · rename_i hopener
    rw [if_pos hopener]
    exact ⟨h, fun _ => by cases k <;> first | rfl | cases hopener⟩
  · rename_i hopener
    rw [if_neg hopener]
    split at h
    · rename_i hcloser
      rw [if_pos hcloser]
      obtain ⟨hdepth, hrest⟩ := Bool.and_eq_true_iff.mp h
      exact ⟨hrest, fun hzero => absurd hzero (by simpa using hdepth)⟩
    · rename_i hcloser
      rw [if_neg hcloser]
      exact ⟨h, fun _ => Bool.eq_false_iff.mpr hcloser⟩

namespace Parser

variable {α β : Type}

/-! ## What a routine leads to -/

/-- A routine returns as described, unless it is found to be stuck. -/
def Leads (x : Routine α) (s : State) (Q : α → State → Prop) : Prop :=
  Gives x s (.error .stuck) ∨ ∃ a t, Gives x s (.ok (a, t)) ∧ Q a t

namespace Leads

variable {Q : α → State → Prop} {s t : State}

theorem done {a : α} (h : Q a s) : Leads (pure a) s Q := .inr ⟨a, s, .of_run (n := 0) rfl, h⟩

theorem of_gives {x y : Routine α} (h : Leads x t Q) (hgives : ∀ r, Gives x t r → Gives y s r) : Leads y s Q :=
  Or.imp (hgives _) (fun ⟨a, u, hx, ha⟩ => ⟨a, u, hgives _ hx, ha⟩) h

theorem imp {Q' : α → State → Prop} {x : Routine α} (h : Leads x s Q) (hQ : ∀ a t, Q a t → Q' a t) : Leads x s Q' :=
  Or.imp_right (fun ⟨a, t, hgives, ha⟩ => ⟨a, t, hgives, hQ a t ha⟩) h

theorem bind {x : Routine β} {f : β → Routine α} (h : Leads x s fun b t => Leads (f b) t Q) : Leads (x >>= f) s Q := by
  rcases h with hstuck | ⟨b, t, hx, hstuck | ⟨a, u, hf, ha⟩⟩
  · exact .inl hstuck.bind_error
  · exact .inl (hx.bind hstuck)
  · exact .inr ⟨a, u, hx.bind hf, ha⟩

theorem of_bind {x : Routine β} {f : β → Routine α} (h : Leads (x >>= f) s Q) : Leads x s fun b t => Leads (f b) t Q := by
  rcases h with hstuck | ⟨a, u, hgives, ha⟩
  · rcases hstuck.of_bind with ⟨b, t, hx, hf⟩ | ⟨e, hx, he⟩
    · exact .inr ⟨b, t, hx, .inl hf⟩
    · exact .inl (Except.error.inj he ▸ hx)
  · rcases hgives.of_bind with ⟨b, t, hx, hf⟩ | ⟨e, -, he⟩
    · exact .inr ⟨b, t, hx, .inr ⟨a, u, hf, ha⟩⟩
    · cases he

theorem single {action : Action α} {a : α} (hp : action.perform s = .ok (a, t)) (h : Q a t) : Leads (Parser.act action) s Q :=
  .inr ⟨a, t, .single hp, h⟩

theorem act {action : Action β} {b : β} {f : β → Routine α} (hp : action.perform s = .ok (b, t)) (h : Leads (f b) t Q) :
    Leads (Parser.act action >>= f) s Q :=
  .bind (.single hp h)

/-- A look at the next token. -/
theorem peek {f : Kind → Routine α} (h : Leads (f s.looked.nextKind) s.looked Q) : Leads (Parser.peek >>= f) s Q := by
  cases hp : Action.peek.perform s with
  | ok r =>
    obtain ⟨k, t⟩ := r
    obtain ⟨rfl, rfl⟩ := State.of_perform_peek hp
    exact .act hp h
  | error e =>
    have hstuck : e = .stuck := by
      simp only [Action.perform, look] at hp
      split at hp <;> cases hp
      rfl
    exact .inl (Gives.act_error (by decide) (hstuck ▸ hp))

/-- A node around what leaves its surroundings as they are. -/
theorem node {k : Kind} {body : Routine α}
    (h : Leads body (s.pushed (some k)) fun a t => Kept (s.pushed (some k)) t ∧ Q a (s.closed k t)) : Leads (Parser.node k body) s Q := by
  refine .act (s.perform_openNode k) (.bind (h.imp ?_))
  rintro a t ⟨hkept, ha⟩
  have hlabel : t.top.label = some k := hkept.label
  have hbelow : t.below = s.drain.top :: s.drain.below := hkept.below
  have hclose : Action.closeNode.perform t = .ok ((), s.closed k t) := by simp only [Action.perform, hlabel, hbelow, State.closed]
  exact .act hclose (.done ha)

theorem rule {r : Rule α} (h : Leads (grammar r) s Q) : Leads (Parser.rule r) s Q :=
  Or.imp Gives.rule_iff.mpr (fun ⟨a, t, hgives, ha⟩ => ⟨a, t, Gives.rule_iff.mpr hgives, ha⟩) h

end Leads

/-! ## Passing tokens over -/

/-- Newlines separate statements, and there is no bound on the tokens consumed. -/
structure State.Live (s : State) : Prop where
  separating : s.separating = true
  fuel : s.fuel = none
  exhausted : s.exhausted = false

/-- The trees of the innermost node, and after them the trivia held back. -/
def State.laid (s : State) : List Tree := s.top.built.reverse ++ s.held.map Token.leaf

/-- Between the two states the tokens `ts` were passed, and nothing else was done: they were placed where the first state stood,
but for trivia that is held back. -/
structure Skims (ts : List Token) (s t : State) : Prop where
  unread : s.unread = ts ++ t.unread
  laid : t.laid = s.laid ++ ts.map Token.leaf
  held : (∀ x ∈ s.held, x.kind.isTrivia = true) → ∀ x ∈ t.held, x.kind.isTrivia = true
  kept : Kept s t
  said : t.said = s.said
  limit : t.limit = s.limit
  fuel : t.fuel = s.fuel
  exhausted : t.exhausted = s.exhausted

namespace Skims

variable {ts us : List Token} {s t u : State}

theorem trans (h : Skims ts s t) (h' : Skims us t u) : Skims (ts ++ us) s u where
  unread := by rw [h.unread, h'.unread, List.append_assoc]
  laid := by rw [h'.laid, h.laid, List.map_append, List.append_assoc]
  held hheld := h'.held (h.held hheld)
  kept := h.kept.trans h'.kept
  said := h'.said.trans h.said
  limit := h'.limit.trans h.limit
  fuel := h'.fuel.trans h.fuel
  exhausted := h'.exhausted.trans h.exhausted

theorem live (h : Skims ts s t) (hs : s.Live) : t.Live :=
  ⟨h.kept.separating.trans hs.separating, h.fuel.trans hs.fuel, h.exhausted.trans hs.exhausted⟩

/-- A look passes the trivia before the next token. -/
theorem looked (hs : s.Live) : Skims (s.unread.takeWhile (·.kind.isTrivia)) s s.looked := by
  have hskips : s.skips = (·.kind.isTrivia) := by
    funext x
    simp [State.skips, hs.separating]
  have hlooked : s.looked = { s with
      held := s.held ++ s.unread.takeWhile (·.kind.isTrivia), unread := s.unread.dropWhile (·.kind.isTrivia), patience := s.patience - 1 } := by
    rw [State.looked, State.skip_eq, hskips]
  rw [hlooked]
  refine ⟨List.takeWhile_append_dropWhile.symm, ?_, fun hheld x hx => ?_, ⟨rfl, rfl, rfl, rfl, rfl, rfl⟩, rfl, rfl, rfl, rfl⟩
  · simp only [State.laid, List.map_append, ← List.append_assoc]
  · rcases List.mem_append.mp hx with hx | hx
    · exact hheld x hx
    · exact List.all_eq_true.mp List.all_takeWhile x hx

/-- A look where the next token is already known passes nothing. -/
theorem looked_of_cons {x : Token} {rest : List Token} (hs : s.Live) (hunread : s.unread = x :: rest)
    (hx : x.kind.isTrivia = false) : Skims [] s s.looked ∧ s.looked.unread = x :: rest := by
  have h := looked hs
  rw [hunread, List.takeWhile_cons, if_neg (Bool.eq_false_iff.mp hx)] at h
  exact ⟨h, h.unread.symm.trans hunread⟩

theorem consumed {x : Token} {rest : List Token} (hs : s.Live) (hunread : s.unread = x :: rest) : Skims [x] s (s.consumed x rest) where
  unread := hunread
  laid := by simp [State.laid, State.consumed]
  held _ y hy := absurd hy List.not_mem_nil
  kept := ⟨rfl, rfl, rfl, rfl, rfl, rfl⟩
  said := rfl
  limit := rfl
  fuel := by
    show s.fuel.map (· - 1) = s.fuel
    rw [hs.fuel]
    rfl
  exhausted := by
    show (s.exhausted || s.fuel == some 0) = s.exhausted
    rw [hs.fuel]
    exact Bool.or_false _

end Skims

/-- Blanks and then a token that is none. -/
theorem takeWhile_isTrivia {blanks rest : List Token} {x : Token} (hblanks : ∀ t ∈ blanks, t.kind.isTrivia = true)
    (hx : x.kind.isTrivia = false) : (blanks ++ x :: rest).takeWhile (·.kind.isTrivia) = blanks := by
  rw [List.takeWhile_append_of_pos hblanks, List.takeWhile_cons, if_neg (Bool.eq_false_iff.mp hx), List.append_nil]

/-- A look in front of blanks passes them. -/
theorem Skims.looked_blanks {s : State} {blanks rest : List Token} {x : Token} (hs : s.Live)
    (hunread : s.unread = blanks ++ x :: rest) (hblanks : ∀ t ∈ blanks, t.kind.isTrivia = true) (hx : x.kind.isTrivia = false) :
    Skims blanks s s.looked ∧ s.looked.unread = x :: rest := by
  have h := Skims.looked hs
  rw [hunread, takeWhile_isTrivia hblanks hx] at h
  exact ⟨h, List.append_cancel_left (h.unread.symm.trans hunread)⟩

/-- A row of tokens with a newline and more after it: blanks come first, and then a token that is none. -/
theorem exists_solid (line after : List Token) {newline : Token} (hnewline : newline.kind = .newline) :
    ∃ blanks x rest, line ++ newline :: after = blanks ++ x :: rest ∧ (∀ t ∈ blanks, t.kind.isTrivia = true) ∧
      x.kind.isTrivia = false ∧
      (line = blanks ∧ x = newline ∧ rest = after ∨ ∃ line', line = blanks ++ x :: line' ∧ rest = line' ++ newline :: after) := by
  induction line with
  | nil => exact ⟨[], newline, after, rfl, fun _ h => absurd h List.not_mem_nil, by rw [hnewline]; rfl, .inl ⟨rfl, rfl, rfl⟩⟩
  | cons t line ih =>
    by_cases ht : t.kind.isTrivia = true
    · obtain ⟨blanks, x, rest, hsplit, hblanks, hx, hcases⟩ := ih
      refine ⟨t :: blanks, x, rest, congrArg (t :: ·) hsplit, ?_, hx, ?_⟩
      · exact fun y hy => (List.mem_cons.mp hy).elim (fun heq => heq ▸ ht) (hblanks y)
      · rcases hcases with ⟨rfl, rfl, rfl⟩ | ⟨line', rfl, rfl⟩
        · exact .inl ⟨rfl, rfl, rfl⟩
        · exact .inr ⟨line', rfl, rfl⟩
    · exact ⟨[], t, _, rfl, fun _ h => absurd h List.not_mem_nil, Bool.eq_false_iff.mpr ht, .inr ⟨line, rfl, rfl⟩⟩

/-- What stands on a line and is no bracket that closes does not end a statement. -/
theorem statementEnd_contains {k : Kind} (hline : k ≠ .newline ∧ k ≠ .semicolon) (hcloser : k.isCloser = false) :
    KindSet.statementEnd.contains k = false := by
  obtain ⟨hnewline, hsemicolon⟩ := hline
  cases k <;> first | rfl | contradiction

/-- Skipping to the end of a statement goes on to the end of the line, if the brackets there are balanced. By induction on what
is left of the line; each round passes blanks and one token. -/
theorem leads_skipTo (line : List Token) {s : State} {after : List Token} {newline : Token} {depth : Nat}
    (hs : s.Live) (hunread : s.unread = line ++ newline :: after) (hnewline : newline.kind = .newline)
    (hbalanced : Kind.balanced depth (line.map (·.kind)) = true) (hline : ∀ t ∈ line, t.kind ≠ .newline ∧ t.kind ≠ .semicolon) :
    Leads (rule (.skipTo .statementEnd depth)) s fun _ t => Skims line s t ∧ t.unread = newline :: after := by
  obtain ⟨blanks, x, rest, hsplit, hblanks, hx, hcases⟩ := exists_solid line after hnewline
  obtain ⟨hlooked, hunread'⟩ := Skims.looked_blanks hs (hunread.trans hsplit) hblanks hx
  have hkind : s.looked.nextKind = x.kind := by simp only [State.nextKind, hunread']
  have hkinds : ∀ k ∈ blanks.map (·.kind), k.isTrivia = true := by simpa using hblanks
  refine .rule (.act (b := false) (t := s) ?_ (.peek ?_))
  · rw [Action.perform, hunread, hs.exhausted]
    cases line <;> rfl
  rw [hkind]
  rcases hcases with ⟨rfl, rfl, rfl⟩ | ⟨line', rfl, rfl⟩
  · rw [← List.append_nil (line.map _), Kind.balanced_append_of_isTrivia hkinds] at hbalanced
    have hzero : depth = 0 := of_decide_eq_true hbalanced
    rw [hzero, hnewline]
    exact .done ⟨hlooked, hunread'⟩
  · rw [List.map_append, Kind.balanced_append_of_isTrivia hkinds, List.map_cons] at hbalanced
    obtain ⟨hrest, hcloser⟩ := Kind.balanced_cons hbalanced
    have hgoes : ¬ ((decide (depth = 0) && KindSet.statementEnd.contains x.kind) = true) := by
      rw [Bool.and_eq_true, decide_eq_true_eq]
      rintro ⟨hzero, hstops⟩
      rw [statementEnd_contains (hline x (by simp)) (hcloser hzero)] at hstops
      cases hstops
    rw [if_neg hgoes]
    have hconsumed := hlooked.trans (.consumed (hlooked.live hs) hunread')
    have hline' : ∀ t ∈ line', t.kind ≠ .newline ∧ t.kind ≠ .semicolon := fun t ht => hline t (by simp [ht])
    refine .act (State.perform_advance hunread') ((leads_skipTo line' (hconsumed.live hs) rfl hnewline hrest hline').imp ?_)
    rintro _ t ⟨ht, htail⟩
    have hwhole := hconsumed.trans ht
    rw [List.append_assoc] at hwhole
    exact ⟨hwhole, htail⟩
termination_by line.length

/-! ## One error node -/

/-- Between the two states the tokens `ts` were passed and put in one error node, but for blanks after them. -/
structure Encloses (ts : List Token) (s t : State) : Prop where
  laid : ∃ body blanks, ts = body ++ blanks ∧ (∀ x ∈ blanks, x.kind.isTrivia = true) ∧
    t.laid = s.laid ++ .node .error (body.map Token.leaf) :: blanks.map Token.leaf
  kept : Kept s t
  said : t.said = s.said
  limit : t.limit = s.limit
  fuel : t.fuel = s.fuel
  exhausted : t.exhausted = s.exhausted

/-- Tokens that are passed inside an error node are enclosed in it. -/
theorem Skims.encloses {ts : List Token} {s t : State} (h : Skims ts (s.pushed (some .error)) t) :
    Encloses ts s (s.closed .error t) where
  laid := by
    have hlaid : t.top.built.reverse ++ t.held.map Token.leaf = ts.map Token.leaf := h.laid
    have hheld := h.held fun x hx => absurd hx List.not_mem_nil
    obtain ⟨body, blanks, rfl, hbody, hblanks⟩ := List.map_eq_append_iff.mp hlaid.symm
    refine ⟨body, blanks, rfl, fun x hx => ?_, ?_⟩
    · obtain ⟨y, hy, hleaf⟩ := List.mem_map.mp (hblanks ▸ List.mem_map_of_mem hx)
      have hkind : y.kind = x.kind := (Tree.leaf.inj hleaf).1
      exact hkind ▸ hheld y hy
    · rw [hbody, hblanks]
      simp [State.laid, State.closed, State.drain_eq]
  kept := by
    refine ⟨?_, ?_, ?_, h.kept.delimiters.trans ?_, h.kept.separating.trans ?_, h.kept.depth.trans ?_⟩ <;>
      simp [State.closed, State.pushed, State.drain_eq]
  said := h.said.trans (s.said_drain)
  limit := h.limit.trans (by simp [State.pushed, State.drain_eq])
  fuel := h.fuel.trans (by simp [State.pushed, State.drain_eq])
  exhausted := h.exhausted.trans (by simp [State.pushed, State.drain_eq])

/-- What a look passes does not matter if it is nothing. -/
theorem Encloses.of_skims {ts : List Token} {s t u : State} (h : Encloses ts t u) (hst : Skims [] s t) : Encloses ts s u where
  laid := by
    have hlaid : t.laid = s.laid := hst.laid.trans (List.append_nil _)
    rw [← hlaid]
    exact h.laid
  kept := hst.kept.trans h.kept
  said := h.said.trans hst.said
  limit := h.limit.trans hst.limit
  fuel := h.fuel.trans hst.fuel
  exhausted := h.exhausted.trans hst.exhausted

/-- A line that no statement begins with, from its first token on. It can be skipped as a whole. -/
structure Skippable (x : Token) (line : List Token) : Prop where
  solid : x.kind.isTrivia = false
  begins : KindSet.statementFirst.contains x.kind = false
  closes : x.kind.isCloser = false
  balanced : Kind.balanced 0 ((x :: line).map (·.kind)) = true
  line : ∀ t ∈ x :: line, t.kind ≠ .newline ∧ t.kind ≠ .semicolon

/-- Skipping the statement encloses the line. -/
theorem leads_skipStatement {s : State} {line after : List Token} {x newline : Token} (hs : s.Live)
    (hunread : s.unread = x :: (line ++ newline :: after)) (hnewline : newline.kind = .newline) (hline : Skippable x line) :
    Leads skipStatement s fun _ t => t.unread = newline :: after ∧ Encloses (x :: line) s t := by
  obtain ⟨hlooked, hunread'⟩ := Skims.looked_of_cons hs hunread hline.solid
  have hgoes : KindSet.statementEnd.contains s.looked.nextKind = false := by
    simp only [State.nextKind, hunread']
    exact statementEnd_contains (hline.line x List.mem_cons_self) hline.closes
  refine .act (b := false) (t := s) (by rw [Action.perform, hunread, hs.exhausted]; rfl) (.peek ?_)
  rw [if_neg (Bool.eq_false_iff.mp hgoes)]
  have hpushed : (s.looked.pushed (some .error)).Live := by
    obtain ⟨hseparating, hfuel, hexhausted⟩ := hlooked.live hs
    rw [State.pushed, State.drain_eq]
    exact ⟨hseparating, hfuel, hexhausted⟩
  have hskipTo := leads_skipTo (x :: line) hpushed ((s.looked.unread_pushed _).trans hunread') hnewline hline.balanced hline.line
  refine .node (hskipTo.imp ?_)
  rintro _ t ⟨ht, htail⟩
  exact ⟨ht.kept, htail, ht.encloses.of_skims hlooked⟩

/-- The diagnostic of a statement that does not begin. -/
def expectedAt (x : Token) : Diagnostic := { problem := .expectedExpression, span := x.span, detail := some (.found x.kind) }

/-- Reporting what was found instead of an expression. -/
theorem leads_reportFound {s : State} {rest : List Token} {x : Token} {Q : Unit → State → Prop} (hs : s.Live)
    (hunread : s.unread = x :: rest) (hx : x.kind.isTrivia = false) (h : Q () (s.looked.report (expectedAt x))) :
    Leads (reportFound .expectedExpression none) s Q := by
  obtain ⟨-, hunread'⟩ := Skims.looked_of_cons hs hunread hx
  have hready : s.looked.Ready := s.ready_skip
  refine .peek (.act (b := false) (t := s.looked) (by rw [Action.perform, hunread']; rfl) (.single ?_ h))
  simp only [Action.perform, State.skip_of_ready hready, State.nextKind, hunread', State.here, expectedAt]
  rfl

end Parser

end Remap
