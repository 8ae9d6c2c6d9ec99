import Remap.Proofs.Parser.Crossing
import Remap.Proofs.Parser.Scope

/-!
# The states a run comes by

`Reaches y v x s` says that a run of the routine `x` from the state `s` comes to the state `v`, where `y` is what is left to do: in
`x` itself, in a rule that it enters, or after one that returned. It does not matter how the run ends, or whether it does.

Along a run the nesting depth is counted. A routine of the grammar leaves only levels that it entered, and leaves all of them
before it is done (`Routine.Levels`). So it never leaves a level at depth zero, and since it enters one only below the limit, the
depth does not exceed the limit anywhere.
-/

namespace Remap.Parser

variable {α β γ : Type}

/-- A run of a routine from a state comes to the state `v` with the routine `y` left to run. -/
inductive Reaches (y : Routine β) (v : State) : {α : Type} → Routine α → State → Prop where
  | here : Reaches y v y v
  | act {α γ : Type} {action : Action γ} {next : γ → Routine α} {s s' : State} {c : γ} :
      action.perform s = .ok (c, s') → Reaches y v (next c) s' → Reaches y v (.act action next) s
  | callInside {α γ : Type} {rule : Rule γ} {next : γ → Routine α} {s : State} :
      Reaches y v (grammar rule) s → Reaches y v (.call rule next) s
  | callAfter {α γ : Type} {rule : Rule γ} {next : γ → Routine α} {s s' : State} {c : γ} {n : Nat} :
      runRule n rule s = .ok (c, s') → Reaches y v (next c) s' → Reaches y v (.call rule next) s
  | jumpInside {α : Type} {rule : Rule α} {s : State} : Reaches y v (grammar rule) s → Reaches y v (.jump rule) s

/-! ## Levels -/

/-- The levels that are open after an action and its reply, if so many were open before. -/
def Action.levelsAfter : {α : Type} → Action α → α → Nat → Nat
  | _, .enter, .entered, d => d + 1
  | _, .leave, _, d => d - 1
  | _, _, _, d => d

/-- Whether an action leaves a level. -/
def Action.isLeave : {α : Type} → Action α → Bool
  | _, .leave => true
  | _, _ => false

/-- Entered with `d` levels of its own open, a routine leaves only levels of its own, and ends with `e` of them open. -/
def Routine.Levels : Routine α → Nat → Nat → Prop
  | .done _, d, e => d = e
  | .fail _, _, _ => True
  | .act action next, d, e => (action.isLeave = true → 0 < d) ∧ ∀ b, (next b).Levels (action.levelsAfter b d) e
  | .call _ next, d, e => ∀ b, (next b).Levels d e
  | .jump _, d, e => d = e

namespace Routine.Levels

variable {d e : Nat}

theorem bind {x : Routine α} {f : α → Routine β} {m : Nat} (hx : x.Levels d m) (hf : ∀ a, (f a).Levels m e) :
    (x.bind f).Levels d e := by
  induction x generalizing d with
  | done a =>
    obtain rfl : d = m := hx
    exact hf a
  | fail f => trivial
  | act action next ih => exact ⟨hx.1, fun b => ih b (hx.2 b)⟩
  | call rule next ih => exact fun b => ih b (hx b)
  | jump rule =>
    obtain rfl : d = m := hx
    exact hf

/-- Levels that were open before make no difference. -/
theorem frame {x : Routine α} (k : Nat) (hx : x.Levels d e) : x.Levels (d + k) (e + k) := by
  induction x generalizing d with
  | done a => exact congrArg (· + k) hx
  | fail f => trivial
  | act action next ih =>
    refine ⟨fun h => Nat.lt_of_lt_of_le (hx.1 h) (Nat.le_add_right d k), fun b => ?_⟩
    have hlevels : action.levelsAfter b (d + k) = action.levelsAfter b d + k := by
      cases action with
      | enter =>
        cases b with
        | entered => exact Nat.add_right_comm d k 1
        | _ => rfl
      | leave =>
        have hpos : 0 < d := hx.1 rfl
        show d + k - 1 = d - 1 + k
        omega
      | _ => rfl
    rw [hlevels]
    exact ih b (hx.2 b)
  | call rule next ih => exact fun b => ih b (hx b)
  | jump rule => exact congrArg (· + k) hx

/-- An action that neither enters nor leaves a level. -/
theorem single {action : Action α} (hleave : action.isLeave = false) (hlevels : ∀ b, action.levelsAfter b d = d) :
    (Parser.act action).Levels d d :=
  ⟨fun h => absurd (hleave.symm.trans h) Bool.false_ne_true, hlevels⟩

/-- Building one level deeper, whatever the reply to the attempt to enter is. -/
theorem nested {body : Routine Kind} (h : body.Levels 0 0) : (Parser.nested body).Levels 0 0 := by
  refine ⟨nofun, fun reply => ?_⟩
  cases reply with
  | entered => exact (h.frame 1).bind fun k => ⟨fun _ => Nat.one_pos, fun _ => rfl⟩
  | overflow =>
    have herror : (Parser.node .error (do Parser.rule .absorb; Parser.act .settle)).Levels 0 0 :=
      ⟨nofun, fun _ _ => ⟨nofun, fun _ => ⟨nofun, fun _ => rfl⟩⟩⟩
    exact herror.bind fun _ => rfl
  | blocked => rfl

end Routine.Levels

/-- Every routine that is put together as in the grammar leaves as many levels as it enters. -/
theorem uniform_levels : Uniform fun x => x.Levels 0 0 where
  done _ := rfl
  fail _ := trivial
  bind hx hf := hx.bind hf
  rule _ := rfl
  simple {_ action} h := by
    cases action with
    | enter | leave => cases h
    | _ => exact .single rfl fun _ => rfl
  marked h := ⟨nofun, fun _ => h.bind fun _ => ⟨nofun, fun _ => rfl⟩⟩
  separating _ h := ⟨nofun, fun _ => h.bind fun _ => ⟨nofun, fun _ => rfl⟩⟩
  nested := .nested
  node _ h := ⟨nofun, fun _ => h.bind fun _ => ⟨nofun, fun _ => rfl⟩⟩
  wrapped _ h := ⟨nofun, fun _ => h.bind fun _ => ⟨nofun, fun _ => rfl⟩⟩
  anyNode _ h := ⟨nofun, fun _ => h.bind fun _ => ⟨nofun, fun _ => rfl⟩⟩
  anyWrapped _ h := ⟨nofun, fun _ => h.bind fun _ => ⟨nofun, fun _ => rfl⟩⟩

theorem levels_grammar (r : Rule α) : (grammar r).Levels 0 0 :=
  uniform_grammar uniform_levels (uniform_objectOrBlock uniform_levels (.single rfl fun _ => rfl)) r

/-! ## The depth along a run -/

/-- An action changes the depth as it changes the levels that are open, and keeps it within the limit. -/
theorem depth_perform {action : Action α} {s t : State} {a : α} {d : Nat} (h : action.perform s = .ok (a, t))
    (hleave : action.isLeave = true → 0 < d) (hd : d ≤ s.depth) (hlimit : s.depth ≤ s.limit) :
    t.depth + d = s.depth + action.levelsAfter a d ∧ t.depth ≤ t.limit := by
  have hsame : t.limit = s.limit := respected_limit.perform h
  have hkeep (hdepth : t.depth = s.depth) : t.depth + d = s.depth + d ∧ t.depth ≤ t.limit := by omega
  cases action with
  | enter =>
    rw [State.perform_enter] at h
    split at h
    · cases h
      exact hkeep rfl
    split at h
    · rename_i hroom
      cases h
      exact ⟨Nat.add_right_comm s.depth 1 d, hroom⟩
    · cases h
      exact hkeep (Kept.skip s).depth
  | leave =>
    cases h
    have hpos : 0 < d := hleave rfl
    show s.depth - 1 + d = s.depth + (d - 1) ∧ s.depth - 1 ≤ s.limit
    omega
  | closeNode | wrap k | unmark =>
    simp only [Action.perform] at h
    split at h <;> cases h
    exact hkeep rfl
  | openNode k | mark =>
    cases h
    exact hkeep (Kept.drain s).depth
  | pushDelimiter k =>
    cases h
    exact hkeep (Kept.skip s).depth
  | popDelimiter | setSeparating b =>
    cases h
    exact hkeep rfl
  | _ => exact hkeep ((kept_perform rfl s).of_ok h).depth

/-- A routine that returns gives back the depth it began at, but for the levels it leaves open, if the rules it enters give back
theirs. -/
theorem depth_run {enter : {γ : Type} → Rule γ → Step γ}
    (he : ∀ {γ : Type} (r : Rule γ) {s t : State} {c : γ}, s.depth ≤ s.limit → enter r s = .ok (c, t) →
      t.depth = s.depth ∧ t.depth ≤ t.limit)
    {x : Routine α} {s t : State} {a : α} {d e : Nat} (hx : x.Levels d e) (hd : d ≤ s.depth) (hlimit : s.depth ≤ s.limit)
    (h : x.run enter s = .ok (a, t)) : t.depth + d = s.depth + e ∧ t.depth ≤ t.limit := by
  induction x generalizing s d with
  | done b =>
    cases h
    obtain rfl : d = e := hx
    exact ⟨rfl, hlimit⟩
  | fail f => cases h
  | act action next ih =>
    obtain ⟨b, u, hp, hn⟩ := Routine.run_act_eq_ok.mp h
    obtain ⟨hdepth, hlimit'⟩ := depth_perform hp hx.1 hd hlimit
    obtain ⟨hrest, ht⟩ := ih b (hx.2 b) (by omega) hlimit' hn
    exact ⟨by omega, ht⟩
  | call rule next ih =>
    obtain ⟨b, u, hr, hn⟩ := Routine.run_call_eq_ok.mp h
    obtain ⟨hdepth, hlimit'⟩ := he rule hlimit hr
    obtain ⟨hrest, ht⟩ := ih b (hx b) (by omega) hlimit' hn
    exact ⟨by omega, ht⟩
  | jump rule =>
    obtain ⟨hdepth, ht⟩ := he rule hlimit h
    obtain rfl : d = e := hx
    exact ⟨by omega, ht⟩

/-- Every rule gives back the depth it began at, by induction on the bound on nested rules. -/
theorem depth_runRule {n : Nat} {r : Rule α} {s t : State} {a : α} (hlimit : s.depth ≤ s.limit)
    (h : runRule n r s = .ok (a, t)) : t.depth = s.depth ∧ t.depth ≤ t.limit := by
  induction n generalizing α s t with
  | zero => cases h
  | succ n ih =>
    obtain ⟨hdepth, ht⟩ := depth_run (fun _ _ _ _ => ih) (levels_grammar r) (Nat.zero_le _) hlimit h
    exact ⟨by omega, ht⟩

/-- Wherever a run comes by, the levels that the routine there may still leave are entered, and the limit is not exceeded. -/
theorem Reaches.levels {y : Routine β} {v : State} {x : Routine α} {s : State} (h : Reaches y v x s) {d e : Nat}
    (hx : x.Levels d e) (hd : d ≤ s.depth) (hlimit : s.depth ≤ s.limit) :
    ∃ d' e', y.Levels d' e' ∧ d' ≤ v.depth ∧ v.depth ≤ v.limit ∧ v.limit = s.limit := by
  induction h generalizing d e with
  | here => exact ⟨d, e, hx, hd, hlimit, rfl⟩
  | act hp _ ih =>
    obtain ⟨hdepth, hlimit'⟩ := depth_perform hp hx.1 hd hlimit
    have hsame := respected_limit.perform hp
    obtain ⟨d', e', hy, hd', hv, hlim⟩ := ih (hx.2 _) (by omega) hlimit'
    exact ⟨d', e', hy, hd', hv, hlim.trans hsame⟩
  | callInside _ ih | jumpInside _ ih => exact ih (levels_grammar _) (Nat.zero_le _) hlimit
  | callAfter hr _ ih =>
    obtain ⟨hdepth, hlimit'⟩ := depth_runRule hlimit hr
    have hsame := respected_limit.runRule hr
    obtain ⟨d', e', hy, hd', hv, hlim⟩ := ih (hx _) (by omega) hlimit'
    exact ⟨d', e', hy, hd', hv, hlim.trans hsame⟩

/-- A run that begins within the limit stays within it. -/
theorem Reaches.depth_le {y : Routine β} {v : State} {x : Routine α} {s : State} (h : Reaches y v x s) (hx : x.Levels 0 0)
    (hlimit : s.depth ≤ s.limit) : v.depth ≤ v.limit ∧ v.limit = s.limit := by
  obtain ⟨_, _, -, -, hv, hsame⟩ := h.levels hx (Nat.zero_le _) hlimit
  exact ⟨hv, hsame⟩

/-- A level is left only where one was entered. -/
theorem Reaches.depth_pos {next : Unit → Routine β} {v : State} {x : Routine α} {s : State}
    (h : Reaches (.act .leave next) v x s) (hx : x.Levels 0 0) (hlimit : s.depth ≤ s.limit) : 0 < v.depth := by
  obtain ⟨_, _, hleave, hd, -, -⟩ := h.levels hx (Nat.zero_le _) hlimit
  exact Nat.lt_of_lt_of_le (hleave.1 rfl) hd

end Remap.Parser
