import Remap.Proofs.Token.Places

/-!
# Names and `_`

Outside of strings `_` is no name. A template may name `_`, and there the two braces that open the template come right before it,
blanks apart.
-/

namespace Remap

/-- The kind of the last piece that is no trivia, after some pieces. -/
def solidAfter (last : Option Kind) (p : Kind × Text) : Option Kind := if p.1.isTrivia then last else some p.1

/-- The kind of the last piece that is no trivia in a row, if it follows others. -/
def lastSolid (last : Option Kind) (ps : List (Kind × Text)) : Option Kind := ps.foldl solidAfter last

/-- In a row of pieces behind others, `_` is a name only behind two braces that open a template. -/
def Sheltered : Option Kind → List (Kind × Text) → Prop
  | _, [] => True
  | last, p :: ps => (p = (.id, ['_']) → last = some .templateOpen) ∧ Sheltered (solidAfter last p) ps

namespace Sheltered

variable {last : Option Kind} {ps qs : List (Kind × Text)}

theorem weaken (h : Sheltered none ps) : Sheltered last ps := by
  induction ps generalizing last with
  | nil => trivial
  | cons p ps ih =>
    refine ⟨fun hp => absurd (h.1 hp) nofun, ?_⟩
    have hrest := h.2
    unfold solidAfter at hrest ⊢
    split
    · rename_i htrivia
      rw [if_pos htrivia] at hrest
      exact ih hrest
    · rename_i htrivia
      rwa [if_neg htrivia] at hrest

/-- A piece that is no name comes first. -/
theorem cons {k : Kind} {t : Text} (hk : k ≠ .id) (h : Sheltered (solidAfter last (k, t)) ps) : Sheltered last ((k, t) :: ps) :=
  ⟨fun hp => absurd (congrArg Prod.fst hp) hk, h⟩

theorem append (hp : Sheltered last ps) (hq : Sheltered none qs) : Sheltered last (ps ++ qs) := by
  induction ps generalizing last with
  | nil => exact hq.weaken
  | cons p ps ih => exact ⟨hp.1, ih hp.2⟩

theorem flatMap {ι : Type} {ls : List ι} {f : ι → List (Kind × Text)} (h : ∀ l ∈ ls, Sheltered none (f l)) :
    Sheltered none (ls.flatMap f) := by
  induction ls with
  | nil => trivial
  | cons l ls ih =>
    rw [List.flatMap_cons]
    exact (h l List.mem_cons_self).append (ih fun m hm => h m (List.mem_cons_of_mem _ hm))

/-- What comes before a name `_`. -/
theorem lastSolid_eq {before after : List (Kind × Text)} (h : Sheltered last (before ++ (.id, ['_']) :: after)) :
    lastSolid last before = some .templateOpen := by
  induction before generalizing last with
  | nil => exact h.1 rfl
  | cons p before ih => exact ih h.2

end Sheltered

/-- One piece that is no name `_`. -/
theorem sheltered_singleton {last : Option Kind} {k : Kind} {t : Text} (h : k = .id → t ≠ ['_']) : Sheltered last [(k, t)] :=
  ⟨fun hp => absurd (congrArg Prod.snd hp) (h (congrArg Prod.fst hp)), trivial⟩

theorem sheltered_other {last : Option Kind} {k : Kind} {t : Text} (hk : k ≠ .id) : Sheltered last [(k, t)] := .cons hk trivial

namespace Fragment

theorem sheltered_pieces (f : Fragment) : Sheltered none f.pieces := by
  cases f with
  | template lead name trail =>
    by_cases hlead : lead = [] <;> by_cases htrail : trail = [] <;>
      simp [pieces, Sheltered, solidAfter, hlead, htrail, Kind.isTrivia]
  | _ => exact sheltered_other (by decide)

theorem sheltered_piecesOf (fs : List Fragment) : Sheltered none (piecesOf fs) := by
  induction fs with
  | nil => trivial
  | cons f fs ih =>
    rw [piecesOf]
    split
    · split
      · rename_i t more hpieces
        rw [hpieces] at ih
        exact .cons (by decide) ih.2
      · exact .cons (by decide) ih.weaken
    · exact f.sheltered_pieces.append ih

end Fragment

namespace Lexeme

theorem sheltered_pieces {l : Lexeme} (h : l.kind = .id → l.text ≠ ['_']) : Sheltered none l.pieces := by
  have hquote : Sheltered none [(Kind.doubleQuote, ['"'])] := sheltered_other (by decide)
  unfold pieces
  split
  · exact (hquote.append (Fragment.sheltered_piecesOf _)).append hquote
  · exact hquote.append (Fragment.sheltered_piecesOf _)
  · exact sheltered_other (by decide)
  · exact sheltered_other (by decide)
  · exact sheltered_other (by decide)
  · exact sheltered_other (by split <;> decide)
  · exact sheltered_singleton h

end Lexeme

end Remap
