import Remap.Diagnostic.Row

/-!
# Sheets

A sheet is a list of rows, and it is filled by strokes: each stroke draws a text in one ink at a row and a column. Strokes are
drawn in order, and a later one covers an earlier one.
-/

namespace Remap

/-- A text to be drawn at a row and a column, both from 0. -/
structure Stroke where
  row : Nat
  column : Nat
  ink : Ink
  text : Text
deriving DecidableEq, Repr, Inhabited

/-- Rows one below the other. -/
abbrev Sheet := List Row

namespace Sheet

/-- The sheet with one row changed. Empty rows fill the way to it. -/
def change (f : Row → Row) : Nat → Sheet → Sheet
  | 0, [] => [f []]
  | 0, r :: rest => f r :: rest
  | n + 1, [] => [] :: change f n []
  | n + 1, r :: rest => r :: change f n rest

/-- The sheet with a stroke drawn on it. A stroke without text leaves no trace. -/
def draw (s : Sheet) (k : Stroke) : Sheet :=
  if k.text.isEmpty then s else s.change (·.cover k.column (.ofText k.ink k.text)) k.row

/-- The sheet that strokes fill, drawn in order. -/
def ofStrokes (ks : List Stroke) : Sheet := ks.foldl draw []

@[simp] theorem draw_empty (s : Sheet) (row column : Nat) (ink : Ink) : s.draw ⟨row, column, ink, []⟩ = s := rfl

@[simp] theorem length_change (f : Row → Row) (n : Nat) (s : Sheet) : (s.change f n).length = max s.length (n + 1) := by
  fun_induction change f n s with
  | case1 => simp
  | case2 r rest => simp
  | case3 n ih => simp_all
  | case4 n r rest ih => simp_all

end Sheet

end Remap
