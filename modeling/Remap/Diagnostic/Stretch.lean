import Remap.Diagnostic.Mark

/-!
# Spans of several lines

A span that ends on a later line than it starts is drawn with an upright line at the left of the code. Spans that share a
line get upright lines of different depth.
-/

namespace Remap

/-- A span of several lines. -/
structure Stretch where
  role : Mark.Role
  start : Place
  stop : Place
  label : Text
  depth : Nat := 1
  /-- Whether another stretch with the same ends is drawn for this one. -/
  covered : Bool := false
deriving DecidableEq, Repr, Inhabited

namespace Stretch

/-- Whether two stretches have the same ends. -/
def sameSpan (a b : Stretch) : Bool := a.start = b.start && a.stop = b.stop

/-- Whether two stretches share a line. -/
def touches (a b : Stretch) : Bool :=
  (b.start.line ≤ a.start.line && a.start.line ≤ b.stop.line)
    || (a.start.line ≤ b.start.line && b.start.line ≤ a.stop.line)

/-- The stretches before and at `s` make way for it: one that shares a line goes deeper, one with the same ends is covered.
The stretch that is drawn for a primary one is primary. -/
def makeWay (s : Stretch) (primaries : List Stretch) : List Stretch → List Stretch
  | [] => []
  | a :: rest =>
    if !s.sameSpan a && s.touches a then { a with depth := a.depth + 1 } :: makeWay s primaries rest
    else if s.sameSpan a && s ≠ a then { a with covered := true } :: makeWay s primaries rest
    else (if primaries.any a.sameSpan then { a with role := .primary } else a) :: rest

/-- The stretches by their first line, the longer ones first, each at its depth. The deepest number belongs to the innermost
upright line. -/
def arranged (ss : List Stretch) : List Stretch :=
  let sorted := ss.mergeSort fun a b =>
    a.start.line < b.start.line || a.start.line = b.start.line && b.stop.line ≤ a.stop.line
  let (_, placed) := sorted.foldl (fun (primaries, acc) s =>
    let primaries := if s.role = .primary then s :: primaries else primaries
    (primaries, makeWay s primaries acc)) ([], sorted)
  let deepest := (placed.map (·.depth)).foldl max 0
  placed.map fun s => { s with depth := deepest - s.depth + 1 }

/-- The lines that hold nothing but a bracket, or nothing at all. -/
def bareLines : List Text := [[], ['\x7b'], ['\x7d'], ['('], [')'], ['['], [']']]

/-- Whether a line is more than a blank, a comment or a bracket alone. -/
def tells (t : Text) : Bool :=
  let t := t.trim
  let starts := fun (s : String) => s.toList.isPrefixOf t
  !(starts "//" && !(starts "///" || starts "//!")) && !bareLines.contains t

/-- The lines that a stretch passes and that are shown: up to three after the first one, without those at the end that tell
nothing, and the last but one if it tells something. -/
def passed (lines : List NumberedLine) (s : Stretch) : List Nat :=
  let telling := fun n => ((lines.find? (·.number = n)).map fun l => tells l.text).getD false
  let empty := fun n => ((lines.find? (·.number = n)).map fun l => !tells l.text).getD false
  let middle := min (s.start.line + 4) s.stop.line
  let stop :=
    match (List.range' s.start.line (middle - s.start.line)).reverse.find? telling with
    | some n => n + 1
    | none => s.start.line
  let last := s.stop.line - 1
  List.range' (s.start.line + 1) (stop - (s.start.line + 1))
    ++ (if middle < last && !empty last then [last] else [])

/-- The marks of a stretch with the numbers of their lines. -/
def marks (lines : List NumberedLine) (s : Stretch) : List (Nat × Mark) :=
  let closing : Mark :=
    { role := s.role, reach := if s.covered then .within else .closes s.depth, start := s.stop.previous, stop := s.stop,
      label := s.label }
  let opening : Mark :=
    { role := s.role, reach := .opens s.depth, start := s.start, stop := s.start.next, label := [] }
  let passing : Mark :=
    { role := s.role, reach := .passes s.depth, start := default, stop := default, label := [] }
  (if s.covered then [] else (s.start.line, opening) :: (s.passed lines).map (·, passing)) ++ [(s.stop.line, closing)]

end Stretch

end Remap
