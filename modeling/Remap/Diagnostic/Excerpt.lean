import Remap.Diagnostic
import Remap.Diagnostic.Block
import Remap.Diagnostic.Stretch
import Remap.Text.Quoted

/-!
# Excerpts

A diagnostic reported with the source lines it points to: a title, the place if the source has a name, and the marked lines
with their marks. One line between two marked lines is shown, more are left out.

A report can only be drawn for spans of the source: none may end more than one byte after it or inside a character.
-/

namespace Remap.Excerpt

/-- Why a report cannot be drawn. -/
inductive Fault where
  /-- A span ends too far after the source. -/
  | beyond (span : Span) (size : Nat)
  /-- An offset lies inside a character of its line. -/
  | insideChar (offset : Nat) (char : Char) (start : Nat)
deriving DecidableEq, Repr, Inhabited

/-- The wording of a fault. -/
def Fault.message : Fault → String
  | .beyond span size =>
    "Annotation range `" ++ toString span.start ++ ".." ++ toString span.stop ++ "` is beyond the end of buffer `"
      ++ toString size ++ "`"
  | .insideChar offset char start =>
    "end byte index " ++ toString offset ++ " is not a char boundary; it is inside '"
      ++ String.ofList (Text.quoteChar char) ++ "' (bytes " ++ toString start ++ ".."
      ++ toString (start + char.utf8Size) ++ " of string)"

/-- The character of a text that has an offset inside it, with its start. -/
def splitChar? (start : Nat) : Text → Nat → Option (Char × Nat)
  | [], _ => none
  | c :: rest, offset =>
    if offset ≤ start then none
    else if offset < start + c.utf8Size then some (c, start)
    else splitChar? (start + c.utf8Size) rest offset

/-- The fault of an offset inside a character. -/
def charFault? (lines : List NumberedLine) (offset : Nat) : Option Fault := do
  let l ← NumberedLine.at? lines offset
  let (c, start) ← splitChar? 0 l.text (offset - l.start)
  return .insideChar (offset - l.start) c start

/-- What is wrong with the spans of a report. -/
def fault? (lines : List NumberedLine) (size : Nat) (spans : List Span) : Option Fault :=
  match spans.find? fun s => size + 1 < s.stop with
  | some s => some (.beyond s size)
  | none => spans.findSome? fun s => (charFault? lines s.start).or (charFault? lines s.stop)

/-- The spans of a diagnostic as they are drawn, its own first, with role and label. -/
def spans (size : Nat) (d : Diagnostic) : List (Mark.Role × Span × Text) :=
  (.primary, d.span.drawn size, d.message.toList)
    :: d.related.map fun r => (.related, r.span.drawn size, r.message.toList)

/-- A text cut at its line feeds. -/
def cutLines : Text → List Text
  | [] => [[]]
  | c :: rest =>
    match cutLines rest with
    | [] => [[c]]
    | t :: ts => if c = '\n' then [] :: t :: ts else (c :: t) :: ts

/-- The rows of a report that name the severity and the message. Further lines of the message are indented. -/
def title (d : Diagnostic) : Sheet :=
  let severity := d.severity.name.toList
  match cutLines (Text.shown d.message.toList) with
  | [] => []
  | first :: rest =>
    (Row.ofText .red severity ++ Row.ofText .bold (": ".toList ++ first))
      :: rest.map fun t => Row.blanks (severity.length + 2) ++ Row.ofText .bold t

/-- The marks of a report with the numbers of their lines, and how many upright lines stand beside each other. -/
def marks (lines : List NumberedLine) (size : Nat) (d : Diagnostic) : List (Nat × Mark) × Nat :=
  let placed := (spans size d).map fun (role, span, label) =>
    let start := Place.ofStart lines span.start
    (role, start, Place.ofStop lines start span.stop, label)
  let short := placed.filterMap fun (role, start, stop, label) =>
    if start.line = stop.line then
      let stop := if start.column = stop.column then { stop with column := stop.column + 1 } else stop
      some (start.line, { role, reach := .within, start, stop, label })
    else none
  let long := Stretch.arranged <| placed.filterMap fun (role, start, stop, label) =>
    if start.line = stop.line then none else some { role, start, stop, label }
  (short ++ long.flatMap (·.marks lines), (long.map (·.depth)).foldl max 0)

/-- The lines that have a mark, in order, each with its marks in order. -/
def markedLines (lines : List NumberedLine) (marks : List (Nat × Mark)) : List MarkedLine :=
  lines.filterMap fun l =>
    match marks.filterMap fun (n, m) => if n = l.number then some m else none with
    | [] => none
    | ms => some ⟨l, ms.mergeSort fun a b => a.start.notAfter b.start⟩

/-- The place of a diagnostic: its first marked line with a primary mark, and the leftmost such mark. -/
def place? (marked : List MarkedLine) : Option Place := do
  let m ← marked.find? fun m => m.marks.any (·.role = .primary)
  let mark ← m.marks.find? (·.role = .primary)
  return { mark.start with line := m.line.number }

/-- The row that names the source and the place of the diagnostic. -/
def header (digits : Nat) (path : Text) (marked : List MarkedLine) : Row :=
  let place := ((place? marked).map fun p => [':'] ++ Frame.decimal p.line ++ [':'] ++ Frame.decimal (p.chars + 1)).getD []
  Row.blanks digits ++ Row.ofText .blue "--> ".toList ++ Row.ofText .none (path ++ place)

/-- Upright lines beside rows. -/
def beside (f : Frame) (uprights : List (Nat × Ink)) (rows : Sheet) : Sheet :=
  rows.map fun r => uprights.foldl (fun r (depth, ink) => r.cover (f.upright depth) (.ofText ink ['|'])) r

/-- What stands between two marked lines: nothing, the only line between them, or dots for several. -/
def gap (f : Frame) (lines : List NumberedLine) (number next : Nat) : Sheet :=
  match lines.filter fun l => number < l.number && l.number < next with
  | [] => []
  | [l] => .ofStrokes (f.view l).strokes
  | _ => [Row.ofText .blue Row.dots]

/-- The upright lines after those that start or end: what goes on, and what starts. -/
def turned (active : List (Nat × Ink)) (turns : List (Nat × Ink)) : List (Nat × Ink) × List (Nat × Ink) :=
  turns.foldl (fun (active, begun) t =>
    if active.any (·.1 = t.1) then (active.filter (·.1 ≠ t.1), begun) else (active, begun ++ [t])) (active, [])

/-- The marked lines, their marks and what stands between them, beside the upright lines that go on from above. -/
def body (f : Frame) (lines : List NumberedLine) (active : List (Nat × Ink)) : List MarkedLine → Sheet
  | [] => []
  | m :: rest =>
    let b := f.block m
    let (active, begun) := turned active b.turns
    let opened := m.marks.filterMap fun k => k.opening?.map (·, k.role.ink)
    beside f active b.rows
      ++ (match rest with
        | [] => []
        | next :: _ => beside f (active ++ opened) (gap f lines m.line.number next.line.number))
      ++ body f lines (active ++ begun) rest

/-- The columns for line numbers: the digits of the line in which the last span ends. -/
def numberWidth (source : Text) (spans : List Span) : Nat :=
  let stop := min ((spans.map (·.stop)).foldl max 0) source.bytes
  (Frame.decimal (max 1 (Line.ofText (source.takeBytes stop)).length)).length

/-- The rows of one report. -/
def report (path : Option Text) (source : Text) (lines : List NumberedLine) (d : Diagnostic) : Except Fault Sheet :=
  let size := source.bytes
  let drawn := (spans size d).map (·.2.1)
  match fault? lines size drawn with
  | some fault => .error fault
  | none =>
    let (marks, depth) := marks lines size d
    let marked := markedLines lines marks
    let digits := numberWidth source drawn
    let width := Window.reportWidth - Frame.codeStart digits depth
    let window := Window.ofLines width (marked.map (·.line.text)) (marks.map (·.2))
    let f : Frame := { digits, depth, window }
    .ok <| title d
      ++ (match path with
        | none => []
        | some p => [header digits p marked])
      ++ .ofStrokes [f.bar 0]
      ++ body f lines [] marked

/-- The reports of diagnostics against their source, one below the other. -/
def render (withColors : Bool) (path : Option Text) (source : Text) (ds : Diagnostics) : Except Fault Text := do
  let sheets ← ds.mapM (report path source (NumberedLine.ofText source))
  return ['\n'].intercalate (sheets.flatten.map (·.write withColors))

end Remap.Excerpt
