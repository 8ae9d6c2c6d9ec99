import Remap.Diagnostic.Detail
import Remap.Diagnostic.Location
import Remap.Problem

/-!
# Diagnostics

A diagnostic is a problem at a span, perhaps with a detail and with remarks about other spans. Diagnostics are collected in
the order in which they are found, then ordered by position and located in the source.
-/

namespace Remap

/-- A remark about another place. -/
structure Related where
  span : Span
  remark : Remark
deriving DecidableEq, Repr, Inhabited

/-- The wording of a related remark. -/
def Related.message (r : Related) : String := r.remark.text

/-- A problem found in a source text. -/
structure Diagnostic where
  problem : Problem
  span : Span
  detail : Option Detail := none
  related : List Related := []
  location : Location := {}
deriving DecidableEq, Repr, Inhabited

namespace Diagnostic

/-- The message shown to the reader. -/
def message (d : Diagnostic) : String := d.problem.message (d.detail.map Detail.text)

/-- How grave the diagnostic is. -/
def severity (d : Diagnostic) : Severity := d.problem.severity

/-- Whether the diagnostic makes the source invalid. -/
def isError (d : Diagnostic) : Bool := d.severity = .error

/-- The diagnostic with a detail in place of the one it had. -/
def withDetail (d : Diagnostic) (detail : Detail) : Diagnostic := { d with detail := some detail }

/-- The diagnostic with one more remark. -/
def relatedTo (d : Diagnostic) (remark : Remark) (span : Span) : Diagnostic :=
  { d with related := d.related ++ [⟨span, remark⟩] }

/-- The diagnostic with its location filled in. -/
def locate (source : Text) (d : Diagnostic) : Diagnostic := { d with location := .ofSpan source d.span }

/-- One line: severity, location, message and the related remarks. -/
def plain (d : Diagnostic) : String :=
  d.severity.name ++ " at " ++ d.location.display ++ ".." ++ toString d.location.endLine ++ ":"
    ++ toString d.location.endColumn ++ ": " ++ d.message
    ++ String.join (d.related.map fun r =>
      " (" ++ r.message ++ " at " ++ toString r.span.start ++ ".." ++ toString r.span.stop ++ ")")

end Diagnostic

/-- Diagnostics in the order in which they were found. -/
abbrev Diagnostics := List Diagnostic

namespace Diagnostics

/-- The diagnostics by start of their span; those at one offset keep their order. -/
def sortByPosition (ds : Diagnostics) : Diagnostics := ds.mergeSort fun a b => a.span.start ≤ b.span.start

/-- The diagnostics located in a source text. -/
def locate (source : Text) (ds : Diagnostics) : Diagnostics := ds.map (·.locate source)

/-- Whether some diagnostic is an error. -/
def hasErrors (ds : Diagnostics) : Bool := ds.any (·.isError)

/-- How many diagnostics are errors. -/
def errorCount (ds : Diagnostics) : Nat := ds.countP (·.isError)

/-- One line per diagnostic. -/
def plain (ds : Diagnostics) : String := "\n".intercalate (ds.map (·.plain))

end Diagnostics

end Remap
