import Remap.Text.Quoted
import Remap.Tree.Node

/-!
# Dumps

A dump shows a tree with one line per node or leaf, indented by depth. Spans and trivia are shown on request.
-/

namespace Remap.Dump

/-- The text of a string literal of the dump's own. -/
def str (s : String) : Text := s.toList

/-- A span as a dump shows it, after a blank. -/
def spanText (s : Span) : Text := str (" [" ++ toString s.start ++ ".." ++ toString s.stop ++ "]")

/-- A line at a depth. -/
def line (depth : Nat) (t : Text) : Text := List.replicate (2 * depth) ' ' ++ t

/-- Lines one below the other, each with a newline after it. -/
def joined (lines : List Text) : Text := lines.flatMap (· ++ ['\n'])

/-- What a dump of the tree shows. -/
structure TreeOptions where
  trivia : Bool
  spans : Bool
deriving DecidableEq, Repr, Inhabited

/-- The span of a text of some size at an offset, if spans are shown. -/
def spanIf (shown : Bool) (s : Span) : Text := if shown then spanText s else []

mutual
/-- The lines for a tree at an offset and a depth. -/
def tree (o : TreeOptions) (start depth : Nat) : Tree → List Text
  | .leaf k t =>
    if o.trivia || !k.isTrivia then
      [line depth (str k.name ++ spanIf o.spans (.ofSize start t.bytes) ++ [' '] ++ t.quoted)]
    else []
  | .node k cs =>
    line depth (str k.name ++ spanIf o.spans (.ofSize start (Tree.bytesOf cs))) :: trees o start (depth + 1) cs
/-- The lines for a row of trees from an offset on. -/
def trees (o : TreeOptions) (start depth : Nat) : List Tree → List Text
  | [] => []
  | t :: rest => tree o start depth t ++ trees o (start + t.bytes) depth rest
end

end Remap.Dump
