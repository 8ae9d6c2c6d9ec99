import Remap.Kind
import Remap.Literal
import Remap.Token.Lexeme

/-!
# Fragments of a string

The body of a string literal is a sequence of plain characters, escapes and templates, where a template is a name between
double braces with blanks around it. Double braces that begin no template count as plain text.
-/

namespace Remap

/-- A smallest part of a string body. -/
inductive Fragment where
  /-- One character that stands for itself. -/
  | plain (c : Char)
  /-- A backslash and the character after it, if any. -/
  | escape (c : Option Char)
  /-- Two opening braces that begin no template. -/
  | openBraces
  /-- A name between double braces, with the blanks before and after it. -/
  | template (lead name trail : Text)
deriving DecidableEq, Repr, Inhabited

namespace Fragment

/-- Blanks inside a template. -/
def isPad (c : Char) : Bool := c = ' ' || c = '\t'

/-- The source text of a fragment. -/
def text : Fragment → Text
  | .plain c => [c]
  | .escape none => ['\\']
  | .escape (some c) => ['\\', c]
  | .openBraces => ['\x7b', '\x7b']
  | .template lead name trail => ['\x7b', '\x7b'] ++ lead ++ name ++ trail ++ ['\x7d', '\x7d']

/-- The template that continues two opening braces, if one does. -/
def template? (t : Text) : Option Fragment :=
  let lead := t.takeWhile isPad
  let afterLead := t.dropWhile isPad
  let name := afterLead.takeWhile Lexeme.isNamePart
  let afterName := afterLead.dropWhile Lexeme.isNamePart
  let trail := afterName.takeWhile isPad
  let afterTrail := afterName.dropWhile isPad
  if name.head?.any Lexeme.isNameStart && ['\x7d', '\x7d'].isPrefixOf afterTrail then some (.template lead name trail)
  else none

/-- The first fragment of a body that begins with `c`. -/
def first (c : Char) (rest : Text) : Fragment :=
  if c = '\\' then .escape rest.head?
  else if c = '\x7b' && rest.head? = some '\x7b' then (template? (rest.drop 1)).getD .openBraces
  else .plain c

/-- The fragments of a string body. -/
def split : Text → List Fragment
  | [] => []
  | c :: rest =>
    let f := first c rest
    f :: split (rest.drop (f.text.length - 1))
termination_by t => t.length
decreasing_by
  simp only [List.length_drop, List.length_cons]
  omega

/-- Whether a fragment is plain text. -/
def isText : Fragment → Bool
  | .plain _ | .openBraces => true
  | _ => false

/-- The pieces of text that a fragment which is not plain text gives tokens to. -/
def pieces : Fragment → List (Kind × Text)
  | .template lead name trail =>
    let blank := fun t : Text => if t.isEmpty then [] else [(Kind.whitespace, t)]
    [(.templateOpen, ['\x7b', '\x7b'])] ++ blank lead ++ [(.id, name)] ++ blank trail
      ++ [(.templateClose, ['\x7d', '\x7d'])]
  | f => [(.escape, f.text)]

/-- The pieces of text of a string body: runs of plain text are taken together. -/
def piecesOf : List Fragment → List (Kind × Text)
  | [] => []
  | f :: rest =>
    if f.isText then
      match piecesOf rest with
      | (.strText, t) :: more => (.strText, f.text ++ t) :: more
      | more => (.strText, f.text) :: more
    else f.pieces ++ piecesOf rest

end Fragment

end Remap
