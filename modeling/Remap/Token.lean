import Remap.Kind
import Remap.Span
import Remap.Text

/-!
# Tokens

A token is a kinded piece of the source text at a byte offset. It also knows whether it touches the token before it,
which is what the continuation of a path is decided on.
-/

namespace Remap

/-- A piece of source text with its kind and place. -/
structure Token where
  kind : Kind
  text : Text
  start : Nat
  /-- Neither whitespace, newline nor comment stands between this token and the one before it. -/
  immediate : Bool
deriving DecidableEq, Repr, Inhabited

namespace Token

/-- The offset right after the token. -/
def stop (t : Token) : Nat := t.start + t.text.bytes

/-- The span of the token. -/
def span (t : Token) : Span := ⟨t.start, t.stop⟩

/-- Tokens for consecutive pieces of text from an offset on, after a token of kind `previous`. -/
def place : Nat → Option Kind → List (Kind × Text) → List Token
  | _, _, [] => []
  | offset, previous, (kind, text) :: rest =>
    ⟨kind, text, offset, previous.any (!·.breaksAdjacency)⟩ :: place (offset + text.bytes) (some kind) rest

end Token

end Remap
