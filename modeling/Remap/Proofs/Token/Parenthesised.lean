import Remap.Proofs.Token.Join

/-!
# A source in parentheses

No lexeme of a source without lexical problems looks past a closing parenthesis that is put after it, unless the source ends in a
blank or a comment. So the tokens of the source in parentheses are those of the source between the two parentheses, but for
where they stand. The first of them touches the opening parenthesis.
-/

namespace Remap

namespace Lexeme

end Lexeme

/-- A token as it is right after one that it touches. -/
def Token.touching (t : Token) : Token := { t with immediate := true }

end Remap
