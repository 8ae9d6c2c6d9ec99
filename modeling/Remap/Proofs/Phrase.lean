import Remap.Program
import Remap.Proofs.Token.Tiling

/-!
# Phrases

A phrase is a whole expression: the typed view of a node, read down to its last part. Phrases cover names, integers, constants,
queries, groups, arrays, calls without closure, and operators. A phrase can be written out again, with one blank on each side of a
binary operator, one after each comma, and none elsewhere.
-/

namespace Remap

/-- A whole expression. -/
inductive Phrase where
  | ident (name : Text)
  | integer (value : Int)
  | boolean (value : Bool)
  | null
  | event (path : List Segment)
  | metadata (path : List Segment)
  /-- A path that starts from a computed value. -/
  | internal (root : Phrase) (path : List Segment)
  | group (inner : Phrase)
  | array (elements : List Phrase)
  | call (name : Text) (fallible : Bool) (arguments : List Phrase)
  | negation (operand : Phrase)
  | binary (op : BinaryOperator) (lhs rhs : Phrase)
deriving Repr, Inhabited

namespace Phrase

/-! ## Reading -/

/-- An argument without name. -/
def ofArgument? (read : Node → Option Phrase) : Argument → Option Phrase
  | .positional value => read value
  | .named _ _ _ => none

/-- The phrase that one layer of an expression is, given how the expressions inside it are read. -/
def ofExpr? (read : Node → Option Phrase) : Expr → Option Phrase
  | .ident (some name) => some (.ident name)
  | .literal (.integer (some value) _) => some (.integer value)
  | .literal (.boolean value) => some (.boolean value)
  | .literal .null => some .null
  | .query (some .event) _ path => some (.event path)
  | .query (some .metadata) _ path => some (.metadata path)
  | .query (some (.value root)) _ path => (read root).map (.internal · path)
  | .group (some inner) => (read inner).map .group
  | .array elements => (elements.mapM read).map .array
  | .call (some name) fallible arguments none => (arguments.mapM (ofArgument? read)).map (.call name fallible)
  | .unary (some operand) => (read operand).map .negation
  | .binary (some (op, _)) (some lhs) (some rhs) => do return .binary op (← read lhs) (← read rhs)
  | _ => none

/-- The phrase that a node is, if it is one with at most `levels` layers. -/
def ofNode? : Nat → Node → Option Phrase
  | 0, _ => none
  | levels + 1, n => n.expr?.bind (ofExpr? (ofNode? levels))

/-! ## Writing -/

/-- The kind of the node that a phrase is read from. -/
def kind : Phrase → Kind
  | .ident _ => .ident
  | .integer _ => .integerLit
  | .boolean _ => .booleanLit
  | .null => .nullLit
  | .event _ | .metadata _ | .internal _ _ => .query
  | .group _ => .group
  | .array _ => .array
  | .call _ _ _ => .functionCall
  | .negation _ => .unaryOp
  | .binary _ _ _ => .binaryOp

/-- The blank around operators and after commas. -/
def blank : Kind × Text := (.whitespace, [' '])

/-- An integer: its digits, after a minus sign if it is negative. -/
def integerPieces (i : Int) : List (Kind × Text) :=
  (if i < 0 then [(.minus, ['-'])] else []) ++ [(.integer, Nat.toDigits 10 i.natAbs)]

/-- The kind of token that a field name is. -/
def fieldKind (name : Text) : Kind := if name.contains '@' then .pathField else Lexeme.wordKind name

theorem fieldKind_mem (name : Text) : fieldKind name ∈ .pathField :: Lexeme.wordKinds := by
  unfold fieldKind
  split
  · exact List.mem_cons_self
  · exact List.mem_cons_of_mem _ (Lexeme.wordKind_mem name)

/-- The name of a field. -/
def namePiece (name : Text) : Kind × Text := (fieldKind name, name)

/-- A segment: a dot and a name, or an index in brackets. -/
def segmentPieces : Segment → List (Kind × Text)
  | .field name _ => [(.dot, ['.']), namePiece (name.getD [])]
  | .index value => (.bracketOpen, ['[']) :: (integerPieces (value.getD 0) ++ [(.bracketClose, [']'])])

/-- A path right after the root of an event or of its metadata: a field that comes first has no dot of its own. -/
def pathPieces : List Segment → List (Kind × Text)
  | .field name _ :: path => namePiece (name.getD []) :: path.flatMap segmentPieces
  | path => path.flatMap segmentPieces

/-- A binary operator. -/
def operatorPiece : BinaryOperator → Kind × Text
  | .errorCoalesce => (.questionQuestion, ['?', '?'])
  | .or => (.pipePipe, ['|', '|'])
  | .and => (.ampAmp, ['&', '&'])
  | .equal => (.equalsEquals, ['=', '='])
  | .notEqual => (.bangEquals, ['!', '='])
  | .greater => (.greater, ['>'])
  | .greaterOrEqual => (.greaterEquals, ['>', '='])
  | .less => (.less, ['<'])
  | .lessOrEqual => (.lessEquals, ['<', '='])
  | .merge => (.pipe, ['|'])
  | .add => (.plus, ['+'])
  | .subtract => (.minus, ['-'])
  | .multiply => (.star, ['*'])
  | .divide => (.slash, ['/'])

mutual
/-- The pieces of text that a phrase is written with, each with the kind of token that it is. -/
def pieces : Phrase → List (Kind × Text)
  | .ident name => [(.id, name)]
  | .integer value => integerPieces value
  | .boolean true => [(.kwTrue, ['t', 'r', 'u', 'e'])]
  | .boolean false => [(.kwFalse, ['f', 'a', 'l', 's', 'e'])]
  | .null => [(.kwNull, ['n', 'u', 'l', 'l'])]
  | .event path => (.dot, ['.']) :: pathPieces path
  | .metadata path => (.percent, ['%']) :: pathPieces path
  | .internal root path => root.pieces ++ path.flatMap segmentPieces
  | .group inner => (.parenOpen, ['(']) :: (inner.pieces ++ [(.parenClose, [')'])])
  | .array elements => (.bracketOpen, ['[']) :: (piecesOf elements ++ [(.bracketClose, [']'])])
  | .call name fallible arguments =>
    (.id, name) :: ((if fallible then [(.bang, ['!'])] else []) ++
      (.parenOpen, ['(']) :: (piecesOf arguments ++ [(.parenClose, [')'])]))
  | .negation operand => (.bang, ['!']) :: operand.pieces
  | .binary op lhs rhs => lhs.pieces ++ blank :: operatorPiece op :: blank :: rhs.pieces
/-- The items of a list, with a comma and a blank between them. -/
def piecesOf : List Phrase → List (Kind × Text)
  | [] => []
  | e :: es => e.pieces ++ morePieces es
/-- The items of a list after the first. -/
def morePieces : List Phrase → List (Kind × Text)
  | [] => []
  | e :: es => (.comma, [',']) :: blank :: (e.pieces ++ morePieces es)
end

/-- The text of a phrase. -/
def text (e : Phrase) : Text := spelled e.pieces

mutual
/-- The number of expressions in a phrase, itself included. -/
def size : Phrase → Nat
  | .internal root _ => root.size + 1
  | .group inner => inner.size + 1
  | .array elements => sizeOfAll elements + 1
  | .call _ _ arguments => sizeOfAll arguments + 1
  | .negation operand => operand.size + 1
  | .binary _ lhs rhs => lhs.size + rhs.size + 1
  | _ => 1
/-- The number of expressions in a row of phrases. -/
def sizeOfAll : List Phrase → Nat
  | [] => 0
  | e :: es => e.size + sizeOfAll es
end

/-! ## Phrases that are written as they are read -/

/-- The names of variables and functions: a letter or an underscore and then letters, digits and underscores, but neither a
reserved word nor `_`. -/
def isName : Text → Bool
  | [] => false
  | c :: t => Lexeme.isNameStart c && t.all Lexeme.isNamePart && Lexeme.wordKind (c :: t) == .id

/-- The names of fields that need no quotes. They may be reserved words and may hold `@`. -/
def isField : Text → Bool
  | [] => false
  | c :: t => (Lexeme.isNameStart c || c == '@') && t.all Lexeme.isFieldPart

/-- The integers of 64 bits. -/
def Fits (i : Int) : Prop := -9223372036854775808 ≤ i ∧ i < 9223372036854775808

instance (i : Int) : Decidable (Fits i) := inferInstanceAs (Decidable (_ ∧ _))

/-- The segments that are written without quotes. -/
inductive Plain : Segment → Prop
  | field {name : Text} (h : isField name = true) : Plain (.field (some name) false)
  | index {i : Int} (h : Fits i) : Plain (.index (some i))

/-- The operator of a binary operation. -/
def operator? : Phrase → Option BinaryOperator
  | .binary op _ _ => some op
  | _ => none

/-- What a path may start from: a name, a call, a group or an array. -/
def isRoot : Phrase → Bool
  | .ident _ | .call _ _ _ | .group _ | .array _ => true
  | _ => false

/-- The phrases whose names are names, whose integers have 64 bits, whose paths start from a root, and whose operations have
operands that need no parentheses: on the left side operations of at least their precedence, on the right side of a higher one,
and after `!` none. -/
inductive Proper : Phrase → Prop
  | ident {name : Text} (h : isName name = true) : Proper (.ident name)
  | integer {i : Int} (h : Fits i) : Proper (.integer i)
  | boolean (value : Bool) : Proper (.boolean value)
  | null : Proper .null
  | event {path : List Segment} (h : ∀ x ∈ path, Plain x) : Proper (.event path)
  | metadata {path : List Segment} (h : ∀ x ∈ path, Plain x) : Proper (.metadata path)
  | internal {root : Phrase} {path : List Segment} (hroot : Proper root) (hr : root.isRoot = true) (hne : path ≠ [])
      (h : ∀ x ∈ path, Plain x) : Proper (.internal root path)
  | group {inner : Phrase} (h : Proper inner) : Proper (.group inner)
  | array {elements : List Phrase} (h : ∀ e ∈ elements, Proper e) : Proper (.array elements)
  | call {name : Text} (fallible : Bool) {arguments : List Phrase} (hname : isName name = true)
      (h : ∀ e ∈ arguments, Proper e) : Proper (.call name fallible arguments)
  | negation {operand : Phrase} (h : Proper operand) (hop : operand.operator? = none) : Proper (.negation operand)
  | binary {op : BinaryOperator} {lhs rhs : Phrase} (hl : Proper lhs) (hr : Proper rhs)
      (hleft : ∀ o ∈ lhs.operator?, op.precedence ≤ o.precedence)
      (hright : ∀ o ∈ rhs.operator?, op.precedence < o.precedence) : Proper (.binary op lhs rhs)

end Phrase

/-- The statements of a program, each as the phrase that it is. -/
def Parsed.phrases (p : Parsed) : List (Option Phrase) := p.statements.map (Phrase.ofNode? p.tree.height)

end Remap
