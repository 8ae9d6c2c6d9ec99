import Remap.Expr
import Remap.Tree.Dump

/-!
# Dumps of the typed view

A dump of the typed view shows one line per expression with what it holds, indented by depth. Errors and loose `_` are
shown where a statement could stand.
-/

namespace Remap.Dump

/-- A line for a node: what it is, and its span if spans are shown. -/
def nodeLine (spans : Bool) (depth : Nat) (t : Text) (n : Node) : Text := line depth (t ++ spanIf spans n.span)

/-- A row of names with a comma and a blank between them. -/
def commaSeparated (ts : List Text) : Text := List.intercalate [',', ' '] ts

/-- A segment of a path as it would be written. -/
def segment : Segment → Text
  | .field name quoted =>
    let t := name.getD []
    ['.'] ++ if quoted then t.quoted else t
  | .index (some v) => str ("[" ++ toString v ++ "]")
  | .index none => str "[?]"

/-- The name of what a query starts from. -/
def rootName : Option QueryRoot → Text
  | some .event => str "event"
  | some .metadata => str "metadata"
  | some (.value _) => str "internal"
  | none => str "?"

/-- The statements of a program, block or condition, given how expressions are shown. -/
def statements (go : Nat → Node → List Text) (spans : Bool) (depth : Nat) (n : Node) : List Text :=
  n.nodes.flatMap fun c =>
    if c.kind = .error then [nodeLine spans depth (str "Error") c]
    else if c.kind = .noop then [nodeLine spans depth (str "Noop") c]
    else if c.isExpr then go depth c
    else []

/-- A condition or a block of an `if`. -/
def clause (go : Nat → Node → List Text) (spans : Bool) (depth : Nat) (n : Node) : List Text :=
  if n.kind = .predicate then
    nodeLine spans depth (str "Predicate") n :: statements go spans (depth + 1) n
  else if n.kind = .block then
    nodeLine spans depth (str "Block") n :: statements go spans (depth + 1) n
  else []

/-- An assignment target. -/
def target (go : Nat → Node → List Text) (spans : Bool) (depth : Nat) (n : Node) : List Text :=
  if n.kind = .noop then [nodeLine spans depth (str "Noop") n] else go depth n

/-- What an assignment stores into. -/
def assignee (go : Nat → Node → List Text) (spans : Bool) (depth : Nat) : Option Assignee → List Text
  | some (.single t) => target go spans depth t
  | some (.pair ok err) =>
    line depth (str "Infallible") :: (target go spans (depth + 1) ok ++ target go spans (depth + 1) err)
  | none => [line depth (str "Error")]

/-- An argument of a call. -/
def argument (go : Nat → Node → List Text) (spans : Bool) (depth : Nat) : Argument → List Text
  | .positional e => go depth e
  | .named n name value =>
    nodeLine spans depth (str "NamedArgument " ++ name.getD []) n :: value.elim [] (go (depth + 1))

/-- The closure of a call. -/
def closure (go : Nat → Node → List Text) (spans : Bool) (depth : Nat) (c : Closure) : List Text :=
  nodeLine spans depth (str "Closure |" ++ commaSeparated c.parameters ++ ['|']) c.node
    :: c.body.elim [] (go (depth + 1))

/-- An entry of an object. -/
def entry (go : Nat → Node → List Text) (spans : Bool) (depth : Nat) (e : Entry) : List Text :=
  nodeLine spans depth (str "Entry " ++ Text.quoted (e.key.getD [])) e.node :: e.value.elim [] (go (depth + 1))

/-- A part of a string. -/
def stringPart (depth : Nat) : StringPart → Text
  | .text t => line depth (str "Text " ++ t.quoted)
  | .template name => line depth (str "Template " ++ name)

/-- What the line of a literal says. -/
def literalText : Literal → Text
  | .string _ _ => str "String"
  | .rawString v => str "RawString " ++ Text.quoted (v.getD [])
  | .regex v => str "Regex " ++ Text.quoted (v.getD [])
  | .timestamp v => str "Timestamp " ++ Text.quoted (v.getD [])
  | .integer _ t => str "Integer " ++ t
  | .float _ t => str "Float " ++ t
  | .boolean b => str "Boolean " ++ str (if b then "true" else "false")
  | .null => str "Null"

/-- A literal, with the parts of a string on lines of their own. -/
def literal (spans : Bool) (depth : Nat) (n : Node) (l : Literal) : List Text :=
  nodeLine spans depth (literalText l) n ::
    match l with
    | .string parts _ => parts.map (stringPart (depth + 1))
    | _ => []

/-- One layer of an expression, given how the expressions inside it are shown. -/
def layer (go : Nat → Node → List Text) (spans : Bool) (depth : Nat) (n : Node) : List Text :=
  let head (t : Text) := [nodeLine spans depth t n]
  let inner (e : Option Node) := e.elim [] (go (depth + 1))
  match n.expr? with
  | none => []
  | some (.ifChain _ _) => head (str "IfStatement") ++ n.nodes.flatMap (clause go spans (depth + 1))
  | some (.abort message) => head (str "Abort") ++ inner message
  | some (.returning value) => head (str "Return") ++ inner value
  | some (.assignment a op value) =>
    head (str ("Assignment " ++ (op.map AssignOperator.symbol).getD "?")) ++ assignee go spans (depth + 1) a
      ++ inner value
  | some (.binary op lhs rhs) =>
    head (str ("BinaryOp " ++ (op.map (·.1.symbol)).getD "?")) ++ inner lhs ++ inner rhs
  | some (.unary operand) => head (str "UnaryOp !") ++ inner operand
  | some (.query root _ segments) =>
    let path := segments.flatMap segment
    head (str "Query " ++ rootName root ++ if path.isEmpty then [] else [' '] ++ path)
      ++ match root with
        | some (.value e) => go (depth + 1) e
        | _ => []
  | some (.call name fallible arguments c) =>
    head (str "FunctionCall " ++ name.getD [] ++ if fallible then ['!'] else [])
      ++ arguments.flatMap (argument go spans (depth + 1)) ++ c.elim [] (closure go spans (depth + 1))
  | some (.literal l) => literal spans depth n l
  | some (.array elements) => head (str "Array") ++ elements.flatMap (go (depth + 1))
  | some (.object entries) => head (str "Object") ++ entries.flatMap (entry go spans (depth + 1))
  | some (.block _) => head (str "Block") ++ statements go spans (depth + 1) n
  | some (.group e) => head (str "Group") ++ inner e
  | some (.ident name) => head (str "Ident " ++ name.getD [])

/-- An expression, down to `levels` layers below it. -/
def expr : Nat → Bool → Nat → Node → List Text
  | 0, _, _, _ => []
  | levels + 1, spans, depth, n => layer (expr levels spans) spans depth n

/-- A program. Its tree is no higher than the layers shown, so nothing is cut off. -/
def program (spans : Bool) (t : Tree) : List Text :=
  let n : Node := ⟨0, t⟩
  nodeLine spans 0 (str "Program") n :: statements (expr t.height spans) spans 1 n

end Remap.Dump
