import Remap.Literal
import Remap.Operator
import Remap.Tree.Node

/-!
# Expressions

The typed view of a tree, one layer at a time. A node that is an expression is seen as one of the forms of `Expr`, whose
parts are nodes again. Every part that a recovered tree may lack is optional.
-/

namespace Remap

/-- A part of a string. -/
inductive StringPart where
  /-- Text, with escapes decoded. -/
  | text (t : Text)
  /-- The name in a template. -/
  | template (name : Text)
deriving DecidableEq, Repr, Inhabited

/-- The text a part of a string stands for, with templates written out. -/
def StringPart.written : StringPart → Text
  | .text t => t
  | .template name => ['\x7b', '\x7b', ' '] ++ name ++ [' ', '\x7d', '\x7d']

/-- Parts of a string with more text before them. -/
def StringPart.prepend (t : Text) : List StringPart → List StringPart
  | .text u :: parts => .text (t ++ u) :: parts
  | parts => if t.isEmpty then parts else .text t :: parts

/-- A segment of a path. -/
inductive Segment where
  | field (name : Option Text) (quoted : Bool)
  | index (value : Option Int)
deriving DecidableEq, Repr, Inhabited

/-- What a query starts from. -/
inductive QueryRoot where
  | event
  | metadata
  /-- A computed value. -/
  | value (e : Node)
deriving Repr, Inhabited

/-- What an assignment stores into. Targets are `_`, queries and names. -/
inductive Assignee where
  | single (target : Node)
  /-- A target for the value and one for the error. -/
  | pair (ok err : Node)
deriving Repr, Inhabited

/-- An argument of a call. -/
inductive Argument where
  | positional (value : Node)
  | named (node : Node) (name : Option Text) (value : Option Node)
deriving Repr, Inhabited

/-- An entry of an object. -/
structure Entry where
  node : Node
  key : Option Text
  value : Option Node
deriving Repr, Inhabited

/-- The closure of a call. -/
structure Closure where
  node : Node
  parameters : List Text
  body : Option Node
deriving Repr, Inhabited

/-- A literal value. -/
inductive Literal where
  | string (parts : List StringPart) (terminated : Bool)
  | rawString (value : Option Text)
  | regex (pattern : Option Text)
  | timestamp (value : Option Text)
  | integer (value : Option Int) (text : Text)
  /-- The value as the bits of a binary64 number. -/
  | float (bits : Option Nat) (text : Text)
  | boolean (value : Bool)
  | null
deriving DecidableEq, Repr, Inhabited

/-- One layer of an expression. -/
inductive Expr where
  | ifChain (predicates blocks : List Node)
  | abort (message : Option Node)
  | returning (value : Option Node)
  | assignment (assignee : Option Assignee) (operator : Option AssignOperator) (value : Option Node)
  | binary (operator : Option (BinaryOperator × Span)) (lhs rhs : Option Node)
  | unary (operand : Option Node)
  | query (root : Option QueryRoot) (path : Option Node) (segments : List Segment)
  | call (name : Option Text) (fallible : Bool) (arguments : List Argument) (closure : Option Closure)
  | literal (l : Literal)
  | array (elements : List Node)
  | object (entries : List Entry)
  | block (statements : List Node)
  | group (inner : Option Node)
  | ident (name : Option Text)
deriving Repr, Inhabited

/-- Whether a node of a kind is an expression. -/
def Kind.isExpr : Kind → Bool
  | .ifStatement | .abortStatement | .returnStatement | .assignment | .binaryOp | .unaryOp | .query | .functionCall
  | .array | .object | .block | .group | .ident | .stringLit | .rawStringLit | .integerLit | .floatLit | .booleanLit
  | .nullLit | .regexLit | .timestampLit => true
  | _ => false

/-- Whether a node of a kind is an assignment target. -/
def Kind.isTarget : Kind → Bool
  | .noop | .query | .ident => true
  | _ => false

namespace Node

/-- Whether the node is an expression. -/
def isExpr (n : Node) : Bool := !n.isLeaf && n.kind.isExpr

/-- The expressions among the children; for a program or block these are its statements. -/
def exprs (n : Node) : List Node := n.nodes.filter (·.isExpr)

/-- The first expression among the children after the first leaf of a kind. -/
def exprAfter? (n : Node) (k : Kind) : Option Node :=
  (n.elements.dropWhile fun e => !(e.isLeaf && e.kind = k)).find? (·.isExpr)

/-- The text of the first leaf among the children of a kind. -/
def leafText? (n : Node) (k : Kind) : Option Text := (n.leaf? (· = k)).map (·.text)

/-- The text of a literal: its leaves without trivia. -/
def literalText (n : Node) : Text := ((n.leaves.filter (!·.kind.isTrivia)).map (·.text)).flatten

/-- The integer an integer literal or an index writes. -/
def integer? (n : Node) : Option Int :=
  match n.leafText? .integer with
  | some t => Literal.integer? (n.leaf? (· = .minus)).isSome t
  | none => none

/-- The parts of a string that the children of its node stand for: runs of text are taken together. -/
def partsOf : List Node → List StringPart
  | [] => []
  | e :: rest =>
    match e.tree with
    | .leaf .strText t => StringPart.prepend t (partsOf rest)
    | .leaf .escape t => StringPart.prepend (Literal.decodeEscape t) (partsOf rest)
    | .node .template _ => .template ((e.leafText? .id).getD []) :: partsOf rest
    | _ => partsOf rest

/-- The parts of a string. -/
def stringParts (n : Node) : List StringPart := partsOf n.elements

/-- The text of a string literal, with templates written out. -/
def stringText (n : Node) : Text := (n.stringParts.map StringPart.written).flatten

/-- Whether a string literal has both its quotes. -/
def isTerminated (n : Node) : Bool := n.leaves.countP (·.kind = .doubleQuote) = 2

/-- The segment a path node holds. -/
def segment? (n : Node) : Option Segment :=
  match n.kind with
  | .fieldSegment =>
    match n.node? .stringLit with
    | some s => some (.field (some s.stringText) true)
    | none => some (.field ((n.leaf? Kind.isFieldName).map (·.text)) false)
  | .indexSegment => some (.index n.integer?)
  | _ => none

/-- The segments of a path. -/
def segments (n : Node) : List Segment := n.nodes.filterMap segment?

/-- What a query starts from. -/
def queryRoot? (n : Node) : Option QueryRoot :=
  match n.elements.find? fun e => !e.isLeaf || e.kind = .dot || e.kind = .percent with
  | none => none
  | some e =>
    if e.isLeaf then (if e.kind = .dot then some .event else some .metadata)
    else if e.isExpr then some (.value e)
    else none

/-- What an assignment stores into. -/
def assignee? (n : Node) : Option Assignee :=
  match n.nodes.head? with
  | none => none
  | some first =>
    if first.kind = .infallibleTarget then
      match first.nodes.filter (·.kind.isTarget) with
      | ok :: err :: _ => some (.pair ok err)
      | _ => none
    else if first.kind.isTarget then some (.single first)
    else none

/-- The operator of an assignment. -/
def assignOperator? (n : Node) : Option AssignOperator := n.leaves.findSome? fun l => AssignOperator.ofKind? l.kind

/-- The operator of a binary operation, with its token. -/
def binaryOperator? (n : Node) : Option (BinaryOperator × Node) :=
  n.leaves.findSome? fun l => (BinaryOperator.ofKind? l.kind).map (·, l)

/-- The left operand of a binary operation. -/
def lhs? (n : Node) : Option Node := n.nodes.head?.filter (·.isExpr)

/-- The right operand of a binary operation. -/
def rhs? (n : Node) : Option Node :=
  match n.binaryOperator? with
  | some (_, l) => n.exprAfter? l.kind
  | none => none

/-- The arguments of a call. -/
def arguments (n : Node) : List Argument :=
  match n.node? .argumentList with
  | none => []
  | some list => list.nodes.filterMap fun a =>
    if a.kind = .namedArgument then
      some (.named a ((a.leaf? fun k => k = .id || k.isKeyword).map (·.text)) (a.exprAfter? .colon))
    else if a.isExpr then some (.positional a)
    else none

/-- The closure of a call. -/
def closure? (n : Node) : Option Closure :=
  (n.node? .closure).map fun c =>
    { node := c
      parameters := match c.node? .closureParams with
        | some ps => (ps.leaves.filter fun l => l.kind = .id || l.kind = .underscore).map (·.text)
        | none => []
      body := c.node? .block }

/-- The entries of an object. -/
def entries (n : Node) : List Entry :=
  (n.nodesOf .entry).map fun e =>
    { node := e, key := (e.node? .stringLit).map (·.stringText), value := e.exprAfter? .colon }

/-- The form of an expression. -/
def expr? (n : Node) : Option Expr :=
  if n.isLeaf then none
  else
    match n.kind with
    | .ifStatement => some (.ifChain (n.nodesOf .predicate) (n.nodesOf .block))
    | .abortStatement => some (.abort n.exprs.head?)
    | .returnStatement => some (.returning n.exprs.head?)
    | .assignment =>
      let op := n.assignOperator?
      some (.assignment n.assignee? op (op.bind fun o => n.exprAfter? o.kind))
    | .binaryOp => some (.binary (n.binaryOperator?.map fun (o, l) => (o, l.span)) n.lhs? n.rhs?)
    | .unaryOp => some (.unary n.exprs.head?)
    | .query =>
      let path := n.node? .path
      some (.query n.queryRoot? path (path.elim [] segments))
    | .functionCall => some (.call (n.leafText? .id) (n.leaf? (· = .bang)).isSome n.arguments n.closure?)
    | .stringLit => some (.literal (.string n.stringParts n.isTerminated))
    | .rawStringLit => some (.literal (.rawString ((n.leafText? .rawString).map Literal.rawValue)))
    | .regexLit => some (.literal (.regex ((n.leafText? .regex).map Literal.rawValue)))
    | .timestampLit => some (.literal (.timestamp ((n.leafText? .timestamp).map Literal.timestampValue)))
    | .integerLit => some (.literal (.integer n.integer? n.literalText))
    | .floatLit => some (.literal (.float (Literal.floatBits? n.literalText) n.literalText))
    | .booleanLit => some (.literal (.boolean (n.leaf? (· = .kwTrue)).isSome))
    | .nullLit => some (.literal .null)
    | .array => some (.array n.exprs)
    | .object => some (.object n.entries)
    | .block => some (.block n.exprs)
    | .group => some (.group n.exprs.head?)
    | .ident => some (.ident (n.leafText? .id))
    | _ => none

end Node

/-- The branches of an `if` after the first, each with its condition. -/
def Expr.elseIfs (predicates blocks : List Node) : List (Node × Node) := (predicates.zip blocks).drop 1

/-- The block of an `if` that has no condition. -/
def Expr.otherwise? (predicates blocks : List Node) : Option Node := blocks[predicates.length]?

end Remap
