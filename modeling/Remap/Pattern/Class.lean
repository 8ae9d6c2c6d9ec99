import Remap.Pattern.Escape

/-!
# Bracketed classes

Classes nest and combine. What is open is kept on a stack: each opening bracket with the items before it, and each
left-hand side that waits for its right-hand side.
-/

namespace Remap.Pattern

/-- What is open inside a bracketed class. -/
inductive ClassFrame where
  /-- An opening bracket, with the items before it, latest first. -/
  | opened (outer : List ClassItem) (negated : Bool)
  /-- The left-hand side of a combination. -/
  | operand (lhs : ClassSet)
deriving Inhabited

/-- Passes over the characters that are literal only right after an opening bracket: hyphens, or one closing bracket. -/
def leadingHyphens (extended : Bool) : Nat → Text → List ClassItem → Except Error (Text × List ClassItem)
  | 0, t, items => .ok (t, items)
  | n + 1, t, items =>
    match t with
    | [] => .error .classUnclosed
    | c :: _ =>
      if c = '-' then leadingHyphens extended n (after extended t) (.literal ⟨'-', false⟩ :: items) else .ok (t, items)

/-- What follows an opening bracket: whether the class is negated, its first items, and the rest. -/
def openClass (extended : Bool) (t : Text) : Except Error (Bool × List ClassItem × Text) := do
  let t := after extended t
  let negated := t.head? = some '^'
  let t := if negated then after extended t else t
  let (t, items) ← leadingHyphens extended (t.length + 1) t []
  match t with
  | [] => .error .classUnclosed
  | c :: _ =>
    if items.isEmpty && c = ']' then
      let rest := after extended t
      if rest.isEmpty then .error .classUnclosed else return (negated, [.literal ⟨']', false⟩], rest)
    else return (negated, items, t)

/-- The names of the classes written between brackets and colons. -/
def classNames : List String :=
  ["alnum", "alpha", "ascii", "blank", "cntrl", "digit", "graph", "lower", "print", "punct", "space", "upper", "word",
    "xdigit"]

/-- A class written between brackets and colons, if one begins here. -/
def namedClass? : Text → Option (ClassItem × Text)
  | '[' :: ':' :: t =>
    let negated := t.head? = some '^'
    let t := if negated then t.drop 1 else t
    let name := t.takeWhile (· ≠ ':')
    match t.dropWhile (· ≠ ':') with
    | ':' :: ']' :: rest => if classNames.contains (String.ofList name) then some (.named negated, rest) else none
    | _ => none
  | _ => none

/-- One character or escape of a class. -/
def classPrimitive (extended : Bool) : Text → Except Error (Primitive × Text)
  | [] => .error .classUnclosed
  | c :: rest => if c = '\\' then escape extended rest else .ok (.literal ⟨c, false⟩, rest)

/-- A primitive as an item of a class. -/
def Primitive.item : Primitive → Except Error ClassItem
  | .literal l => .ok (.literal l)
  | .shorthand s => .ok (.shorthand s)
  | .assertion => .error .classEscapeInvalid

/-- A primitive as the end of a range. -/
def Primitive.bound : Primitive → Except Error Literal
  | .literal l => .ok l
  | _ => .error .classRangeLiteral

/-- The character after the first, past blanks where they are insignificant. -/
def peekPast (extended : Bool) (t : Text) : Option Char :=
  if extended then
    match (t.drop 1).dropWhile Text.isBlank with
    | '#' :: rest => (rest.dropWhile Text.isBlank).head?
    | rest => rest.head?
  else (t.drop 1).head?

/-- One item of a class, which may be a range. -/
def classRange (extended : Bool) (t : Text) : Except Error (ClassItem × Text) := do
  let (first, t) ← classPrimitive extended t
  let t := settle extended t
  match t with
  | [] => .error .classUnclosed
  | c :: _ =>
    let next := peekPast extended t
    if c ≠ '-' || next = some ']' || next = some '-' then return (← first.item, t)
    else
      let t := after extended t
      if t.isEmpty then .error .classUnclosed
      else
        let (last, t) ← classPrimitive extended t
        let lo ← first.bound
        let hi ← last.bound
        if hi.char < lo.char then .error .classRangeInvalid else return (.range lo hi, t)

/-- A set combined with the left-hand side that waits for it, if one does. -/
def combine (stack : List ClassFrame) (rhs : ClassSet) : ClassSet × List ClassFrame :=
  match stack with
  | .operand lhs :: rest => (.combined lhs rhs, rest)
  | _ => (rhs, stack)

/-- A bracketed class. Each step consumes a character, so as many steps as characters suffice. -/
def bracketed (extended : Bool) :
    Nat → List ClassFrame → List ClassItem → Text → Except Error ((Bool × ClassSet) × Text)
  | 0, _, _, _ => .error .classUnclosed
  | steps + 1, stack, items, t =>
    let t := settle extended t
    match t with
    | [] => .error .classUnclosed
    | '[' :: _ =>
      match if stack.isEmpty then none else namedClass? t with
      | some (i, rest) => bracketed extended steps stack (i :: items) rest
      | none =>
        match openClass extended t with
        | .ok (negated, inner, rest) => bracketed extended steps (.opened items negated :: stack) inner rest
        | .error e => .error e
    | ']' :: rest =>
      match combine stack (.item (.ofList items.reverse)) with
      | (set, .opened outer negated :: below) =>
        if below.isEmpty then .ok ((negated, set), rest)
        else bracketed extended steps below (.bracketed negated set :: outer) rest
      | _ => .error .classUnclosed
    | '&' :: '&' :: rest | '-' :: '-' :: rest | '~' :: '~' :: rest =>
      let (lhs, below) := combine stack (.item (.ofList items.reverse))
      bracketed extended steps (.operand lhs :: below) [] rest
    | _ =>
      match classRange extended t with
      | .ok (i, rest) => bracketed extended steps stack (i :: items) rest
      | .error e => .error e

end Remap.Pattern
