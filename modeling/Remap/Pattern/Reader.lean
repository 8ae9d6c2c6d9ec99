import Remap.Pattern.Class
import Remap.Text.Letter

/-!
# Reading a pattern

A pattern is read from the left. Open groups, and the choices before a bar, are kept on a stack.
-/

namespace Remap.Pattern

/-- What is open outside brackets. -/
inductive Frame where
  /-- A group, with the terms before it, latest first, and whether blanks were insignificant there. -/
  | group (outer : List Term) (flags : Option Flags) (extended : Bool)
  /-- The choices so far, latest first. -/
  | choices (ts : List Term)
deriving Inhabited

/-- The state of reading. -/
structure Reader where
  rest : Text
  /-- Whether blanks are insignificant. -/
  extended : Bool := false
  /-- The names of groups so far. -/
  names : List Text := []
  stack : List Frame := []
  /-- The terms of the innermost group since the last bar, latest first. -/
  terms : List Term := []
deriving Inhabited

/-- Whether a character may stand in the name of a group: letters and the underscore, and after the first character also
numbers, points and brackets. -/
def isNamePart (first : Bool) (c : Char) : Bool :=
  c = '_' || Text.isLetter c || (!first && (c = '.' || c = '[' || c = ']' || Text.isNumeral c))

/-- The name of a group, up to its closing angle bracket. -/
def groupName : Bool → Text → Except Error (Text × Text)
  | _, [] => .error .groupNameUnexpectedEof
  | first, c :: rest =>
    if c = '>' then .ok ([], rest)
    else if isNamePart first c then do
      let (name, left) ← groupName false rest
      return (c :: name, left)
    else .error .groupNameInvalid

/-- The flags up to a colon or closing parenthesis, as a list of their characters, and the text from there on. -/
def flagItems : List Char → Text → Except Error (List Char × Text)
  | _, [] => .error .flagUnexpectedEof
  | seen, c :: rest =>
    if c = ':' || c = ')' then
      if seen.head? = some '-' then .error .flagDanglingNegation else .ok (seen.reverse, c :: rest)
    else if c = '-' then
      if seen.contains c then .error .flagRepeatedNegation else flagItems (c :: seen) rest
    else if !(['i', 'm', 's', 'U', 'u', 'R', 'x'].contains c) then .error .flagUnrecognized
    else if seen.contains c then .error .flagDuplicate
    else flagItems (c :: seen) rest

/-- What a list of flags says about one of them: on before the minus sign, off after it. -/
def flagState (items : List Char) (flag : Char) : Option Bool :=
  if (items.takeWhile (· ≠ '-')).contains flag then some true
  else if items.contains flag then some false
  else none

/-- The flags that matter of a list of flags. -/
def Flags.ofItems (items : List Char) : Flags := ⟨flagState items 'u', flagState items 'x'⟩

namespace Reader

/-- Opens a group. -/
def openGroup (r : Reader) (flags : Option Flags) (rest : Text) : Reader :=
  { r with
    rest := rest, terms := [], stack := .group r.terms flags r.extended :: r.stack
    extended := (flags.bind (·.extended)).getD r.extended }

/-- Reads what begins with an opening parenthesis: a group, or flags for the rest of the group around it. -/
def paren (r : Reader) : Except Error Reader := do
  let t := after r.extended r.rest
  match t with
  | '?' :: '=' :: _ | '?' :: '!' :: _ | '?' :: '<' :: '=' :: _ | '?' :: '<' :: '!' :: _ => .error .unsupportedLookAround
  | '?' :: 'P' :: '<' :: inner | '?' :: '<' :: inner =>
    let (name, rest) ← groupName true inner
    if name.isEmpty then .error .groupNameEmpty
    else if r.names.contains name then .error .groupNameDuplicate
    else return { r with names := name :: r.names }.openGroup none rest
  | '?' :: inner =>
    if inner.isEmpty then .error .groupUnclosed
    else
      let (items, rest) ← flagItems [] inner
      let flags := Flags.ofItems items
      if rest.head? = some ')' then
        if items.isEmpty then .error .repetitionMissing
        else return { r with
          rest := rest.drop 1, terms := .flags flags :: r.terms, extended := flags.extended.getD r.extended }
      else return r.openGroup (some flags) (rest.drop 1)
  | _ => return r.openGroup none t

/-- Closes the innermost group. -/
def closeGroup (r : Reader) : Except Error Reader :=
  let inner := Term.ofList r.terms.reverse
  let close (outer : List Term) (flags : Option Flags) (extended : Bool) (t : Term) (stack : List Frame) : Reader :=
    { r with rest := r.rest.drop 1, terms := .group flags t :: outer, stack, extended }
  match r.stack with
  | .group outer flags extended :: below => .ok (close outer flags extended inner below)
  | .choices ts :: .group outer flags extended :: below =>
    .ok (close outer flags extended (.alternation (inner :: ts).reverse) below)
  | _ => .error .groupUnopened

/-- Ends a choice. -/
def bar (r : Reader) : Reader :=
  let choice := Term.ofList r.terms.reverse
  let stack := match r.stack with
    | .choices ts :: below => .choices (choice :: ts) :: below
    | stack => .choices [choice] :: stack
  { r with rest := r.rest.drop 1, terms := [], stack }

/-- Repeats the last term. Flags and nothing at all cannot be repeated. -/
def repeatLast (r : Reader) (rest : Text) : Except Error Reader :=
  match r.terms with
  | [] | .empty :: _ | .flags _ :: _ => .error .repetitionMissing
  | t :: ts => .ok { r with rest := if rest.head? = some '?' then rest.drop 1 else rest, terms := .repetition t :: ts }

/-- A decimal number with blanks around it. -/
def decimal (extended : Bool) (t : Text) : Except Error Nat × Text :=
  let (digits, left) := collect extended Char.isDigit false (t.dropWhile Text.isBlank)
  let left := settle extended (left.dropWhile Text.isBlank)
  let n := digits.foldl (fun n c => 10 * n + (c.toNat - '0'.toNat)) 0
  if digits.isEmpty then (.error .repetitionCountDecimalEmpty, left)
  else if n < 0x100000000 then (.ok n, left)
  else (.error .decimalInvalid, left)

/-- The bounds of a counted repetition, after its opening brace, and the text from its closing brace on. -/
def counts (extended : Bool) (t : Text) : Except Error (Nat × Option Nat × Text) :=
  let (least, t) := decimal extended t
  match t with
  | [] => .error .repetitionCountUnclosed
  | ',' :: _ =>
    match after extended t with
    | [] => .error .repetitionCountUnclosed
    | '\x7d' :: rest => do return (← least, none, '\x7d' :: rest)
    | t => do
      let n ← least
      let (most, t) := decimal extended t
      return (n, some (← most), t)
  | t => do
    let n ← least
    return (n, some n, t)

/-- Repeats the last term a number of times. -/
def counted (r : Reader) : Except Error Reader := do
  match r.terms with
  | [] | .empty :: _ | .flags _ :: _ => .error .repetitionMissing
  | _ =>
    let t := after r.extended r.rest
    if t.isEmpty then .error .repetitionCountUnclosed
    else
      let (least, most, t) ← counts r.extended t
      if t.head? ≠ some '\x7d' then .error .repetitionCountUnclosed
      else if most.any (· < least) then .error .repetitionCountInvalid
      else r.repeatLast (after r.extended t)

/-- Reads one term or sign; the text is not empty and does not begin with a blank that is insignificant. -/
def step (r : Reader) : Except Error Reader :=
  let push (t : Term) (rest : Text) : Except Error Reader := .ok { r with rest, terms := t :: r.terms }
  match r.rest with
  | [] => .ok r
  | c :: rest =>
    match c with
    | '(' => r.paren
    | ')' => r.closeGroup
    | '|' => .ok r.bar
    | '[' => do
      let ((negated, set), rest) ← bracketed r.extended (r.rest.length + 1) [] [] r.rest
      push (.bracketed negated set) rest
    | '?' | '*' | '+' => r.repeatLast rest
    | '\x7b' => r.counted
    | '\\' => do
      match ← escape r.extended rest with
      | (.literal l, rest) => push (.literal l) rest
      | (.assertion, rest) => push .assertion rest
      | (.shorthand s, rest) => push (.shorthand s) rest
    | '.' => push .dot rest
    | '^' | '$' => push .assertion rest
    | c => push (.literal ⟨c, false⟩) rest

/-- Reads up to the end. Each step consumes a character, so as many steps as characters suffice. -/
def run : Nat → Reader → Except Error Reader
  | 0, r => .ok r
  | steps + 1, r =>
    let r := { r with rest := settle r.extended r.rest }
    if r.rest.isEmpty then .ok r
    else
      match r.step with
      | .ok r => run steps r
      | .error e => .error e

/-- The term read, if no group is open. -/
def finish (r : Reader) : Except Error Term :=
  let last := Term.ofList r.terms.reverse
  match r.stack with
  | [] => .ok last
  | [.choices ts] => .ok (.alternation (last :: ts).reverse)
  | _ => .error .groupUnclosed

end Reader

/-- Reads a pattern. -/
def read (t : Text) : Except Error Term :=
  match Reader.run (t.length + 1) { rest := t } with
  | .ok r => r.finish
  | .error e => .error e

end Remap.Pattern
