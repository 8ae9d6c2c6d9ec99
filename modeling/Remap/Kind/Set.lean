import Remap.Kind

/-!
# Sets of kinds

A set of kinds is given by its membership test. The sets named here say which tokens may begin or end a construct.
-/

namespace Remap

/-- A set of kinds. -/
structure KindSet where
  contains : Kind → Bool

namespace KindSet

/-- The set without members. -/
def empty : KindSet := ⟨fun _ => false⟩

/-- The set of the listed kinds. -/
def ofList (ks : List Kind) : KindSet := ⟨ks.contains⟩

/-- The set of one kind. -/
def single (k : Kind) : KindSet := ⟨(· == k)⟩

/-- The kinds in one set or the other. -/
def union (s t : KindSet) : KindSet := ⟨fun k => s.contains k || t.contains k⟩

/-- The members, in order of declaration. -/
def members (s : KindSet) : List Kind := Kind.all.filter s.contains

/-- The members by name, between braces. -/
def display (s : KindSet) : String := "\x7b" ++ ", ".intercalate (s.members.map Kind.name) ++ "\x7d"

/-- What may begin a term: a literal, container, query, call or identifier. -/
def termFirst : KindSet :=
  ofList [.parenOpen, .bracketOpen, .braceOpen, .dot, .percent, .minus, .id, .integer, .float, .doubleQuote,
    .rawString, .regex, .timestamp, .kwNull, .kwTrue, .kwFalse]

/-- What may begin an operator expression. -/
def arithmeticFirst : KindSet := termFirst.union (single .bang)

/-- What may begin a statement. -/
def statementFirst : KindSet := arithmeticFirst.union (ofList [.kwIf, .kwAbort, .kwReturn, .underscore])

/-- The assignment operators. -/
def assignOperators : KindSet := ofList [.equals, .pipeEquals]

/-- What ends a statement without being part of it. -/
def statementEnd : KindSet := ofList [.newline, .semicolon, .braceClose, .parenClose, .bracketClose]

/-- The closing brackets. -/
def closers : KindSet := ofList [.parenClose, .bracketClose, .braceClose]

/-- The sets a reader can ask for by name. -/
def named : List (String × KindSet) :=
  [("TERM_FIRST", termFirst), ("ARITHMETIC_FIRST", arithmeticFirst), ("STATEMENT_FIRST", statementFirst),
    ("ASSIGN_OPERATORS", assignOperators), ("STATEMENT_END", statementEnd)]

/-- The set with a given name; `EMPTY` is the set without members. -/
def ofName? (name : String) : Option KindSet :=
  if name = "EMPTY" then some empty else (named.find? (·.1 = name)).map (·.2)

/-- The names of the named sets that hold a kind. -/
def namesOf (k : Kind) : List String := (named.filter (·.2.contains k)).map (·.1)

@[simp] theorem contains_union (s t : KindSet) (k : Kind) :
    (s.union t).contains k = (s.contains k || t.contains k) := rfl

@[simp] theorem contains_single (k l : Kind) : (single k).contains l = (l == k) := rfl

end KindSet

end Remap
