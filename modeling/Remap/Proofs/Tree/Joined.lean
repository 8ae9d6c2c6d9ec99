import Remap.Proofs.Parser.Closed
import Remap.Proofs.Parser.Leaves

/-!
# What touches in a tree

A path is continued by what touches it. Whether two leaves touch is seen in a tree from the leaves before a node and those
after it: `Adjacent` says for one node, between the leaves `xs` and `ys`, that its segments and their names touch what is
before them, and that no term within it is touched by a segment that is not part of its path. `Joined` says it for all nodes
of a tree.
-/

namespace Remap

namespace Kind

/-- What a later path segment begins with. -/
def startsSegment (k : Kind) : Bool := k = .dot || k = .bracketOpen

/-- What a first path segment after a bare root begins with. -/
def startsPath (k : Kind) : Bool := k.isFieldName || k = .doubleQuote || k = .bracketOpen

end Kind

/-- Whether what comes after a row of leaves touches the last of them. -/
def touching (before : List (Kind × Text)) : Bool := before.getLast?.any (!·.1.breaksAdjacency)

/-- Whether a row of leaves begins with a kind that passes a test. -/
def beginsWith (p : Kind → Bool) (after : List (Kind × Text)) : Bool := after.head?.any (p ·.1)

/-- No leaf of certain kinds comes next that would touch the leaves before it. -/
def Apart (p : Kind → Bool) (before after : List (Kind × Text)) : Prop :=
  touching before = true → beginsWith p after = false

namespace Tree

/-- Whether the tree is a node that a path segment would continue. -/
def canContinue : Tree → Bool
  | .leaf _ _ => false
  | .node k _ => k = .query || k.isRoot

/-- Whether the tree names a field, plain or quoted. -/
def isName : Tree → Bool
  | .leaf k _ => k.isFieldName
  | .node k _ => k = .stringLit

/-- A subtree, with the leaves of the whole tree that come before it and those that come after it. -/
inductive Amid (root : Tree) : List (Kind × Text) → Tree → List (Kind × Text) → Prop where
  | root : Amid root [] root []
  | child {xs ys : List (Kind × Text)} {k : Kind} {ls rs : List Tree} {c : Tree} :
      Amid root xs (.node k (ls ++ c :: rs)) ys → Amid root (xs ++ leavesOf ls) c (leavesOf rs ++ ys)

/-- A child is amid what its parent is amid, and its siblings. -/
theorem Amid.of_children {root t c : Tree} {xs ys : List (Kind × Text)} {ls rs : List Tree} (h : Amid root xs t ys)
    (hc : t.children = ls ++ c :: rs) : Amid root (xs ++ leavesOf ls) c (leavesOf rs ++ ys) := by
  cases t with
  | leaf k text => simp [children] at hc
  | node k cs =>
    obtain rfl : cs = ls ++ c :: rs := hc
    exact .child h

/-- What touches in a node of kind `k` with children `cs`, between the leaves `xs` before it and `ys` after it. -/
structure Adjacent (xs : List (Kind × Text)) (k : Kind) (cs : List Tree) (ys : List (Kind × Text)) : Prop where
  /-- A segment touches what is before it. -/
  segment : k = .fieldSegment ∨ k = .indexSegment → touching xs = true
  /-- The name in a segment touches what is before it. -/
  name : k = .fieldSegment → ∀ ls c rs, cs = ls ++ c :: rs → c.isName = true → touching (xs ++ leavesOf ls) = true
  /-- A term is not touched by a segment, unless it is the root of a query. -/
  term : ∀ ls c rs, cs = ls ++ c :: rs → c.canContinue = true → ¬ (k = .query ∧ ∀ l ∈ ls, l.isLeaf = true) →
    Apart Kind.startsSegment (xs ++ leavesOf ls ++ c.leaves) (leavesOf rs ++ ys)
  /-- A root without path is not touched by a name, a string or an index. -/
  bare : ∀ r t, k = .query → cs = [.leaf r t] → (r = .dot ∨ r = .percent) → beginsWith Kind.startsPath ys = false

/-- What touches in a tree between the leaves before it and after it. -/
inductive Joined : List (Kind × Text) → Tree → List (Kind × Text) → Prop where
  | leaf {xs ys : List (Kind × Text)} (k : Kind) (t : Text) : Joined xs (.leaf k t) ys
  | node {xs ys : List (Kind × Text)} {k : Kind} {cs : List Tree} : Adjacent xs k cs ys →
      (∀ ls c rs, cs = ls ++ c :: rs → Joined (xs ++ leavesOf ls) c (leavesOf rs ++ ys)) → Joined xs (.node k cs) ys

/-- Every node within a joined tree is joined. -/
theorem Joined.amid {root t : Tree} {xs ys : List (Kind × Text)} (h : Joined [] root []) (ht : Amid root xs t ys) :
    Joined xs t ys := by
  induction ht with
  | root => exact h
  | child _ ih =>
    cases ih with
    | node _ hchildren => exact hchildren _ _ _ rfl

/-! ## Rows -/

/-- A property of each tree of a row and the leaves around it. -/
def Along (P : List (Kind × Text) → Tree → List (Kind × Text) → Prop) (xs : List (Kind × Text)) :
    List Tree → List (Kind × Text) → Prop
  | [], _ => True
  | t :: ts, ys => P xs t (leavesOf ts ++ ys) ∧ Along P (xs ++ t.leaves) ts ys

section Rows

variable {P Q : List (Kind × Text) → Tree → List (Kind × Text) → Prop} {xs ys : List (Kind × Text)}

theorem along_append {ts us : List Tree} :
    Along P xs (ts ++ us) ys ↔ Along P xs ts (leavesOf us ++ ys) ∧ Along P (xs ++ leavesOf ts) us ys := by
  induction ts generalizing xs with
  | nil => simp [Along, leavesOf]
  | cons t ts ih => simp only [List.cons_append, Along, ih, leavesOf_append, leavesOf, List.append_assoc, and_assoc]

theorem along_singleton {t : Tree} : Along P xs [t] ys ↔ P xs t ys := by simp [Along, leavesOf]

/-- A row of leaves, each of which has the property wherever it stands. -/
theorem along_leaves {ts : List Token} (h : ∀ t ∈ ts, ∀ xs ys, P xs t.leaf ys) : Along P xs (ts.map Token.leaf) ys := by
  induction ts generalizing xs with
  | nil => trivial
  | cons t ts ih => exact ⟨h t List.mem_cons_self _ _, ih fun u hu => h u (List.mem_cons_of_mem _ hu)⟩

theorem Along.mem {ls rs : List Tree} {c : Tree} (h : Along P xs (ls ++ c :: rs) ys) :
    P (xs ++ leavesOf ls) c (leavesOf rs ++ ys) :=
  (along_append.mp h).2.1

theorem Along.imp {ts : List Tree} (h : Along P xs ts ys) (hPQ : ∀ xs t ys, P xs t ys → Q xs t ys) : Along Q xs ts ys := by
  induction ts generalizing xs with
  | nil => trivial
  | cons t ts ih => exact ⟨hPQ _ _ _ h.1, ih h.2⟩

end Rows

/-- A joined tree that no path segment touches without being part of its path. -/
def Sealed (xs : List (Kind × Text)) (t : Tree) (ys : List (Kind × Text)) : Prop :=
  Joined xs t ys ∧ (t.canContinue = true → Apart Kind.startsSegment (xs ++ t.leaves) ys)

theorem sealed_leaf (t : Token) (xs ys : List (Kind × Text)) : Sealed xs t.leaf ys := ⟨.leaf t.kind t.text, nofun⟩

section Nodes

variable {xs ys : List (Kind × Text)} {k : Kind} {cs : List Tree}

/-- A node over sealed trees, if what a segment or a query has to satisfy besides is given. -/
theorem joined_node (h : Along Sealed xs cs ys) (hsegment : k = .fieldSegment ∨ k = .indexSegment → touching xs = true)
    (hname : k = .fieldSegment → ∀ ls c rs, cs = ls ++ c :: rs → c.isName = true → touching (xs ++ leavesOf ls) = true)
    (hbare : ∀ r t, k = .query → cs = [.leaf r t] → (r = .dot ∨ r = .percent) → beginsWith Kind.startsPath ys = false) :
    Joined xs (.node k cs) ys := by
  refine .node ⟨hsegment, hname, fun ls c rs hcs hc _ => ?_, hbare⟩ fun ls c rs hcs => ?_
  · subst hcs
    exact h.mem.2 hc
  · subst hcs
    exact h.mem.1

/-- Other nodes need no more than sealed trees. -/
theorem joined_of_ne (h : Along Sealed xs cs ys) (hquery : k ≠ .query) (hfield : k ≠ .fieldSegment)
    (hindex : k ≠ .indexSegment) : Joined xs (.node k cs) ys :=
  joined_node h (fun hk => (hk.elim hfield hindex).elim) (fun hk => absurd hk hfield) fun _ _ hk => absurd hk hquery

theorem sealed_of_isPlain (hk : k.isPlain = true) (h : Along Sealed xs cs ys) : Sealed xs (.node k cs) ys := by
  simp only [Kind.isPlain, Bool.not_eq_true', Bool.or_eq_false_iff, decide_eq_false_iff_not] at hk
  obtain ⟨⟨⟨hroot, hquery⟩, hfield⟩, hindex⟩ := hk
  refine ⟨joined_of_ne h hquery hfield hindex, fun hc => ?_⟩
  simp [canContinue, hquery, hroot] at hc

/-- The query of a path that continues a term. -/
theorem joined_query {ls rs : List Tree} {u : Tree} (hleaves : ∀ l ∈ ls, l.isLeaf = true)
    (hls : Along Sealed xs ls (leavesOf (u :: rs) ++ ys)) (hu : Joined (xs ++ leavesOf ls) u (leavesOf rs ++ ys))
    (hrs : Along Sealed (xs ++ leavesOf (ls ++ [u])) rs ys) (hpath : rs ≠ []) : Joined xs (.node .query (ls ++ u :: rs)) ys := by
  have hall : Along Joined xs (ls ++ u :: rs) ys := by
    refine along_append.mpr ⟨hls.imp fun _ _ _ h => h.1, hu, ?_⟩
    rw [leavesOf_append, ← List.append_assoc] at hrs
    simpa [leavesOf] using hrs.imp fun _ _ _ h => h.1
  refine .node ⟨by simp, by simp, fun ls' c rs' hcs hc hroot => ?_, fun r t _ hcs _ => ?_⟩ fun ls' c rs' hcs => ?_
  · -- the term itself is the root of the query; what comes after it is sealed
    rcases List.append_eq_append_iff.mp hcs with ⟨as, rfl, has⟩ | ⟨as, rfl, has⟩
    · cases as with
      | nil =>
        refine absurd ⟨rfl, ?_⟩ hroot
        simpa using hleaves
      | cons a as =>
        obtain ⟨rfl, rfl⟩ := List.cons.inj has
        have hmem := hrs.mem.2 hc
        simpa [leavesOf_append, leavesOf] using hmem
    · cases as with
      | nil =>
        refine absurd ⟨rfl, ?_⟩ hroot
        simpa using hleaves
      | cons a as =>
        obtain ⟨rfl, rfl⟩ := List.cons.inj has
        refine absurd ⟨rfl, fun l hl => hleaves l (List.mem_append_left _ hl)⟩ hroot
  · have hlength := congrArg List.length hcs
    cases rs with
    | nil => exact absurd rfl hpath
    | cons r rs =>
      simp at hlength
      omega
  · rw [hcs] at hall
    exact hall.mem

end Nodes

end Tree

end Remap
