import RueSyntax.Tree.Basic

/-!
# Walking a tree

A cursor is a node with the way back to the root: its ancestors, the nearest first, each with the
place of the child that the way goes through.  A step leads to another node of the same tree or
nowhere; `Cursor.go` is undefined in the second case and `Cursor.visit` then stays.
-/

namespace RueSyntax

/-- A node of a tree, with its ancestors. -/
structure Cursor where
  node : Tree
  ancestors : List (Tree × Nat)

/-- The ways from a node to another. -/
inductive Step where
  | root
  | parent
  | next
  | previous
  | nextNamed
  | previousNamed
  | child (i : Nat)
  | namedChild (i : Nat)
  | field (name : String)
deriving DecidableEq, Repr

namespace Cursor

/-- At the root of a tree. -/
def ofTree (t : Tree) : Cursor := ⟨t, []⟩

/-- The children of a node with their places. -/
def places (t : Tree) : List (Tree × Nat) := t.children.zipIdx

/-- To a child of the node, by its place. -/
def enter (c : Cursor) (p : Tree × Nat) : Cursor := ⟨p.1, (c.node, p.2) :: c.ancestors⟩

/-- To the first sibling among those that `choose` picks from all siblings and the node's own
place. -/
def sibling (c : Cursor) (choose : List (Tree × Nat) → Nat → List (Tree × Nat)) : Option Cursor :=
  match c.ancestors with
  | [] => none
  | (p, i) :: above => (choose (places p) i).head?.map (enter ⟨p, above⟩)

/-- The places behind the `i`-th, nearest first. -/
def behind (ts : List (Tree × Nat)) (i : Nat) : List (Tree × Nat) := ts.drop (i + 1)

/-- The places before the `i`-th, nearest first. -/
def before (ts : List (Tree × Nat)) (i : Nat) : List (Tree × Nat) := (ts.take i).reverse

/-- Only the places of named nodes. -/
def named (ts : List (Tree × Nat)) : List (Tree × Nat) := ts.filter fun p => p.1.isNamed

/-- Where a step leads. -/
def go (c : Cursor) : Step → Option Cursor
  | .root => some ⟨(c.ancestors.getLast?.map fun p => p.1).getD c.node, []⟩
  | .parent =>
    match c.ancestors with
    | [] => none
    | (p, _) :: above => some ⟨p, above⟩
  | .next => c.sibling behind
  | .previous => c.sibling before
  | .nextNamed => c.sibling fun ts i => named (behind ts i)
  | .previousNamed => c.sibling fun ts i => named (before ts i)
  | .child i => (places c.node)[i]?.map c.enter
  | .namedChild i => (named (places c.node))[i]?.map c.enter
  | .field name =>
    ((places c.node).find? fun p => p.1.field.map Field.label == some name).map c.enter

/-- The node that a step leads to, if any, and the place after the step, which is the old one if
the step leads nowhere. -/
def visit (c : Cursor) (s : Step) : Option Tree × Cursor :=
  match c.go s with
  | some d => (some d.node, d)
  | none => (none, c)

end Cursor

end RueSyntax
