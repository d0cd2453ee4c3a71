import RueSyntax.Highlight.Query

/-!
# Captures in a tree

Every pattern is tried at every node.  The captures of a tree are listed by where they begin, and
those that begin at one place by the number of their pattern.
-/

namespace RueSyntax

/-- The nodes that a pattern captures where it is tried at `t`: that node itself, or a child. -/
def Pattern.found (t : Tree) : Pattern → List Tree
  | .kind k _ => if t.kind == k then [t] else []
  | .anyOf ts _ =>
    match t with
    | .token _ s _ _ => if ts.contains s then [t] else []
    | _ => []
  | .part r f k _ =>
    if t.kind == .rule r then t.children.filter fun c => c.field == some f && c.kind == k else []

/-- A captured node. -/
structure Highlight where
  pattern : Nat
  capture : Capture
  node : Tree

namespace Highlight

/-- The order in which captures are listed. -/
def before (a b : Highlight) : Bool :=
  a.node.span.start.byte < b.node.span.start.byte ||
    (a.node.span.start.byte == b.node.span.start.byte && a.pattern ≤ b.pattern)

/-- The captures of the patterns at one node. -/
def ofNode (ps : List (Pattern × Nat)) (t : Tree) : List Highlight :=
  ps.flatMap fun p => (p.1.found t).map fun n => ⟨p.2, p.1.capture, n⟩

end Highlight

/-- The captures that a query makes in a tree. -/
def Query.highlights (q : Query) (t : Tree) : List Highlight :=
  ((t.descendants 0).flatMap fun d => Highlight.ofNode q.patterns.zipIdx d.2).mergeSort
    Highlight.before

end RueSyntax
