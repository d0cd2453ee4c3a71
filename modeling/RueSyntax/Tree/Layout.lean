import RueSyntax.Parser.Reader
import RueSyntax.Tree.Basic

/-!
# From what was read to a tree

Every token brings the comments before it.  They belong to the smallest node that has a token on
both sides of them, so a node leaves the comments before its first token to its parent, and has
those before each later child among its own children.  Comments before the first token of the text
and behind the last belong to the file.

A node reaches from the start of its first child to the end of its last.  The file alone reaches
to the end of the text; it begins with its first child, or at the end of the text if it has none.
-/

namespace RueSyntax

/-- The span of nodes that stand one behind the other; `none` if there are none. -/
def Span.around (ts : List Tree) : Option Span :=
  match ts.head?, ts.getLast? with
  | some t, some u => some ⟨t.span.start, u.span.stop⟩
  | _, _ => none

namespace Node

mutual

/-- The comments before the first token. -/
def comments : Node Lexeme → List Comment
  | token _ _ a => a.comments
  | rule _ _ ns => commentsOf ns

def commentsOf : List (Node Lexeme) → List Comment
  | [] => []
  | n :: _ => comments n

end

mutual

/-- The node at its place, without the comments before its first token. -/
def tree : Node Lexeme → Tree
  | token f t a => .token f t a.text a.span
  | rule f r [] => .rule f r default []
  | rule f r (n :: ns) =>
    let ts := tree n :: trees ns
    .rule f r ((Span.around ts).getD default) ts

/-- Nodes at their places, each behind the comments before its first token. -/
def trees : List (Node Lexeme) → List Tree
  | [] => []
  | n :: ns => (comments n).map Tree.comment ++ tree n :: trees ns

end

end Node

namespace SourceFile

/-- The nodes and comments directly under the file. -/
def children (s : SourceFile) : List Tree :=
  Node.trees (s.functions.nodes none) ++ s.trailing.map Tree.comment

/-- The tree of the whole text. -/
def tree (s : SourceFile) : Tree :=
  let ts := s.children
  .rule none .sourceFile ⟨(ts.head?.map fun t => t.span.start).getD s.stop, s.stop⟩ ts

end SourceFile

/-- The tree of a text, if it is a program. -/
def parseTree (text : Bytes) : Except SyntaxError Tree := (parse text).map SourceFile.tree

end RueSyntax
