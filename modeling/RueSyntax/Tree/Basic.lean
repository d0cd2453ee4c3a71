import RueSyntax.Token.Comment
import RueSyntax.Syntax.Node

/-!
# Syntax trees of a text

A tree is what the users of a parse see: nodes with a kind, a field, a span and children, among
which comments stand as leaves of their own.  `Tree.descendants` lists a tree in preorder.
-/

namespace RueSyntax

/-- A node at its place in a text. -/
inductive Tree where
  | token (field : Option Field) (t : Terminal) (text : Bytes) (span : Span)
  | comment (c : Comment)
  | rule (field : Option Field) (r : Rule) (span : Span) (children : List Tree)

/-- The kind of a node. -/
inductive Kind where
  | token (t : Terminal)
  | comment (k : CommentKind)
  | rule (r : Rule)
deriving DecidableEq, Repr

namespace Kind

def name : Kind → String
  | token t => t.name
  | comment k => k.name
  | rule r => r.name

/-- Keywords, marks and operators are known by their text; every other kind has a name. -/
def isNamed : Kind → Bool
  | token t => t.isNamed
  | comment _ | rule _ => true

end Kind

namespace Tree

def kind : Tree → Kind
  | token _ t _ _ => .token t
  | comment c => .comment c.kind
  | rule _ r _ _ => .rule r

def isNamed (t : Tree) : Bool := t.kind.isNamed

def field : Tree → Option Field
  | token f _ _ _ => f
  | comment _ => none
  | rule f _ _ _ => f

def span : Tree → Span
  | token _ _ _ s => s
  | comment c => c.span
  | rule _ _ s _ => s

def children : Tree → List Tree
  | rule _ _ _ ts => ts
  | _ => []

def namedChildren (t : Tree) : List Tree := t.children.filter isNamed

mutual

/-- The tree and all below it in preorder, each with its depth, which is `depth` for the root. -/
def descendants (depth : Nat) : Tree → List (Nat × Tree)
  | rule f r s ts => (depth, rule f r s ts) :: descendantsOf (depth + 1) ts
  | t => [(depth, t)]

def descendantsOf (depth : Nat) : List Tree → List (Nat × Tree)
  | [] => []
  | t :: ts => descendants depth t ++ descendantsOf depth ts

end

end Tree

end RueSyntax
