import RueSyntax.Text.Position

/-!
# Comments

A line comment runs from `//` up to the line feed, the NUL byte or the end of the text, whichever
comes first, and none of these is part of it.  A block comment runs from `/*` to the first `*/`
behind it; there is no nesting.  If a NUL byte or the end of the text comes before any `*/`, the
`/*` opens no comment.
-/

namespace RueSyntax

/-- The two forms of comment. -/
inductive CommentKind where
  | line | block
deriving DecidableEq, Repr

/-- The name of the kind of leaf that a comment makes. -/
def CommentKind.name : CommentKind → String
  | line => "line_comment"
  | block => "block_comment"

/-- A comment at its place in a text. -/
structure Comment where
  kind : CommentKind
  text : Bytes
  span : Span
deriving DecidableEq, Repr

namespace Comment

/-- How far the line comment reaches of which `n` bytes are read. -/
def lineLength : Nat → Bytes → Nat
  | n, [] => n
  | n, b :: bs => if b == Byte.newline || b == 0 then n else lineLength (n + 1) bs

/-- How far the block comment reaches of which `n` bytes are read, if it is closed at all. -/
def blockLength : Nat → Bytes → Option Nat
  | n, 42 :: 47 :: _ => some (n + 2)    -- the closing star and slash
  | n, b :: bs => if b == 0 then none else blockLength (n + 1) bs
  | _, [] => none

/-- The comment that the text begins with, by its kind and length. -/
def opening : Bytes → Option (CommentKind × Nat)
  | 47 :: 47 :: bs => some (.line, lineLength 2 bs)
  | 47 :: 42 :: bs => (blockLength 2 bs).map (CommentKind.block, ·)
  | _ => none

end Comment

end RueSyntax
