import RueSyntax.Text.Blank

/-!
# Comment lines

The text of a grammar description may hold comments, which JSON does not know.  A comment begins
with `//` where nothing but white space stands before it on its line, and it ends before the next
line feed.  `withoutCommentLines` puts one line feed for each comment and all the white space in
front of it, whole lines of white space with it.  A `//` behind anything else on its line stays.
-/

namespace RueSyntax

namespace CommentLine

/-- Where in a line a character stands. -/
inductive Place where
  /-- Behind white space only: this much, backwards. -/
  | start (blanks : List Char)
  /-- Behind something else. -/
  | middle
  /-- In a comment. -/
  | comment

/-- The text without comments, if `out` is what comes before, backwards. -/
def removeFrom (out : List Char) : Place → List Char → List Char
  | .start blanks, [] => (blanks ++ out).reverse
  | .start _, '/' :: '/' :: cs => removeFrom ('\n' :: out) .comment cs
  | .start blanks, c :: cs =>
    if Blank.isWhiteSpace c then removeFrom out (.start (c :: blanks)) cs
    else removeFrom (c :: (blanks ++ out)) .middle cs
  | .middle, [] | .comment, [] => out.reverse
  | .middle, c :: cs => removeFrom (c :: out) (if c == '\n' then .start [] else .middle) cs
  | .comment, c :: cs =>
    if c == '\n' then removeFrom (c :: out) (.start []) cs else removeFrom out .comment cs

end CommentLine

/-- The text with a line feed for each comment. -/
def withoutCommentLines (text : String) : String :=
  .ofList (CommentLine.removeFrom [] (.start []) text.toList)

end RueSyntax
