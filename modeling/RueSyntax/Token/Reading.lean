import RueSyntax.Token.Terminal

/-!
# Readings

What a text may begin with.  Most texts have one reading, the longest that fits.  Three have two:
a word in the spelling of a keyword is that keyword or else a name, `()` is the unit type or else
an opening parenthesis, and `->` is the arrow or else a minus.  The readings come in order of
preference, each with its length in bytes; whoever reads takes the first that can stand where it
is.  So a keyword is reserved only where it means something.
-/

namespace RueSyntax

/-- A terminal, and how many bytes of the text are its own. -/
abbrev Reading := Terminal × Nat

namespace Reading

/-- The readings of a word. -/
def ofWord (word : Bytes) : List Reading :=
  ((Keyword.ofBytes? word).toList.map fun k => (.word k, word.length)) ++
    [(.identifier, word.length)]

/-- The readings of a text that begins with punctuation. -/
def ofPunctuation : Bytes → List Reading
  | 40 :: 41 :: _ => [(.unitType, 2), (.mark .openParen, 1)]       -- `()`
  | 40 :: _ => [(.mark .openParen, 1)]                             -- `(`
  | 41 :: _ => [(.mark .closeParen, 1)]                            -- `)`
  | 123 :: _ => [(.mark .openBrace, 1)]                            -- opening brace
  | 125 :: _ => [(.mark .closeBrace, 1)]                           -- closing brace
  | 44 :: _ => [(.mark .comma, 1)]                                 -- `,`
  | 58 :: _ => [(.mark .colon, 1)]                                 -- `:`
  | 59 :: _ => [(.mark .semicolon, 1)]                             -- `;`
  | 45 :: 62 :: _ => [(.mark .arrow, 2), (.operator .minus, 1)]    -- `->`
  | 45 :: _ => [(.operator .minus, 1)]                             -- `-`
  | 43 :: _ => [(.operator .plus, 1)]                              -- `+`
  | 42 :: _ => [(.operator .times, 1)]                             -- `*`
  | 47 :: _ => [(.operator .divide, 1)]                            -- `/`
  | 37 :: _ => [(.operator .remainder, 1)]                         -- `%`
  | 61 :: 61 :: _ => [(.operator .equal, 2)]                       -- `==`
  | 61 :: _ => [(.mark .equals, 1)]                                -- `=`
  | 33 :: 61 :: _ => [(.operator .notEqual, 2)]                    -- `!=`
  | 60 :: 61 :: _ => [(.operator .atMost, 2)]                      -- `<=`
  | 60 :: _ => [(.operator .less, 1)]                              -- `<`
  | 62 :: 61 :: _ => [(.operator .atLeast, 2)]                     -- `>=`
  | 62 :: _ => [(.operator .greater, 1)]                           -- `>`
  | _ => []

/-- The readings of a text that begins neither with a blank nor with a comment. -/
def all : Bytes → List Reading
  | [] => []
  | b :: bs =>
    if Byte.isLetter b then ofWord ((b :: bs).takeWhile Byte.isWord)
    else if Byte.isDigit b then [(.integer, ((b :: bs).takeWhile Byte.isDigit).length)]
    else ofPunctuation (b :: bs)

end Reading

end RueSyntax
