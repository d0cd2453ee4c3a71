/-!
# Text as bytes

A text is a list of bytes.  No encoding is assumed: outside a comment every byte above 127 is a
stray character, and inside a comment any byte but NUL may stand.  The classes below are the ones
that tokens are built from; they know ASCII only, because the language's words do.
-/

namespace RueSyntax

/-- A text, byte by byte. -/
abbrev Bytes := List UInt8

/-- The bytes of a string in UTF-8. -/
def Bytes.ofString (s : String) : Bytes := s.toByteArray.data.toList

namespace Byte

/-- The byte that ends a row. -/
def newline : UInt8 := 10

/-- Space, tab, line feed, vertical tab, form feed and carriage return. -/
def isBlank (b : UInt8) : Bool := b == 32 || (9 ≤ b && b ≤ 13)

/-- `0` to `9`. -/
def isDigit (b : UInt8) : Bool := 48 ≤ b && b ≤ 57

/-- A letter or the underscore: what a word may begin with. -/
def isLetter (b : UInt8) : Bool := (65 ≤ b && b ≤ 90) || (97 ≤ b && b ≤ 122) || b == 95

/-- What a word may go on with. -/
def isWord (b : UInt8) : Bool := isLetter b || isDigit b

end Byte

end RueSyntax
