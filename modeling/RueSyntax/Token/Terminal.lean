import RueSyntax.Text.Byte

/-!
# Terminals of the Rue language

The alphabet of the grammar: ten keywords, nine marks, eleven binary operators, names, integers and
the unit type.  `Terminal.spelling` is the fixed text of those that have one and `Terminal.name`
is the name of the kind in a syntax tree, which for a keyword, mark or operator is its text.
-/

namespace RueSyntax

/-- The ten words that the grammar spells out. -/
inductive Keyword where
  | fnWord | letWord | ifWord | elseWord | whileWord | trueWord | falseWord | i32 | i64 | bool
deriving DecidableEq, Repr

namespace Keyword

def spelling : Keyword → String
  | fnWord => "fn"
  | letWord => "let"
  | ifWord => "if"
  | elseWord => "else"
  | whileWord => "while"
  | trueWord => "true"
  | falseWord => "false"
  | i32 => "i32"
  | i64 => "i64"
  | bool => "bool"

def all : List Keyword :=
  [fnWord, letWord, ifWord, elseWord, whileWord, trueWord, falseWord, i32, i64, bool]

/-- The keyword with this text, if there is one. -/
def ofBytes? (text : Bytes) : Option Keyword :=
  all.find? fun k => Bytes.ofString k.spelling == text

end Keyword

/-- Brackets, separators, the sign of assignment and the arrow before a return type. -/
inductive Mark where
  | openParen | closeParen | openBrace | closeBrace | comma | colon | semicolon | equals | arrow
deriving DecidableEq, Repr

namespace Mark

def spelling : Mark → String
  | openParen => "("
  | closeParen => ")"
  | openBrace => "\x7b"
  | closeBrace => "\x7d"
  | comma => ","
  | colon => ":"
  | semicolon => ";"
  | equals => "="
  | arrow => "->"

def all : List Mark :=
  [openParen, closeParen, openBrace, closeBrace, comma, colon, semicolon, equals, arrow]

end Mark

/-- The binary operators. -/
inductive Operator where
  | times | divide | remainder
  | plus | minus
  | equal | notEqual | less | atMost | greater | atLeast
deriving DecidableEq, Repr

namespace Operator

def spelling : Operator → String
  | times => "*"
  | divide => "/"
  | remainder => "%"
  | plus => "+"
  | minus => "-"
  | equal => "=="
  | notEqual => "!="
  | less => "<"
  | atMost => "<="
  | greater => ">"
  | atLeast => ">="

/-- How tightly an operator binds.  Operators of one level group to the left, comparisons too. -/
def level : Operator → Nat
  | times | divide | remainder => 3
  | plus | minus => 2
  | equal | notEqual | less | atMost | greater | atLeast => 1

def all : List Operator :=
  [times, divide, remainder, plus, minus, equal, notEqual, less, atMost, greater, atLeast]

end Operator

/-- A symbol that the grammar does not take apart. -/
inductive Terminal where
  | word (k : Keyword)
  | mark (m : Mark)
  | operator (o : Operator)
  | identifier
  | integer
  | unitType
deriving DecidableEq, Repr

namespace Terminal

/-- The text of a terminal that has only one. -/
def spelling : Terminal → Option String
  | word k => some k.spelling
  | mark m => some m.spelling
  | operator o => some o.spelling
  | unitType => some "()"
  | identifier | integer => none

/-- The name of the kind of leaf that a terminal makes. -/
def name : Terminal → String
  | word k => k.spelling
  | mark m => m.spelling
  | operator o => o.spelling
  | identifier => "identifier"
  | integer => "integer_literal"
  | unitType => "unit_type"

/-- Leaves of a kind with a name of its own; the others are known by their text. -/
def isNamed : Terminal → Bool
  | identifier | integer | unitType => true
  | _ => false

def all : List Terminal :=
  Keyword.all.map word ++ Mark.all.map mark ++ Operator.all.map operator ++
    [identifier, integer, unitType]

end Terminal

end RueSyntax
