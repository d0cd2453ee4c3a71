import RueSyntax.Tree.Basic

/-!
# The highlighting query

A query is a list of patterns.  A pattern picks nodes, by their kind or by their kind and their
part in a parent, and gives them a capture name, which a colour scheme maps to a colour.
`Query.rue` is the query for the language, in paragraphs; `Query.text` writes it as a query file.
-/

namespace RueSyntax

/-- What a piece of text is highlighted as. -/
inductive Capture where
  | comment | keyword | builtinType | function | functionCall | parameter | number | boolean
  | builtinConstant | operator | bracket | delimiter | plainName
deriving DecidableEq, Repr

def Capture.name : Capture → String
  | comment => "comment"
  | keyword => "keyword"
  | builtinType => "type.builtin"
  | function => "function"
  | functionCall => "function.call"
  | parameter => "variable.parameter"
  | number => "number"
  | boolean => "boolean"
  | builtinConstant => "constant.builtin"
  | operator => "operator"
  | bracket => "punctuation.bracket"
  | delimiter => "punctuation.delimiter"
  | plainName => "variable"

/-- A pattern with its capture. -/
inductive Pattern where
  /-- Every node of a named kind. -/
  | kind (k : Kind) (c : Capture)
  /-- Every token of one of these kinds, none of which is named. -/
  | anyOf (ts : List Terminal) (c : Capture)
  /-- Every node of a named kind that is this part of a parent of that kind. -/
  | part (parent : Rule) (f : Field) (k : Kind) (c : Capture)
deriving DecidableEq, Repr

namespace Pattern

def capture : Pattern → Capture
  | kind _ c | anyOf _ c | part _ _ _ c => c

/-- The pattern as it is written in a query file. -/
def text (p : Pattern) : String :=
  let name := " @" ++ p.capture.name
  match p with
  | kind k _ => "(" ++ k.name ++ ")" ++ name
  | anyOf ts _ =>
    "[\n" ++ String.join (ts.map fun t => "  \"" ++ t.name ++ "\"\n") ++ "]" ++ name
  | part r f k _ => "(" ++ r.name ++ "\n  " ++ f.label ++ ": (" ++ k.name ++ ")" ++ name ++ ")"

end Pattern

/-- Patterns in paragraphs. -/
abbrev Query := List (List Pattern)

namespace Query

/-- The patterns by their number. -/
def patterns (q : Query) : List Pattern := q.flatten

/-- The query file: one blank line between paragraphs. -/
def text (q : Query) : String :=
  "\n\n".intercalate (q.map fun ps => "\n".intercalate (ps.map Pattern.text)) ++ "\n"

/-- Where the patterns of a paragraph begin that itself begins at byte `n`. -/
def startsFrom (n : Nat) : List Pattern → List Nat
  | [] => []
  | p :: ps => n :: startsFrom (n + p.text.utf8ByteSize + 1) ps

/-- Where paragraphs' patterns begin when the first paragraph begins at byte `n`. -/
def startsOf (n : Nat) : Query → List Nat
  | [] => []
  | ps :: q =>
    startsFrom n ps ++
      startsOf (n + ("\n".intercalate (ps.map Pattern.text)).utf8ByteSize + 2) q

/-- The byte at which each pattern begins in the query file. -/
def starts (q : Query) : List Nat := startsOf 0 q

/-- The captures in the order in which they first appear. -/
def captures (q : Query) : List Capture := (q.patterns.map Pattern.capture).eraseDups

/-- The query for the language. -/
def rue : Query :=
  [ [ .kind (.comment .line) .comment,
      .kind (.comment .block) .comment ],
    [ .anyOf [.word .fnWord, .word .letWord, .word .ifWord, .word .elseWord, .word .whileWord]
        .keyword ],
    [ .kind (.rule .primitiveType) .builtinType,
      .kind (.token .unitType) .builtinType ],
    [ .part .functionItem .name (.token .identifier) .function ],
    [ .part .callExpression .function (.token .identifier) .functionCall ],
    [ .part .parameter .name (.token .identifier) .parameter ],
    [ .kind (.token .integer) .number,
      .kind (.rule .booleanLiteral) .boolean,
      .kind (.rule .unitLiteral) .builtinConstant ],
    [ .anyOf [.operator .plus, .operator .minus, .operator .times, .operator .divide,
        .operator .remainder, .operator .equal, .operator .notEqual, .operator .less,
        .operator .atMost, .operator .greater, .operator .atLeast, .mark .equals, .mark .arrow]
        .operator ],
    [ .anyOf [.mark .openParen, .mark .closeParen, .mark .openBrace, .mark .closeBrace]
        .bracket ],
    [ .anyOf [.mark .comma, .mark .colon, .mark .semicolon] .delimiter ],
    [ .kind (.token .identifier) .plainName ] ]

end Query

end RueSyntax
