import RueSyntax.Token.Terminal

/-!
# Phrases: the syntax of Rue, token by token

`Phrase α c` is what the grammar derives from the category `c`, with a note of type `α` on each
token: its text, its place, whatever a use needs.  Nothing is left out, so a phrase can be written
down again: `Phrase.tokens` lists its terminals with their notes from left to right.  Sequences
grow at their end, the way they are read.

A phrase does not know how tightly operators bind.  `1 + 2 * 3` and the tree that adds first are
both phrases with the same tokens; which of them is read is settled where operators are read.
-/

namespace RueSyntax

/-- A token: a terminal and the note on it. -/
abbrev Token (α : Type) := Terminal × α

/-- The categories of the grammar; the plural ones are sequences. -/
inductive Category where
  | functions | function | parameters | parameterList | parameter | type
  | block | statements | statement
  | expression | conditional | elseClause | arguments | argumentList
deriving DecidableEq, Repr

/-- The types that are spelled with a word. -/
inductive Primitive where
  | i32 | i64 | bool
deriving DecidableEq, Repr

def Primitive.keyword : Primitive → Keyword
  | i32 => .i32
  | i64 => .i64
  | bool => .bool

/-- The word for a truth value. -/
def truthWord : Bool → Keyword
  | true => .trueWord
  | false => .falseWord

/-- The phrases of each category. -/
inductive Phrase (α : Type) : Category → Type where
  | noFunctions : Phrase α .functions
  | moreFunctions (fs : Phrase α .functions) (f : Phrase α .function) : Phrase α .functions
  | function (word name : α) (ps : Phrase α .parameters) (arrow : α) (ty : Phrase α .type)
      (body : Phrase α .block) : Phrase α .function
  | noParameters (opening closing : α) : Phrase α .parameters
  | someParameters (opening : α) (ps : Phrase α .parameterList) (closing : α) :
      Phrase α .parameters
  | oneParameter (p : Phrase α .parameter) : Phrase α .parameterList
  | moreParameters (ps : Phrase α .parameterList) (comma : α) (p : Phrase α .parameter) :
      Phrase α .parameterList
  | parameter (name colon : α) (ty : Phrase α .type) : Phrase α .parameter
  | primitive (p : Primitive) (word : α) : Phrase α .type
  | unitType (sign : α) : Phrase α .type
  | block (opening : α) (ss : Phrase α .statements) (closing : α) : Phrase α .block
  | blockWithValue (opening : α) (ss : Phrase α .statements) (value : Phrase α .expression)
      (closing : α) : Phrase α .block
  | noStatements : Phrase α .statements
  | moreStatements (ss : Phrase α .statements) (s : Phrase α .statement) : Phrase α .statements
  | letStatement (word name colon : α) (ty : Phrase α .type) (equals : α)
      (value : Phrase α .expression) (semicolon : α) : Phrase α .statement
  | assignment (name equals : α) (value : Phrase α .expression) (semicolon : α) :
      Phrase α .statement
  | expressionStatement (e : Phrase α .expression) (semicolon : α) : Phrase α .statement
  | reference (name : α) : Phrase α .expression
  | integer (digits : α) : Phrase α .expression
  | boolean (value : Bool) (word : α) : Phrase α .expression
  | unit (opening closing : α) : Phrase α .expression
  | parenthesized (opening : α) (e : Phrase α .expression) (closing : α) : Phrase α .expression
  | call (name : α) (args : Phrase α .arguments) : Phrase α .expression
  | binary (left : Phrase α .expression) (o : Operator) (sign : α)
      (right : Phrase α .expression) : Phrase α .expression
  | ifExpression (c : Phrase α .conditional) : Phrase α .expression
  | whileLoop (word : α) (condition : Phrase α .expression) (body : Phrase α .block) :
      Phrase α .expression
  | ifThen (word : α) (condition : Phrase α .expression) (body : Phrase α .block) :
      Phrase α .conditional
  | ifElse (word : α) (condition : Phrase α .expression) (body : Phrase α .block)
      (rest : Phrase α .elseClause) : Phrase α .conditional
  | elseBlock (word : α) (body : Phrase α .block) : Phrase α .elseClause
  | elseIf (word : α) (c : Phrase α .conditional) : Phrase α .elseClause
  | noArguments (opening closing : α) : Phrase α .arguments
  | someArguments (opening : α) (es : Phrase α .argumentList) (closing : α) : Phrase α .arguments
  | oneArgument (e : Phrase α .expression) : Phrase α .argumentList
  | moreArguments (es : Phrase α .argumentList) (comma : α) (e : Phrase α .expression) :
      Phrase α .argumentList

namespace Phrase

variable {α β : Type}

/-- The tokens of a phrase from left to right. -/
def tokens : {c : Category} → Phrase α c → List (Token α)
  | _, noFunctions => []
  | _, moreFunctions fs f => fs.tokens ++ f.tokens
  | _, function word name ps arrow ty body =>
    (.word .fnWord, word) :: (.identifier, name) ::
      (ps.tokens ++ (.mark .arrow, arrow) :: (ty.tokens ++ body.tokens))
  | _, noParameters opening closing =>
    [(.mark .openParen, opening), (.mark .closeParen, closing)]
  | _, someParameters opening ps closing =>
    (.mark .openParen, opening) :: (ps.tokens ++ [(.mark .closeParen, closing)])
  | _, oneParameter p => p.tokens
  | _, moreParameters ps comma p => ps.tokens ++ (.mark .comma, comma) :: p.tokens
  | _, parameter name colon ty => (.identifier, name) :: (.mark .colon, colon) :: ty.tokens
  | _, primitive p word => [(.word p.keyword, word)]
  | _, unitType sign => [(.unitType, sign)]
  | _, block opening ss closing =>
    (.mark .openBrace, opening) :: (ss.tokens ++ [(.mark .closeBrace, closing)])
  | _, blockWithValue opening ss value closing =>
    (.mark .openBrace, opening) ::
      (ss.tokens ++ (value.tokens ++ [(.mark .closeBrace, closing)]))
  | _, noStatements => []
  | _, moreStatements ss s => ss.tokens ++ s.tokens
  | _, letStatement word name colon ty equals value semicolon =>
    (.word .letWord, word) :: (.identifier, name) :: (.mark .colon, colon) ::
      (ty.tokens ++ (.mark .equals, equals) ::
        (value.tokens ++ [(.mark .semicolon, semicolon)]))
  | _, assignment name equals value semicolon =>
    (.identifier, name) :: (.mark .equals, equals) ::
      (value.tokens ++ [(.mark .semicolon, semicolon)])
  | _, expressionStatement e semicolon => e.tokens ++ [(.mark .semicolon, semicolon)]
  | _, reference name => [(.identifier, name)]
  | _, integer digits => [(.integer, digits)]
  | _, boolean value word => [(.word (truthWord value), word)]
  | _, unit opening closing => [(.mark .openParen, opening), (.mark .closeParen, closing)]
  | _, parenthesized opening e closing =>
    (.mark .openParen, opening) :: (e.tokens ++ [(.mark .closeParen, closing)])
  | _, call name args => (.identifier, name) :: args.tokens
  | _, binary left o sign right => left.tokens ++ (.operator o, sign) :: right.tokens
  | _, ifExpression c => c.tokens
  | _, whileLoop word condition body =>
    (.word .whileWord, word) :: (condition.tokens ++ body.tokens)
  | _, ifThen word condition body => (.word .ifWord, word) :: (condition.tokens ++ body.tokens)
  | _, ifElse word condition body rest =>
    (.word .ifWord, word) :: (condition.tokens ++ (body.tokens ++ rest.tokens))
  | _, elseBlock word body => (.word .elseWord, word) :: body.tokens
  | _, elseIf word c => (.word .elseWord, word) :: c.tokens
  | _, noArguments opening closing =>
    [(.mark .openParen, opening), (.mark .closeParen, closing)]
  | _, someArguments opening es closing =>
    (.mark .openParen, opening) :: (es.tokens ++ [(.mark .closeParen, closing)])
  | _, oneArgument e => e.tokens
  | _, moreArguments es comma e => es.tokens ++ (.mark .comma, comma) :: e.tokens

/-- The phrase with every note replaced. -/
def map (f : α → β) : {c : Category} → Phrase α c → Phrase β c
  | _, noFunctions => noFunctions
  | _, moreFunctions fs g => moreFunctions (fs.map f) (g.map f)
  | _, function word name ps arrow ty body =>
    function (f word) (f name) (ps.map f) (f arrow) (ty.map f) (body.map f)
  | _, noParameters opening closing => noParameters (f opening) (f closing)
  | _, someParameters opening ps closing => someParameters (f opening) (ps.map f) (f closing)
  | _, oneParameter p => oneParameter (p.map f)
  | _, moreParameters ps comma p => moreParameters (ps.map f) (f comma) (p.map f)
  | _, parameter name colon ty => parameter (f name) (f colon) (ty.map f)
  | _, primitive p word => primitive p (f word)
  | _, unitType sign => unitType (f sign)
  | _, block opening ss closing => block (f opening) (ss.map f) (f closing)
  | _, blockWithValue opening ss value closing =>
    blockWithValue (f opening) (ss.map f) (value.map f) (f closing)
  | _, noStatements => noStatements
  | _, moreStatements ss s => moreStatements (ss.map f) (s.map f)
  | _, letStatement word name colon ty equals value semicolon =>
    letStatement (f word) (f name) (f colon) (ty.map f) (f equals) (value.map f) (f semicolon)
  | _, assignment name equals value semicolon =>
    assignment (f name) (f equals) (value.map f) (f semicolon)
  | _, expressionStatement e semicolon => expressionStatement (e.map f) (f semicolon)
  | _, reference name => reference (f name)
  | _, integer digits => integer (f digits)
  | _, boolean value word => boolean value (f word)
  | _, unit opening closing => unit (f opening) (f closing)
  | _, parenthesized opening e closing => parenthesized (f opening) (e.map f) (f closing)
  | _, call name args => call (f name) (args.map f)
  | _, binary left o sign right => binary (left.map f) o (f sign) (right.map f)
  | _, ifExpression c => ifExpression (c.map f)
  | _, whileLoop word condition body => whileLoop (f word) (condition.map f) (body.map f)
  | _, ifThen word condition body => ifThen (f word) (condition.map f) (body.map f)
  | _, ifElse word condition body rest =>
    ifElse (f word) (condition.map f) (body.map f) (rest.map f)
  | _, elseBlock word body => elseBlock (f word) (body.map f)
  | _, elseIf word c => elseIf (f word) (c.map f)
  | _, noArguments opening closing => noArguments (f opening) (f closing)
  | _, someArguments opening es closing => someArguments (f opening) (es.map f) (f closing)
  | _, oneArgument e => oneArgument (e.map f)
  | _, moreArguments es comma e => moreArguments (es.map f) (f comma) (e.map f)

theorem tokens_map (f : α → β) {c : Category} (p : Phrase α c) :
    (p.map f).tokens = p.tokens.map fun t => (t.1, f t.2) := by
  induction p <;>
    simp only [tokens, map, List.map_append, List.map_cons, List.map_nil, *]

end Phrase

end RueSyntax
