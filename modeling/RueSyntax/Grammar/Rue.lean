import RueSyntax.Grammar.Basic

/-!
# The grammar of Rue

A file is a sequence of functions; a block is a sequence of statements that may end in a value.
Conditionals and loops are expressions.  Operators have three levels and group to the left.
-/

namespace RueSyntax

namespace Grammar

open Production

/-- Nothing, or `p`. -/
def optional (p : Production) : Production := choice [p, blank]

/-- One or more times `p` with commas between. -/
def commaSeparated (p : Production) : Production :=
  seq [p, repetition false (seq [literal ",", p])]

/-- A binary operation of level `n` with one of these operators. -/
def operation (n : Int) (operators : List String) : Production :=
  ranked .left (.number n) (seq [
    field "left" (symbol "_expression"),
    field "operator" (choice (operators.map literal)),
    field "right" (symbol "_expression")])

/-- The rules of Rue. -/
def rueRules : List (String × Production) := [
  ("source_file", repetition false (symbol "function_item")),
  ("function_item", seq [
    literal "fn",
    field "name" (symbol "identifier"),
    field "parameters" (symbol "parameters"),
    literal "->",
    field "return_type" (symbol "_type"),
    field "body" (symbol "block")]),
  ("parameters", seq [
    literal "(", optional (commaSeparated (symbol "parameter")), literal ")"]),
  ("parameter", seq [
    field "name" (symbol "identifier"), literal ":", field "type" (symbol "_type")]),
  ("_type", choice [symbol "primitive_type", symbol "unit_type"]),
  ("primitive_type", choice [literal "i32", literal "i64", literal "bool"]),
  ("unit_type", literal "()"),
  ("block", seq [
    literal "\x7b",
    repetition false (symbol "_statement"),
    optional (symbol "_expression"),
    literal "\x7d"]),
  ("_statement", choice [
    symbol "let_statement", symbol "assignment_statement", symbol "expression_statement"]),
  ("let_statement", seq [
    literal "let",
    field "name" (symbol "identifier"),
    literal ":",
    field "type" (symbol "_type"),
    literal "=",
    field "value" (symbol "_expression"),
    literal ";"]),
  ("assignment_statement", seq [
    field "name" (symbol "identifier"),
    literal "=",
    field "value" (symbol "_expression"),
    literal ";"]),
  ("expression_statement", seq [symbol "_expression", literal ";"]),
  ("_expression", choice [
    symbol "if_expression", symbol "while_expression", symbol "binary_expression",
    symbol "call_expression", symbol "_primary_expression"]),
  ("if_expression", ranked .right (.number 0) (seq [
    literal "if",
    field "condition" (symbol "_expression"),
    field "consequence" (symbol "block"),
    optional (field "alternative" (symbol "else_clause"))])),
  ("else_clause", seq [literal "else", choice [symbol "block", symbol "if_expression"]]),
  ("while_expression", ranked .right (.number 0) (seq [
    literal "while",
    field "condition" (symbol "_expression"),
    field "body" (symbol "block")])),
  ("binary_expression", choice [
    operation 3 ["*", "/", "%"],
    operation 2 ["+", "-"],
    operation 1 ["==", "!=", "<", "<=", ">", ">="]]),
  ("call_expression", ranked .plain (.number 4) (seq [
    field "function" (symbol "identifier"), field "arguments" (symbol "arguments")])),
  ("arguments", seq [
    literal "(", optional (commaSeparated (symbol "_expression")), literal ")"]),
  ("_primary_expression", choice [
    symbol "identifier", symbol "integer_literal", symbol "boolean_literal",
    symbol "unit_literal", symbol "parenthesized_expression"]),
  ("parenthesized_expression", seq [literal "(", symbol "_expression", literal ")"]),
  ("identifier", pattern "[a-zA-Z_][a-zA-Z0-9_]*" none),
  ("integer_literal", pattern "\\d+" none),
  ("boolean_literal", choice [literal "true", literal "false"]),
  ("unit_literal", seq [literal "(", literal ")"]),
  ("line_comment", token false (seq [literal "//", pattern ".*" none])),
  ("block_comment", token false (seq [
    literal "/*", pattern "[^*]*\\*+([^/*][^*]*\\*+)*" none, literal "/"]))]

/-- The grammar of Rue: blanks and comments may stand between any two tokens. -/
def rue : Grammar where
  name := "rue"
  word := some "identifier"
  rules := rueRules
  extras := [pattern "\\s" none, symbol "line_comment", symbol "block_comment"]

end Grammar

end RueSyntax
