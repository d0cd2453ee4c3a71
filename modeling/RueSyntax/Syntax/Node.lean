import RueSyntax.Syntax.Phrase

/-!
# Nodes: the syntax of Rue as a labelled tree

A node is a token or the result of a rule, with a field that says which part of its parent it is.
`Phrase.nodes` forgets the categories of a phrase and keeps the tree that users of the syntax see:
choices such as *expression* or *type* make no node, and sequences are spliced into their parent.
-/

namespace RueSyntax

/-- The names of the parts of a node. -/
inductive Field where
  | alternative | arguments | body | condition | consequence | function | left | name
  | operator | parameters | returnType | right | type | value
deriving DecidableEq, Repr

namespace Field

/-- A field as it is written in queries and printed trees. -/
def label : Field → String
  | alternative => "alternative"
  | arguments => "arguments"
  | body => "body"
  | condition => "condition"
  | consequence => "consequence"
  | function => "function"
  | left => "left"
  | name => "name"
  | operator => "operator"
  | parameters => "parameters"
  | returnType => "return_type"
  | right => "right"
  | type => "type"
  | value => "value"

end Field

/-- The rules that make a node with parts. -/
inductive Rule where
  | sourceFile | functionItem | parameters | parameter | primitiveType | block
  | letStatement | assignmentStatement | expressionStatement
  | ifExpression | elseClause | whileExpression | binaryExpression | callExpression | arguments
  | booleanLiteral | unitLiteral | parenthesizedExpression
deriving DecidableEq, Repr

namespace Rule

/-- The name of the kind of node that a rule makes. -/
def name : Rule → String
  | sourceFile => "source_file"
  | functionItem => "function_item"
  | parameters => "parameters"
  | parameter => "parameter"
  | primitiveType => "primitive_type"
  | block => "block"
  | letStatement => "let_statement"
  | assignmentStatement => "assignment_statement"
  | expressionStatement => "expression_statement"
  | ifExpression => "if_expression"
  | elseClause => "else_clause"
  | whileExpression => "while_expression"
  | binaryExpression => "binary_expression"
  | callExpression => "call_expression"
  | arguments => "arguments"
  | booleanLiteral => "boolean_literal"
  | unitLiteral => "unit_literal"
  | parenthesizedExpression => "parenthesized_expression"

end Rule

/-- A tree over tokens with notes of type `α`. -/
inductive Node (α : Type) where
  | token (field : Option Field) (t : Terminal) (note : α)
  | rule (field : Option Field) (r : Rule) (children : List (Node α))

namespace Phrase

variable {α : Type}

open Node

/-- The nodes of a phrase; if it makes a node of its own, `field` is that node's field. -/
def nodes (field : Option Field) : {c : Category} → Phrase α c → List (Node α)
  | _, noFunctions => []
  | _, moreFunctions fs f => fs.nodes none ++ f.nodes none
  | _, function word name ps arrow ty body =>
    [rule field .functionItem (
      token none (.word .fnWord) word :: token (some .name) .identifier name ::
        (ps.nodes (some .parameters) ++ token none (.mark .arrow) arrow ::
          (ty.nodes (some .returnType) ++ body.nodes (some .body))))]
  | _, noParameters opening closing =>
    [rule field .parameters
      [token none (.mark .openParen) opening, token none (.mark .closeParen) closing]]
  | _, someParameters opening ps closing =>
    [rule field .parameters (token none (.mark .openParen) opening ::
      (ps.nodes none ++ [token none (.mark .closeParen) closing]))]
  | _, oneParameter p => p.nodes none
  | _, moreParameters ps comma p =>
    ps.nodes none ++ token none (.mark .comma) comma :: p.nodes none
  | _, parameter name colon ty =>
    [rule field .parameter (token (some .name) .identifier name ::
      token none (.mark .colon) colon :: ty.nodes (some .type))]
  | _, primitive p word => [rule field .primitiveType [token none (.word p.keyword) word]]
  | _, unitType sign => [token field .unitType sign]
  | _, block opening ss closing =>
    [rule field .block (token none (.mark .openBrace) opening ::
      (ss.nodes none ++ [token none (.mark .closeBrace) closing]))]
  | _, blockWithValue opening ss value closing =>
    [rule field .block (token none (.mark .openBrace) opening ::
      (ss.nodes none ++ (value.nodes none ++ [token none (.mark .closeBrace) closing])))]
  | _, noStatements => []
  | _, moreStatements ss s => ss.nodes none ++ s.nodes none
  | _, letStatement word name colon ty equals value semicolon =>
    [rule field .letStatement (
      token none (.word .letWord) word :: token (some .name) .identifier name ::
        token none (.mark .colon) colon :: (ty.nodes (some .type) ++
          token none (.mark .equals) equals :: (value.nodes (some .value) ++
            [token none (.mark .semicolon) semicolon])))]
  | _, assignment name equals value semicolon =>
    [rule field .assignmentStatement (token (some .name) .identifier name ::
      token none (.mark .equals) equals :: (value.nodes (some .value) ++
        [token none (.mark .semicolon) semicolon]))]
  | _, expressionStatement e semicolon =>
    [rule field .expressionStatement
      (e.nodes none ++ [token none (.mark .semicolon) semicolon])]
  | _, reference name => [token field .identifier name]
  | _, integer digits => [token field .integer digits]
  | _, boolean value word =>
    [rule field .booleanLiteral [token none (.word (truthWord value)) word]]
  | _, unit opening closing =>
    [rule field .unitLiteral
      [token none (.mark .openParen) opening, token none (.mark .closeParen) closing]]
  | _, parenthesized opening e closing =>
    [rule field .parenthesizedExpression (token none (.mark .openParen) opening ::
      (e.nodes none ++ [token none (.mark .closeParen) closing]))]
  | _, call name args =>
    [rule field .callExpression
      (token (some .function) .identifier name :: args.nodes (some .arguments))]
  | _, binary left o sign right =>
    [rule field .binaryExpression (left.nodes (some .left) ++
      token (some .operator) (.operator o) sign :: right.nodes (some .right))]
  | _, ifExpression c => c.nodes field
  | _, whileLoop word condition body =>
    [rule field .whileExpression (token none (.word .whileWord) word ::
      (condition.nodes (some .condition) ++ body.nodes (some .body)))]
  | _, ifThen word condition body =>
    [rule field .ifExpression (token none (.word .ifWord) word ::
      (condition.nodes (some .condition) ++ body.nodes (some .consequence)))]
  | _, ifElse word condition body rest =>
    [rule field .ifExpression (token none (.word .ifWord) word ::
      (condition.nodes (some .condition) ++ (body.nodes (some .consequence) ++
        rest.nodes (some .alternative))))]
  | _, elseBlock word body =>
    [rule field .elseClause (token none (.word .elseWord) word :: body.nodes none)]
  | _, elseIf word c =>
    [rule field .elseClause (token none (.word .elseWord) word :: c.nodes none)]
  | _, noArguments opening closing =>
    [rule field .arguments
      [token none (.mark .openParen) opening, token none (.mark .closeParen) closing]]
  | _, someArguments opening es closing =>
    [rule field .arguments (token none (.mark .openParen) opening ::
      (es.nodes none ++ [token none (.mark .closeParen) closing]))]
  | _, oneArgument e => e.nodes none
  | _, moreArguments es comma e =>
    es.nodes none ++ token none (.mark .comma) comma :: e.nodes none

end Phrase

end RueSyntax
