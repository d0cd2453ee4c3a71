import RueSyntax.Tree.Basic

/-!
# Trees as S-expressions

Only named nodes are written: a node is its kind and its named children in parentheses, with one
space before each child and its field, if it has one, in front of its parenthesis.
-/

namespace RueSyntax

namespace Tree

mutual

def sexpr : Tree → String
  | token _ t _ _ => "(" ++ t.name ++ ")"
  | comment c => "(" ++ c.kind.name ++ ")"
  | rule _ r _ ts => "(" ++ r.name ++ sexprs ts ++ ")"

/-- The named ones among children. -/
def sexprs : List Tree → String
  | [] => ""
  | t :: ts =>
    let label := (t.field.map fun f => f.label ++ ": ").getD ""
    (if t.isNamed then " " ++ label ++ sexpr t else "") ++ sexprs ts

end

end Tree

end RueSyntax
