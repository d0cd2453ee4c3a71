import RueSyntax.Grammar.Rue
import RueSyntax.Token.Terminal

/-!
# The precedence of operators

How operations nest is said by the grammar: it ranks the alternatives of a rule, and an operator
binds as tightly as the alternative in which it stands.  The levels that are used for reading are
the ranks of the binary operations, all of which group to the left (`Operator.precedence_eq`).
-/

namespace RueSyntax

namespace Production

/-- The productions of a choice; any other production is the only alternative. -/
def alternatives : Production → List Production
  | choice ps => ps
  | p => [p]

/-- How a production is ranked and how it settles a tie, if it says so. -/
def precedence? : Production → Option (Grouping × Rank)
  | ranked g r _ => some (g, r)
  | _ => none

end Production

/-- The precedence of the alternative of a rule in which this operator stands. -/
def Grammar.precedence? (g : Grammar) (rule operator : String) : Option (Grouping × Rank) := do
  let p ← g.rules.lookup rule
  let q ← p.alternatives.find? fun q => q.literals.contains operator
  q.precedence?

namespace Operator

/-- How tightly the grammar makes an operator bind.  What is not ranked counts as ranked zero. -/
def rank (o : Operator) : Int :=
  match Grammar.rue.precedence? "binary_expression" o.spelling with
  | some (_, .number n) => n
  | _ => 0

theorem precedence_eq (o : Operator) :
    Grammar.rue.precedence? "binary_expression" o.spelling = some (.left, .number o.level) := by
  cases o <;> rfl

theorem rank_eq_level (o : Operator) : o.rank = o.level := by
  rw [rank, precedence_eq]

theorem rank_of_spelling (o : Operator) : o.rank =
    if o.spelling ∈ ["*", "/", "%"] then 3 else if o.spelling ∈ ["+", "-"] then 2 else 1 := by
  rw [rank_eq_level]
  cases o <;> decide

end Operator

end RueSyntax
