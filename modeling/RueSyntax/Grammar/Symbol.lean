import RueSyntax.Grammar.Basic

/-!
# The symbols of a grammar

A parser table for a grammar has a symbol for the end of the text, for each rule, for each literal
that is a token of its own, and for each repetition, which becomes a hidden rule named after the
rule that it stands in.  A rule that is nothing but a literal gives that literal its name.  Symbols
and fields are listed by name, byte by byte.
-/

namespace RueSyntax

/-- A symbol of a parser table. -/
structure Symbol where
  name : String
  isNamed : Bool
  isVisible : Bool
deriving DecidableEq, Repr

namespace Grammar

/-- The literals in a rule that are tokens of their own. -/
def ruleLiterals : Production → List String
  | .literal _ => []
  | p => p.literals

/-- The hidden rules for the repetitions in the rule of that name. -/
def repetitionSymbols (name : String) (p : Production) : List Symbol :=
  (List.range p.repetitions).map fun i => ⟨name ++ "_repeat" ++ toString (i + 1), false, false⟩

/-- The symbols in the order of their names. -/
def symbols (g : Grammar) : List Symbol :=
  let rules := g.rules.map fun r => ⟨r.1, !isHiddenName r.1, !isHiddenName r.1⟩
  let literals := ((g.rules.flatMap fun r => ruleLiterals r.2).eraseDups).map
    fun s => ⟨s, false, true⟩
  let repetitions := g.rules.flatMap fun r => repetitionSymbols r.1 r.2
  (⟨"end", false, false⟩ :: (rules ++ literals ++ repetitions)).mergeSort
    fun a b => a.name ≤ b.name

/-- The field names in their order. -/
def fields (g : Grammar) : List String :=
  ((g.rules.flatMap fun r => r.2.fields).eraseDups).mergeSort fun a b => a ≤ b

/-- Whether there is a visible kind of node of that name, named or not as asked. -/
def hasKind (g : Grammar) (name : String) (isNamed : Bool) : Bool :=
  g.symbols.any fun s => s.isVisible && s.name == name && s.isNamed == isNamed

/-- The number of a field, counted from 1 in the order of names. -/
def fieldId? (g : Grammar) (name : String) : Option Nat :=
  (g.fields.idxOf? name).map (· + 1)

end Grammar

end RueSyntax
