import RueSyntax.Grammar.Basic

/-!
# Usable grammars

A rule is used if it is the first one, if an extra or an external token mentions it, or if a used
rule does.  Unused rules are left out, and with them every conflict, precedence list, inlined name
and supertype that speaks of one of them; only the word rule stays, used or not.

`Grammar.isUsable` says whether a parser can be made for a grammar at all: there is a first rule and
it is not hidden, no extra is the empty literal, and in what is left every name stands for a rule or
an external token, every named precedence has its place in a list, and the lists agree on the order.
-/

namespace RueSyntax

namespace Production

mutual

/-- The named precedences of a production.  Where precedences stand directly within one another, or
with nothing but fields and other names between them, only the outermost one counts; `isRanked` says
that there is one around already. -/
def rankNames (isRanked : Bool) : Production → List String
  | blank | literal _ | pattern _ _ | symbol _ => []
  | seq ps | choice ps => rankNamesOf ps
  | repetition _ p | token _ p => rankNames false p
  | field _ p | renamed _ _ p | ranked .dynamic _ p => rankNames isRanked p
  | ranked _ (.named name) p => (if isRanked then [] else [name]) ++ rankNames true p
  | ranked _ (.number _) p => rankNames true p

def rankNamesOf : List Production → List String
  | [] => []
  | p :: ps => rankNames false p ++ rankNamesOf ps

end

/-- Whether a production is the literal without characters. -/
def isEmptyLiteral : Production → Bool
  | .literal text => text.isEmpty
  | _ => false

end Production

namespace Precedent

def rankName? : Precedent → Option String
  | rank name => some name
  | rule _ => none

def ruleName? : Precedent → Option String
  | rank _ => none
  | rule name => some name

/-- The pairs that a list orders: an entry, and another one behind it. -/
def orderedPairs : List Precedent → List (Precedent × Precedent)
  | [] => []
  | p :: ps => ((ps.filter (· ≠ p)).map fun q => (p, q)) ++ orderedPairs ps

end Precedent

namespace Grammar

/-! ### Unused rules -/

/-- The rules but for those of a name. -/
def without (name : String) (rules : List (String × Production)) : List (String × Production) :=
  rules.filter fun r => !(r.1 == name)

theorem length_without_lt {name : String} {r : String × Production}
    {rules : List (String × Production)} (h : rules.find? (fun r => r.1 == name) = some r) :
    (without name rules).length < rules.length :=
  List.length_filter_lt_length_iff_exists.2
    ⟨r, List.mem_of_find?_eq_some h, by simpa using List.find?_some h⟩

/-- The rules that are not reached from the given names.  Each rule is followed once: it is taken
out before the names that it mentions are looked at. -/
def unreached (rules : List (String × Production)) : List String → List (String × Production)
  | [] => rules
  | name :: names =>
    match _h : rules.find? fun r => r.1 == name with
    | none => unreached rules names
    | some r => unreached (without name rules) (r.2.symbols ++ names)
termination_by names => (rules.length, names.length)
decreasing_by
  · exact Prod.Lex.right _ (Nat.lt_succ_self _)
  · exact Prod.Lex.left _ _ (length_without_lt _h)

/-- The names that are used without any rule's mention. -/
def rootNames (g : Grammar) : List String :=
  (g.rules.take 1).map Prod.fst ++ g.extras.flatMap Production.symbols
    ++ g.externals.flatMap Production.symbols

/-- The names of the rules to be left out. -/
def unusedNames (g : Grammar) : List String :=
  ((unreached g.rules g.rootNames).map Prod.fst).filter fun name => !(g.word == some name)

/-- The grammar without its unused rules and what speaks of them. -/
def trimmed (g : Grammar) : Grammar :=
  let unused := g.unusedNames
  { g with
    rules := g.rules.filter fun r => !unused.contains r.1
    conflicts := g.conflicts.filter fun names => !names.any unused.contains
    precedences := g.precedences.filter fun ps =>
      !(ps.filterMap Precedent.ruleName?).any unused.contains
    inlined := g.inlined.filter fun name => !unused.contains name
    supertypes := g.supertypes.filter fun name => !unused.contains name }

/-! ### Names and precedences -/

/-- The names that a grammar defines: its rules and its external tokens. -/
def definedNames (g : Grammar) : List String :=
  g.rules.map Prod.fst ++ g.externals.filterMap fun
    | .symbol name => some name
    | _ => none

/-- The names that must be defined. -/
def usedNames (g : Grammar) : List String :=
  (g.rules.flatMap fun r => r.2.symbols) ++ g.extras.flatMap Production.symbols
    ++ g.externals.flatMap Production.symbols ++ g.word.toList ++ g.conflicts.flatten
    ++ g.supertypes

/-- Whether every name that is used is defined. -/
def isClosed (g : Grammar) : Bool :=
  let names := g.definedNames
  g.usedNames.all names.contains

/-- Whether every named precedence of a rule stands in a list. -/
def ranksAreOrdered (g : Grammar) : Bool :=
  let names := g.precedences.flatten.filterMap Precedent.rankName?
  (g.rules.flatMap fun r => r.2.rankNames false).all names.contains

/-- Whether no two entries of the precedence lists stand in both orders. -/
def ordersAgree (g : Grammar) : Bool :=
  let pairs := g.precedences.flatMap Precedent.orderedPairs
  pairs.all fun p => !pairs.contains p.swap

/-! ### Usability -/

/-- Whether the first rule exists and makes a node. -/
def startIsVisible (g : Grammar) : Bool :=
  match g.rules with
  | [] => false
  | r :: _ => !isHiddenName r.1

/-- Whether a parser can be made for a grammar. -/
def isUsable (g : Grammar) : Bool :=
  let kept := g.trimmed
  g.startIsVisible && !g.extras.any Production.isEmptyLiteral && kept.isClosed
    && kept.ranksAreOrdered && kept.ordersAgree

end Grammar

end RueSyntax
