/-!
# Grammars

A grammar gives each of its rules a production, in an order that matters: the first rule is what a
text has to be.  A rule whose name begins with an underscore is hidden: it makes no node, and what
it produces stands in its parent.
-/

namespace RueSyntax

/-- How a precedence settles a tie. -/
inductive Grouping where
  | plain | left | right | dynamic
deriving DecidableEq, Repr

/-- A precedence is a number, or a name that the grammar orders elsewhere. -/
inductive Rank where
  | number (n : Int)
  | named (s : String)
deriving DecidableEq, Repr

/-- What a grammar puts in order, higher precedence first: its named precedences and its rules. -/
inductive Precedent where
  | rank (name : String)
  | rule (name : String)
deriving DecidableEq, Repr

/-- What a rule may consist of. -/
inductive Production where
  | blank
  /-- This very text. -/
  | literal (text : String)
  /-- A text of this regular expression. -/
  | pattern (regex : String) (flags : Option String)
  /-- What the rule of that name produces. -/
  | symbol (name : String)
  | seq (ps : List Production)
  | choice (ps : List Production)
  /-- Any number of times, or at least once. -/
  | repetition (atLeastOnce : Bool) (p : Production)
  | field (name : String) (p : Production)
  | renamed (name : String) (isNamed : Bool) (p : Production)
  | ranked (g : Grouping) (r : Rank) (p : Production)
  /-- One token, with no blanks inside; immediate if with none before it either. -/
  | token (immediate : Bool) (p : Production)

/-- A grammar. -/
structure Grammar where
  name : String
  /-- The rule whose texts are words; literals that look like words are recognised through it. -/
  word : Option String
  rules : List (String × Production)
  /-- What may stand between any two tokens. -/
  extras : List Production
  externals : List Production := []
  conflicts : List (List String) := []
  precedences : List (List Precedent) := []
  inlined : List String := []
  supertypes : List String := []

/-- Whether the rule of that name makes no node. -/
def isHiddenName (name : String) : Bool := name.toList.head? == some '_'

namespace Production

mutual

/-- The names of rules that a production mentions. -/
def symbols : Production → List String
  | blank | literal _ | pattern _ _ => []
  | symbol name => [name]
  | seq ps | choice ps => symbolsOf ps
  | repetition _ p | field _ p | renamed _ _ p | ranked _ _ p | token _ p => symbols p

def symbolsOf : List Production → List String
  | [] => []
  | p :: ps => symbols p ++ symbolsOf ps

end

mutual

/-- The literals of a production that are tokens of their own. -/
def literals : Production → List String
  | literal text => [text]
  | blank | pattern _ _ | symbol _ | token _ _ => []
  | seq ps | choice ps => literalsOf ps
  | repetition _ p | field _ p | renamed _ _ p | ranked _ _ p => literals p

def literalsOf : List Production → List String
  | [] => []
  | p :: ps => literals p ++ literalsOf ps

end

mutual

/-- The field names of a production. -/
def fields : Production → List String
  | blank | literal _ | pattern _ _ | symbol _ => []
  | field name p => name :: fields p
  | seq ps | choice ps => fieldsOf ps
  | repetition _ p | renamed _ _ p | ranked _ _ p | token _ p => fields p

def fieldsOf : List Production → List String
  | [] => []
  | p :: ps => fields p ++ fieldsOf ps

end

mutual

/-- How many repetitions a production holds outside its tokens. -/
def repetitions : Production → Nat
  | blank | literal _ | pattern _ _ | symbol _ | token _ _ => 0
  | repetition _ p => repetitions p + 1
  | seq ps | choice ps => repetitionsOf ps
  | field _ p | renamed _ _ p | ranked _ _ p => repetitions p

def repetitionsOf : List Production → Nat
  | [] => 0
  | p :: ps => repetitions p + repetitionsOf ps

end

end Production

end RueSyntax
