import RueSyntax.Syntax.Phrase

/-!
# Contexts: what is open around the place being read

While an expression or a block is being read, the constructs around it are half done.  A context
lists them from the inside out, each with the phrases and notes that it has already.  There are two
kinds of gap: one for an expression (`Context α .expression`) and one for the inside of a block
(`Context α .block`).  Two things that may pile up in one place are kept as lists, nearest first:
operators that wait for their right operand (`Pending`) and the `if`s of an `else if` chain
(`Branch`).

A context has no meaningless values: each one is reached by some beginning of a program.
`Context.tokens` gives the tokens of that beginning.
-/

namespace RueSyntax

/-- A left operand and an operator that wait for the right operand. -/
structure Pending (α : Type) where
  left : Phrase α .expression
  operator : Operator
  sign : α

/-- An `if` whose `else` is followed by another `if`. -/
structure Branch (α : Type) where
  word : α
  condition : Phrase α .expression
  body : Phrase α .block
  elseWord : α

/-- The head of a function up to its body, and the functions before it. -/
structure Header (α : Type) where
  before : Phrase α .functions
  word : α
  name : α
  parameters : Phrase α .parameters
  arrow : α
  type : Phrase α .type

/-- What can be missing. -/
inductive Gap where
  | expression | block
deriving DecidableEq, Repr

/-- What is open around a gap.  The gap of kind `block` stands behind an opening brace. -/
inductive Context (α : Type) : Gap → Type where
  /-- Inside the parentheses that group an expression. -/
  | parenthesized (opening : α) (ps : List (Pending α)) (k : Context α .expression) :
      Context α .expression
  /-- In the first place of a call's arguments. -/
  | firstArgument (name opening : α) (ps : List (Pending α)) (k : Context α .expression) :
      Context α .expression
  /-- In a later place of a call's arguments, behind a comma. -/
  | nextArgument (name opening : α) (es : Phrase α .argumentList) (comma : α)
      (ps : List (Pending α)) (k : Context α .expression) : Context α .expression
  /-- The condition of an `if`, itself the last of a chain. -/
  | ifCondition (word : α) (bs : List (Branch α)) (ps : List (Pending α))
      (k : Context α .expression) : Context α .expression
  /-- The condition of a `while`. -/
  | whileCondition (word : α) (ps : List (Pending α)) (k : Context α .expression) :
      Context α .expression
  /-- The value of a `let` statement. -/
  | letValue (opening : α) (ss : Phrase α .statements) (word name colon : α)
      (ty : Phrase α .type) (equals : α) (k : Context α .block) : Context α .expression
  /-- The value of an assignment. -/
  | assignedValue (opening : α) (ss : Phrase α .statements) (name equals : α)
      (k : Context α .block) : Context α .expression
  /-- An expression that stands in a block by itself, as a statement or as the block's value. -/
  | bare (opening : α) (ss : Phrase α .statements) (k : Context α .block) :
      Context α .expression
  /-- The body of a function. -/
  | functionBody (h : Header α) : Context α .block
  /-- The block behind the condition of an `if`. -/
  | thenBody (word : α) (condition : Phrase α .expression) (bs : List (Branch α))
      (ps : List (Pending α)) (k : Context α .expression) : Context α .block
  /-- The block behind an `else`. -/
  | elseBody (last : Branch α) (bs : List (Branch α)) (ps : List (Pending α))
      (k : Context α .expression) : Context α .block
  /-- The body of a `while`. -/
  | whileBody (word : α) (condition : Phrase α .expression) (ps : List (Pending α))
      (k : Context α .expression) : Context α .block

variable {α β : Type}

namespace Pending

def map (f : α → β) (p : Pending α) : Pending β := ⟨p.left.map f, p.operator, f p.sign⟩

/-- The tokens of the operands and operators in a list, which has the last one first. -/
def tokens : List (Pending α) → List (Token α)
  | [] => []
  | p :: ps => tokens ps ++ (p.left.tokens ++ [(.operator p.operator, p.sign)])

/-- The expression that `e` completes as the last right operand: each waiting operator takes what
is done so far on its right. -/
def close (e : Phrase α .expression) (ps : List (Pending α)) : Phrase α .expression :=
  ps.foldl (fun e p => .binary p.left p.operator p.sign e) e

/-- Makes room for an operator of level `n` behind `e`: waiting operators that bind no looser
take `e` as their right operand. -/
def reduce (n : Nat) : Phrase α .expression → List (Pending α) →
    Phrase α .expression × List (Pending α)
  | e, [] => (e, [])
  | e, p :: ps =>
    if n ≤ p.operator.level then reduce n (.binary p.left p.operator p.sign e) ps else (e, p :: ps)

end Pending

namespace Branch

def map (f : α → β) (b : Branch α) : Branch β :=
  ⟨f b.word, b.condition.map f, b.body.map f, f b.elseWord⟩

/-- The tokens of a chain, which has the last `if` first. -/
def tokens : List (Branch α) → List (Token α)
  | [] => []
  | b :: bs => tokens bs ++ (.word .ifWord, b.word) ::
      (b.condition.tokens ++ (b.body.tokens ++ [(.word .elseWord, b.elseWord)]))

/-- The `if` that begins the chain, when `c` is the last one: an inner `if` is the rest of the
outer one and never an operand. -/
def close (c : Phrase α .conditional) (bs : List (Branch α)) : Phrase α .conditional :=
  bs.foldl (fun c b => .ifElse b.word b.condition b.body (.elseIf b.elseWord c)) c

end Branch

namespace Header

def map (f : α → β) (h : Header α) : Header β :=
  ⟨h.before.map f, f h.word, f h.name, h.parameters.map f, f h.arrow, h.type.map f⟩

def tokens (h : Header α) : List (Token α) :=
  h.before.tokens ++ (.word .fnWord, h.word) :: (.identifier, h.name) ::
    (h.parameters.tokens ++ (.mark .arrow, h.arrow) :: h.type.tokens)

/-- The functions read, once the body is. -/
def close (h : Header α) (body : Phrase α .block) : Phrase α .functions :=
  .moreFunctions h.before (.function h.word h.name h.parameters h.arrow h.type body)

end Header

namespace Context

/-- The tokens in front of the gap.  For a block the opening brace is not among them. -/
def tokens : {g : Gap} → Context α g → List (Token α)
  | _, parenthesized opening ps k =>
    k.tokens ++ (Pending.tokens ps ++ [(.mark .openParen, opening)])
  | _, firstArgument name opening ps k =>
    k.tokens ++ (Pending.tokens ps ++ [(.identifier, name), (.mark .openParen, opening)])
  | _, nextArgument name opening es comma ps k =>
    k.tokens ++ (Pending.tokens ps ++ (.identifier, name) :: (.mark .openParen, opening) ::
      (es.tokens ++ [(.mark .comma, comma)]))
  | _, ifCondition word bs ps k =>
    k.tokens ++ (Pending.tokens ps ++ (Branch.tokens bs ++ [(.word .ifWord, word)]))
  | _, whileCondition word ps k =>
    k.tokens ++ (Pending.tokens ps ++ [(.word .whileWord, word)])
  | _, letValue opening ss word name colon ty equals k =>
    k.tokens ++ (.mark .openBrace, opening) :: (ss.tokens ++
      (.word .letWord, word) :: (.identifier, name) :: (.mark .colon, colon) ::
        (ty.tokens ++ [(.mark .equals, equals)]))
  | _, assignedValue opening ss name equals k =>
    k.tokens ++ (.mark .openBrace, opening) :: (ss.tokens ++
      [(.identifier, name), (.mark .equals, equals)])
  | _, bare opening ss k => k.tokens ++ (.mark .openBrace, opening) :: ss.tokens
  | _, functionBody h => h.tokens
  | _, thenBody word condition bs ps k =>
    k.tokens ++ (Pending.tokens ps ++ (Branch.tokens bs ++
      (.word .ifWord, word) :: condition.tokens))
  | _, elseBody last bs ps k =>
    k.tokens ++ (Pending.tokens ps ++ Branch.tokens (last :: bs))
  | _, whileBody word condition ps k =>
    k.tokens ++ (Pending.tokens ps ++ (.word .whileWord, word) :: condition.tokens)

/-- The context with every note replaced. -/
def map (f : α → β) : {g : Gap} → Context α g → Context β g
  | _, parenthesized opening ps k => parenthesized (f opening) (ps.map (Pending.map f)) (k.map f)
  | _, firstArgument name opening ps k =>
    firstArgument (f name) (f opening) (ps.map (Pending.map f)) (k.map f)
  | _, nextArgument name opening es comma ps k =>
    nextArgument (f name) (f opening) (es.map f) (f comma) (ps.map (Pending.map f)) (k.map f)
  | _, ifCondition word bs ps k =>
    ifCondition (f word) (bs.map (Branch.map f)) (ps.map (Pending.map f)) (k.map f)
  | _, whileCondition word ps k => whileCondition (f word) (ps.map (Pending.map f)) (k.map f)
  | _, letValue opening ss word name colon ty equals k =>
    letValue (f opening) (ss.map f) (f word) (f name) (f colon) (ty.map f) (f equals) (k.map f)
  | _, assignedValue opening ss name equals k =>
    assignedValue (f opening) (ss.map f) (f name) (f equals) (k.map f)
  | _, bare opening ss k => bare (f opening) (ss.map f) (k.map f)
  | _, functionBody h => functionBody (h.map f)
  | _, thenBody word condition bs ps k =>
    thenBody (f word) (condition.map f) (bs.map (Branch.map f)) (ps.map (Pending.map f)) (k.map f)
  | _, elseBody last bs ps k =>
    elseBody (last.map f) (bs.map (Branch.map f)) (ps.map (Pending.map f)) (k.map f)
  | _, whileBody word condition ps k =>
    whileBody (f word) (condition.map f) (ps.map (Pending.map f)) (k.map f)

end Context

end RueSyntax
