import RueSyntax.Syntax.Context

/-!
# The parser: one step for each token

A state says what has been read and therefore what can come next; it holds the phrases read so
far, in the places that they will have.  `State.step` takes one token.  It answers `none` exactly
where no program goes on with that terminal, so nothing is ever taken back.

Operators are the only place with a choice.  Behind a complete operand, an operator first lets the
waiting operators that bind at least as tightly take that operand (`Pending.reduce`), and every
other token lets all of them take it (`Pending.close`).  Hence a tighter operator on the right
keeps its operands to itself, and operators of one level group to the left.

The notes on the tokens are carried along and never looked at.
-/

namespace RueSyntax

/-- The places at which a token can be expected. -/
inductive State (α : Type) where
  /-- Between functions: `fn` or the end. -/
  | top (fs : Phrase α .functions)
  /-- Behind `fn`: the name. -/
  | functionName (fs : Phrase α .functions) (word : α)
  /-- Behind the name of a function: the opening parenthesis. -/
  | parametersStart (fs : Phrase α .functions) (word name : α)
  /-- Behind that: the name of a parameter or the closing parenthesis. -/
  | firstParameter (fs : Phrase α .functions) (word name opening : α)
  /-- Behind a comma between parameters: a name. -/
  | nextParameter (fs : Phrase α .functions) (word name opening : α)
      (ps : Phrase α .parameterList) (comma : α)
  /-- Behind the name of a parameter: the colon. -/
  | parameterColon (fs : Phrase α .functions) (word name opening : α)
      (ps : Option (Phrase α .parameterList × α)) (parameter : α)
  /-- Behind that colon: a type. -/
  | parameterType (fs : Phrase α .functions) (word name opening : α)
      (ps : Option (Phrase α .parameterList × α)) (parameter colon : α)
  /-- Behind a parameter: a comma or the closing parenthesis. -/
  | parametersRest (fs : Phrase α .functions) (word name opening : α)
      (ps : Phrase α .parameterList)
  /-- Behind the parameters: the arrow. -/
  | returnArrow (fs : Phrase α .functions) (word name : α) (ps : Phrase α .parameters)
  /-- Behind the arrow: a type. -/
  | returnType (fs : Phrase α .functions) (word name : α) (ps : Phrase α .parameters) (arrow : α)
  /-- Behind the return type: the opening brace. -/
  | bodyStart (h : Header α)
  /-- In a block, behind its brace or a statement: a statement, a value or the closing brace. -/
  | item (opening : α) (ss : Phrase α .statements) (k : Context α .block)
  /-- Behind `let`: the name. -/
  | letName (opening : α) (ss : Phrase α .statements) (k : Context α .block) (word : α)
  /-- Behind the name: the colon. -/
  | letColon (opening : α) (ss : Phrase α .statements) (k : Context α .block) (word name : α)
  /-- Behind the colon: a type. -/
  | letType (opening : α) (ss : Phrase α .statements) (k : Context α .block)
      (word name colon : α)
  /-- Behind the type: the equals sign. -/
  | letEquals (opening : α) (ss : Phrase α .statements) (k : Context α .block)
      (word name colon : α) (ty : Phrase α .type)
  /-- Behind a name that begins a statement: also an equals sign. -/
  | itemName (opening : α) (ss : Phrase α .statements) (k : Context α .block) (name : α)
  /-- Where an operand begins. -/
  | operand (ps : List (Pending α)) (k : Context α .expression)
  /-- Behind a name that begins an operand: also an opening parenthesis. -/
  | operandName (name : α) (ps : List (Pending α)) (k : Context α .expression)
  /-- Behind an opening parenthesis that begins an operand: also the closing one. -/
  | operandParen (opening : α) (ps : List (Pending α)) (k : Context α .expression)
  /-- Behind the opening parenthesis of a call: also the closing one. -/
  | argumentsStart (name opening : α) (ps : List (Pending α)) (k : Context α .expression)
  /-- Behind an operand: an operator, or what ends the expression. -/
  | afterOperand (e : Phrase α .expression) (ps : List (Pending α)) (k : Context α .expression)
  /-- Behind the first block of an `if`: also an `else`. -/
  | afterThen (word : α) (condition : Phrase α .expression) (body : Phrase α .block)
      (bs : List (Branch α)) (ps : List (Pending α)) (k : Context α .expression)
  /-- Behind an `else`: a block or another `if`. -/
  | afterElse (last : Branch α) (bs : List (Branch α)) (ps : List (Pending α))
      (k : Context α .expression)

namespace State

variable {α : Type}

/-- A type in one token. -/
def typeOf : Terminal → α → Option (Phrase α .type)
  | .word .i32, a => some (.primitive .i32 a)
  | .word .i64, a => some (.primitive .i64 a)
  | .word .bool, a => some (.primitive .bool a)
  | .unitType, a => some (.unitType a)
  | _, _ => none

/-- The list of parameters with one more. -/
def addParameter (p : Phrase α .parameter) :
    Option (Phrase α .parameterList × α) → Phrase α .parameterList
  | none => .oneParameter p
  | some (ps, comma) => .moreParameters ps comma p

/-- The token that begins an operand. -/
def beginOperand (ps : List (Pending α)) (k : Context α .expression) :
    Terminal → α → Option (State α)
  | .identifier, a => some (.operandName a ps k)
  | .integer, a => some (.afterOperand (.integer a) ps k)
  | .word .trueWord, a => some (.afterOperand (.boolean true a) ps k)
  | .word .falseWord, a => some (.afterOperand (.boolean false a) ps k)
  | .word .ifWord, a => some (.operand [] (.ifCondition a [] ps k))
  | .word .whileWord, a => some (.operand [] (.whileCondition a ps k))
  | .mark .openParen, a => some (.operandParen a ps k)
  | _, _ => none

/-- The state behind the block `b`. -/
def closeBlock (b : Phrase α .block) : Context α .block → State α
  | .functionBody h => .top (h.close b)
  | .thenBody word condition bs ps k => .afterThen word condition b bs ps k
  | .elseBody last bs ps k =>
    .afterOperand (.ifExpression (Branch.close
      (.ifElse last.word last.condition last.body (.elseBlock last.elseWord b)) bs)) ps k
  | .whileBody word condition ps k => .afterOperand (.whileLoop word condition b) ps k

/-- The token that ends the whole expression `e` in its context. -/
def closeExpression (e : Phrase α .expression) (k : Context α .expression) (t : Terminal) (a : α) :
    Option (State α) :=
  match k with
  | .parenthesized opening ps k =>
    match t with
    | .mark .closeParen => some (.afterOperand (.parenthesized opening e a) ps k)
    | _ => none
  | .firstArgument name opening ps k =>
    match t with
    | .mark .comma => some (.operand [] (.nextArgument name opening (.oneArgument e) a ps k))
    | .mark .closeParen =>
      some (.afterOperand (.call name (.someArguments opening (.oneArgument e) a)) ps k)
    | _ => none
  | .nextArgument name opening es comma ps k =>
    match t with
    | .mark .comma =>
      some (.operand [] (.nextArgument name opening (.moreArguments es comma e) a ps k))
    | .mark .closeParen =>
      some (.afterOperand (.call name (.someArguments opening (.moreArguments es comma e) a)) ps k)
    | _ => none
  | .ifCondition word bs ps k =>
    match t with
    | .mark .openBrace => some (.item a .noStatements (.thenBody word e bs ps k))
    | _ => none
  | .whileCondition word ps k =>
    match t with
    | .mark .openBrace => some (.item a .noStatements (.whileBody word e ps k))
    | _ => none
  | .letValue opening ss word name colon ty equals k =>
    match t with
    | .mark .semicolon =>
      some (.item opening (.moreStatements ss (.letStatement word name colon ty equals e a)) k)
    | _ => none
  | .assignedValue opening ss name equals k =>
    match t with
    | .mark .semicolon =>
      some (.item opening (.moreStatements ss (.assignment name equals e a)) k)
    | _ => none
  | .bare opening ss k =>
    match t with
    | .mark .semicolon =>
      some (.item opening (.moreStatements ss (.expressionStatement e a)) k)
    | .mark .closeBrace => some (closeBlock (.blockWithValue opening ss e a) k)
    | _ => none

/-- The token behind the operand `e`. -/
def continueOperand (e : Phrase α .expression) (ps : List (Pending α))
    (k : Context α .expression) : Terminal → α → Option (State α)
  | .operator o, a =>
    let r := Pending.reduce o.level e ps
    some (.operand (⟨r.1, o, a⟩ :: r.2) k)
  | t, a => closeExpression (Pending.close e ps) k t a

/-- The state behind one more token, if a program can go on with it. -/
def step (s : State α) (t : Terminal) (a : α) : Option (State α) :=
  match s with
  | .top fs =>
    match t with
    | .word .fnWord => some (.functionName fs a)
    | _ => none
  | .functionName fs word =>
    match t with
    | .identifier => some (.parametersStart fs word a)
    | _ => none
  | .parametersStart fs word name =>
    match t with
    | .mark .openParen => some (.firstParameter fs word name a)
    | _ => none
  | .firstParameter fs word name opening =>
    match t with
    | .mark .closeParen => some (.returnArrow fs word name (.noParameters opening a))
    | .identifier => some (.parameterColon fs word name opening none a)
    | _ => none
  | .nextParameter fs word name opening ps comma =>
    match t with
    | .identifier => some (.parameterColon fs word name opening (some (ps, comma)) a)
    | _ => none
  | .parameterColon fs word name opening ps parameter =>
    match t with
    | .mark .colon => some (.parameterType fs word name opening ps parameter a)
    | _ => none
  | .parameterType fs word name opening ps parameter colon =>
    (typeOf t a).map fun ty =>
      .parametersRest fs word name opening (addParameter (.parameter parameter colon ty) ps)
  | .parametersRest fs word name opening ps =>
    match t with
    | .mark .comma => some (.nextParameter fs word name opening ps a)
    | .mark .closeParen => some (.returnArrow fs word name (.someParameters opening ps a))
    | _ => none
  | .returnArrow fs word name ps =>
    match t with
    | .mark .arrow => some (.returnType fs word name ps a)
    | _ => none
  | .returnType fs word name ps arrow =>
    (typeOf t a).map fun ty => .bodyStart ⟨fs, word, name, ps, arrow, ty⟩
  | .bodyStart h =>
    match t with
    | .mark .openBrace => some (.item a .noStatements (.functionBody h))
    | _ => none
  | .item opening ss k =>
    match t with
    | .mark .closeBrace => some (closeBlock (.block opening ss a) k)
    | .word .letWord => some (.letName opening ss k a)
    | .identifier => some (.itemName opening ss k a)
    | t => beginOperand [] (.bare opening ss k) t a
  | .letName opening ss k word =>
    match t with
    | .identifier => some (.letColon opening ss k word a)
    | _ => none
  | .letColon opening ss k word name =>
    match t with
    | .mark .colon => some (.letType opening ss k word name a)
    | _ => none
  | .letType opening ss k word name colon =>
    (typeOf t a).map fun ty => .letEquals opening ss k word name colon ty
  | .letEquals opening ss k word name colon ty =>
    match t with
    | .mark .equals => some (.operand [] (.letValue opening ss word name colon ty a k))
    | _ => none
  | .itemName opening ss k name =>
    match t with
    | .mark .equals => some (.operand [] (.assignedValue opening ss name a k))
    | .mark .openParen => some (.argumentsStart name a [] (.bare opening ss k))
    | t => continueOperand (.reference name) [] (.bare opening ss k) t a
  | .operand ps k => beginOperand ps k t a
  | .operandName name ps k =>
    match t with
    | .mark .openParen => some (.argumentsStart name a ps k)
    | t => continueOperand (.reference name) ps k t a
  | .operandParen opening ps k =>
    match t with
    | .mark .closeParen => some (.afterOperand (.unit opening a) ps k)
    | t => beginOperand [] (.parenthesized opening ps k) t a
  | .argumentsStart name opening ps k =>
    match t with
    | .mark .closeParen => some (.afterOperand (.call name (.noArguments opening a)) ps k)
    | t => beginOperand [] (.firstArgument name opening ps k) t a
  | .afterOperand e ps k => continueOperand e ps k t a
  | .afterThen word condition body bs ps k =>
    match t with
    | .word .elseWord => some (.afterElse ⟨word, condition, body, a⟩ bs ps k)
    | t => continueOperand (.ifExpression (Branch.close (.ifThen word condition body) bs)) ps k t a
  | .afterElse last bs ps k =>
    match t with
    | .mark .openBrace => some (.item a .noStatements (.elseBody last bs ps k))
    | .word .ifWord => some (.operand [] (.ifCondition a (last :: bs) ps k))
    | _ => none

/-- The functions read, in a state in which the text may end. -/
def finished : State α → Option (Phrase α .functions)
  | .top fs => some fs
  | _ => none

end State

end RueSyntax
