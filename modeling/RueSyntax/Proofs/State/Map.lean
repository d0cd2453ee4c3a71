import RueSyntax.Parser.State

/-!
# The parser never looks at notes

`State.map f` replaces every note in a state.  `step_map` says that replacing notes before a step
is the same as replacing them behind it; in particular a token is refused before iff it is refused
behind.  So what is shown of tokens with one kind of note holds of tokens with any other.
-/

namespace RueSyntax

variable {α β : Type}

/-! ### Waiting operators and branches -/

theorem Pending.close_map (f : α → β) (e : Phrase α .expression) (ps : List (Pending α)) :
    Pending.close (e.map f) (ps.map (Pending.map f)) = (Pending.close e ps).map f := by
  induction ps generalizing e with
  | nil => rfl
  | cons p ps ih => exact ih (.binary p.left p.operator p.sign e)

theorem Pending.reduce_map (f : α → β) (n : Nat) (e : Phrase α .expression)
    (ps : List (Pending α)) :
    Pending.reduce n (e.map f) (ps.map (Pending.map f)) =
      ((Pending.reduce n e ps).1.map f, (Pending.reduce n e ps).2.map (Pending.map f)) := by
  induction ps generalizing e with
  | nil => rfl
  | cons p ps ih =>
    by_cases h : n ≤ p.operator.level
    · have h' : n ≤ (p.map f).operator.level := h
      rw [List.map_cons, Pending.reduce, Pending.reduce, if_pos h, if_pos h']
      exact ih (.binary p.left p.operator p.sign e)
    · have h' : ¬ n ≤ (p.map f).operator.level := h
      rw [List.map_cons, Pending.reduce, Pending.reduce, if_neg h, if_neg h']
      rfl

theorem Branch.close_map (f : α → β) (c : Phrase α .conditional) (bs : List (Branch α)) :
    Branch.close (c.map f) (bs.map (Branch.map f)) = (Branch.close c bs).map f := by
  induction bs generalizing c with
  | nil => rfl
  | cons b bs ih => exact ih (.ifElse b.word b.condition b.body (.elseIf b.elseWord c))

namespace State

/-- The state with every note replaced. -/
def map (f : α → β) : State α → State β
  | top fs => top (fs.map f)
  | functionName fs word => functionName (fs.map f) (f word)
  | parametersStart fs word name => parametersStart (fs.map f) (f word) (f name)
  | firstParameter fs word name opening =>
    firstParameter (fs.map f) (f word) (f name) (f opening)
  | nextParameter fs word name opening ps comma =>
    nextParameter (fs.map f) (f word) (f name) (f opening) (ps.map f) (f comma)
  | parameterColon fs word name opening ps parameter =>
    parameterColon (fs.map f) (f word) (f name) (f opening)
      (ps.map fun p => (p.1.map f, f p.2)) (f parameter)
  | parameterType fs word name opening ps parameter colon =>
    parameterType (fs.map f) (f word) (f name) (f opening)
      (ps.map fun p => (p.1.map f, f p.2)) (f parameter) (f colon)
  | parametersRest fs word name opening ps =>
    parametersRest (fs.map f) (f word) (f name) (f opening) (ps.map f)
  | returnArrow fs word name ps => returnArrow (fs.map f) (f word) (f name) (ps.map f)
  | returnType fs word name ps arrow =>
    returnType (fs.map f) (f word) (f name) (ps.map f) (f arrow)
  | bodyStart h => bodyStart (h.map f)
  | item opening ss k => item (f opening) (ss.map f) (k.map f)
  | letName opening ss k word => letName (f opening) (ss.map f) (k.map f) (f word)
  | letColon opening ss k word name =>
    letColon (f opening) (ss.map f) (k.map f) (f word) (f name)
  | letType opening ss k word name colon =>
    letType (f opening) (ss.map f) (k.map f) (f word) (f name) (f colon)
  | letEquals opening ss k word name colon ty =>
    letEquals (f opening) (ss.map f) (k.map f) (f word) (f name) (f colon) (ty.map f)
  | itemName opening ss k name => itemName (f opening) (ss.map f) (k.map f) (f name)
  | operand ps k => operand (ps.map (Pending.map f)) (k.map f)
  | operandName name ps k => operandName (f name) (ps.map (Pending.map f)) (k.map f)
  | operandParen opening ps k => operandParen (f opening) (ps.map (Pending.map f)) (k.map f)
  | argumentsStart name opening ps k =>
    argumentsStart (f name) (f opening) (ps.map (Pending.map f)) (k.map f)
  | afterOperand e ps k => afterOperand (e.map f) (ps.map (Pending.map f)) (k.map f)
  | afterThen word condition body bs ps k =>
    afterThen (f word) (condition.map f) (body.map f) (bs.map (Branch.map f))
      (ps.map (Pending.map f)) (k.map f)
  | afterElse last bs ps k =>
    afterElse (last.map f) (bs.map (Branch.map f)) (ps.map (Pending.map f)) (k.map f)

/-! ### The parts of a step -/

theorem typeOf_map (f : α → β) (t : Terminal) (a : α) :
    typeOf t (f a) = (typeOf t a).map (Phrase.map f) := by
  unfold typeOf
  split <;> rfl

theorem addParameter_map (f : α → β) (p : Phrase α .parameter)
    (ps : Option (Phrase α .parameterList × α)) :
    addParameter (p.map f) (ps.map fun q => (q.1.map f, f q.2)) = (addParameter p ps).map f := by
  cases ps with
  | none => rfl
  | some q => rfl

theorem beginOperand_map (f : α → β) (ps : List (Pending α)) (k : Context α .expression)
    (t : Terminal) (a : α) :
    beginOperand (ps.map (Pending.map f)) (k.map f) t (f a) =
      (beginOperand ps k t a).map (State.map f) := by
  unfold beginOperand
  split <;> rfl

theorem closeBlock_map (f : α → β) (b : Phrase α .block) (k : Context α .block) :
    closeBlock (b.map f) (k.map f) = (closeBlock b k).map f := by
  cases k with
  | functionBody h => rfl
  | thenBody word condition bs ps k => rfl
  | elseBody last bs ps k =>
    have h := Branch.close_map f
      (.ifElse last.word last.condition last.body (.elseBlock last.elseWord b)) bs
    exact congrArg (fun c => afterOperand (.ifExpression c) (ps.map (Pending.map f)) (k.map f)) h
  | whileBody word condition ps k => rfl

theorem closeExpression_map (f : α → β) (e : Phrase α .expression) (k : Context α .expression)
    (t : Terminal) (a : α) :
    closeExpression (e.map f) (k.map f) t (f a) = (closeExpression e k t a).map (State.map f) := by
  cases k with
  | bare opening ss k =>
    simp only [Context.map, closeExpression]
    split
    · rfl
    · exact congrArg some (closeBlock_map f (.blockWithValue opening ss e a) k)
    · rfl
  | _ =>
    simp only [Context.map, closeExpression]
    split <;> rfl

theorem continueOperand_map (f : α → β) (e : Phrase α .expression) (ps : List (Pending α))
    (k : Context α .expression) (t : Terminal) (a : α) :
    continueOperand (e.map f) (ps.map (Pending.map f)) (k.map f) t (f a) =
      (continueOperand e ps k t a).map (State.map f) := by
  unfold continueOperand
  split
  · simp only [Pending.reduce_map]
    rfl
  · rw [Pending.close_map, closeExpression_map]

/-! ### Steps -/

theorem step_map (f : α → β) (s : State α) (t : Terminal) (a : α) :
    (s.map f).step t (f a) = (s.step t a).map (State.map f) := by
  cases s with
  | parameterType fs word name opening ps parameter colon =>
    simp only [map, step, typeOf_map, Option.map_map]
    congr 1
    funext ty
    simp only [Function.comp_apply, map, ← addParameter_map]
    rfl
  | returnType fs word name ps arrow =>
    simp only [map, step, typeOf_map, Option.map_map]
    rfl
  | letType opening ss k word name colon =>
    simp only [map, step, typeOf_map, Option.map_map]
    rfl
  | item opening ss k =>
    simp only [map, step]
    split
    · exact congrArg some (closeBlock_map f (.block opening ss a) k)
    · rfl
    · rfl
    · exact beginOperand_map f [] (.bare opening ss k) t a
  | operand ps k => exact beginOperand_map f ps k t a
  | operandParen opening ps k =>
    simp only [map, step]
    split
    · rfl
    · exact beginOperand_map f [] (.parenthesized opening ps k) t a
  | argumentsStart name opening ps k =>
    simp only [map, step]
    split
    · rfl
    · exact beginOperand_map f [] (.firstArgument name opening ps k) t a
  | itemName opening ss k name =>
    simp only [map, step]
    split
    · rfl
    · rfl
    · exact continueOperand_map f (.reference name) [] (.bare opening ss k) t a
  | operandName name ps k =>
    simp only [map, step]
    split
    · rfl
    · exact continueOperand_map f (.reference name) ps k t a
  | afterOperand e ps k => exact continueOperand_map f e ps k t a
  | afterThen word condition body bs ps k =>
    simp only [map, step]
    split
    · rfl
    · have h := Branch.close_map f (.ifThen word condition body) bs
      have h' := continueOperand_map f
        (.ifExpression (Branch.close (.ifThen word condition body) bs)) ps k t a
      simp only [Phrase.map] at h h'
      rw [h, h']
  | _ =>
    simp only [map, step]
    split <;> rfl

/-- Whether a token is refused does not depend on notes. -/
theorem step_map_eq_none_iff (f : α → β) (s : State α) (t : Terminal) (a : α) :
    (s.map f).step t (f a) = none ↔ s.step t a = none := by
  rw [step_map, Option.map_eq_none_iff]

end State

end RueSyntax
