import RueSyntax.Proofs.State.Map
import RueSyntax.Proofs.State.Tokens

/-!
# A file under functions that are already read

Between functions the parser remembers nothing but the functions themselves.  `s.under gs g` is the
state `s` of a parser that had read the functions `gs` before it began; the note on the first token
behind them is changed by `g`, because that token brings what stands between the two parts.
`step_under` says that both parsers go on alike.
-/

namespace RueSyntax

variable {α β : Type}

namespace Phrase

/-- Whether there are no functions. -/
def isNoFunctions : {c : Category} → Phrase α c → Bool
  | _, noFunctions => true
  | _, _ => false

/-- The note on the first token of the function behind `fs`, which `g` changes if it is the first
of all. -/
def headNote (fs : Phrase α .functions) (g : α → α) (a : α) : α :=
  if fs.isNoFunctions then g a else a

/-- The functions `gs` and behind them these, with the note on the first token changed. -/
def under : {c : Category} → Phrase α c → Phrase α .functions → (α → α) → Phrase α c
  | _, noFunctions, gs, _ => gs
  | _, moreFunctions fs (function word name ps arrow ty body), gs, g =>
    moreFunctions (fs.under gs g) (function (fs.headNote g word) name ps arrow ty body)
  | _, p, _, _ => p

theorem isNoFunctions_map (f : α → β) {c : Category} (p : Phrase α c) :
    (p.map f).isNoFunctions = p.isNoFunctions := by
  cases p <;> rfl

end Phrase

def Header.under (gs : Phrase α .functions) (g : α → α) (h : Header α) : Header α :=
  ⟨h.before.under gs g, h.before.headNote g h.word, h.name, h.parameters, h.arrow, h.type⟩

/-- What is open around a gap, under the functions `gs`. -/
def Context.under (gs : Phrase α .functions) (g : α → α) : {p : Gap} → Context α p → Context α p
  | _, parenthesized opening ps k => parenthesized opening ps (k.under gs g)
  | _, firstArgument name opening ps k => firstArgument name opening ps (k.under gs g)
  | _, nextArgument name opening es comma ps k =>
    nextArgument name opening es comma ps (k.under gs g)
  | _, ifCondition word bs ps k => ifCondition word bs ps (k.under gs g)
  | _, whileCondition word ps k => whileCondition word ps (k.under gs g)
  | _, letValue opening ss word name colon ty equals k =>
    letValue opening ss word name colon ty equals (k.under gs g)
  | _, assignedValue opening ss name equals k =>
    assignedValue opening ss name equals (k.under gs g)
  | _, bare opening ss k => bare opening ss (k.under gs g)
  | _, functionBody h => functionBody (h.under gs g)
  | _, thenBody word condition bs ps k => thenBody word condition bs ps (k.under gs g)
  | _, elseBody last bs ps k => elseBody last bs ps (k.under gs g)
  | _, whileBody word condition ps k => whileBody word condition ps (k.under gs g)

namespace State

/-- Nothing has been read. -/
def isFresh : State α → Bool
  | top fs => fs.isNoFunctions
  | _ => false

/-- The state under the functions `gs`. -/
def under (gs : Phrase α .functions) (g : α → α) : State α → State α
  | top fs => top (fs.under gs g)
  | functionName fs word => functionName (fs.under gs g) (fs.headNote g word)
  | parametersStart fs word name => parametersStart (fs.under gs g) (fs.headNote g word) name
  | firstParameter fs word name opening =>
    firstParameter (fs.under gs g) (fs.headNote g word) name opening
  | nextParameter fs word name opening ps comma =>
    nextParameter (fs.under gs g) (fs.headNote g word) name opening ps comma
  | parameterColon fs word name opening ps parameter =>
    parameterColon (fs.under gs g) (fs.headNote g word) name opening ps parameter
  | parameterType fs word name opening ps parameter colon =>
    parameterType (fs.under gs g) (fs.headNote g word) name opening ps parameter colon
  | parametersRest fs word name opening ps =>
    parametersRest (fs.under gs g) (fs.headNote g word) name opening ps
  | returnArrow fs word name ps => returnArrow (fs.under gs g) (fs.headNote g word) name ps
  | returnType fs word name ps arrow =>
    returnType (fs.under gs g) (fs.headNote g word) name ps arrow
  | bodyStart h => bodyStart (h.under gs g)
  | item opening ss k => item opening ss (k.under gs g)
  | letName opening ss k word => letName opening ss (k.under gs g) word
  | letColon opening ss k word name => letColon opening ss (k.under gs g) word name
  | letType opening ss k word name colon => letType opening ss (k.under gs g) word name colon
  | letEquals opening ss k word name colon ty =>
    letEquals opening ss (k.under gs g) word name colon ty
  | itemName opening ss k name => itemName opening ss (k.under gs g) name
  | operand ps k => operand ps (k.under gs g)
  | operandName name ps k => operandName name ps (k.under gs g)
  | operandParen opening ps k => operandParen opening ps (k.under gs g)
  | argumentsStart name opening ps k => argumentsStart name opening ps (k.under gs g)
  | afterOperand e ps k => afterOperand e ps (k.under gs g)
  | afterThen word condition body bs ps k =>
    afterThen word condition body bs ps (k.under gs g)
  | afterElse last bs ps k => afterElse last bs ps (k.under gs g)

/-- Behind a token, something has been read. -/
theorem isFresh_of_step {s s' : State α} {t : Terminal} {a : α} (h : s.step t a = some s') :
    s'.isFresh = false := by
  cases s' with
  | top fs =>
    cases fs with
    | noFunctions =>
      have htok : [] = s.tokens ++ [(t, a)] := tokens_step h
      exact (List.append_ne_nil_of_right_ne_nil _ (List.cons_ne_nil _ _) htok.symm).elim
    | moreFunctions => rfl
  | _ => rfl

theorem isFresh_map (f : α → β) (s : State α) : (s.map f).isFresh = s.isFresh := by
  cases s with
  | top fs => exact fs.isNoFunctions_map f
  | _ => rfl

/-! ### The parts of a step -/

section

variable (gs : Phrase α .functions) (g : α → α)

theorem beginOperand_under (ps : List (Pending α)) (k : Context α .expression) (t : Terminal)
    (a : α) :
    beginOperand ps (k.under gs g) t a = (beginOperand ps k t a).map (State.under gs g) := by
  unfold beginOperand
  split <;> rfl

theorem closeBlock_under (b : Phrase α .block) (k : Context α .block) :
    closeBlock b (k.under gs g) = (closeBlock b k).under gs g := by
  cases k <;> rfl

theorem closeExpression_under (e : Phrase α .expression) (k : Context α .expression) (t : Terminal)
    (a : α) :
    closeExpression e (k.under gs g) t a = (closeExpression e k t a).map (State.under gs g) := by
  cases k with
  | bare opening ss k =>
    simp only [Context.under, closeExpression]
    split
    · rfl
    · exact congrArg some (closeBlock_under gs g (.blockWithValue opening ss e a) k)
    · rfl
  | _ =>
    simp only [Context.under, closeExpression]
    split <;> rfl

theorem continueOperand_under (e : Phrase α .expression) (ps : List (Pending α))
    (k : Context α .expression) (t : Terminal) (a : α) :
    continueOperand e ps (k.under gs g) t a =
      (continueOperand e ps k t a).map (State.under gs g) := by
  unfold continueOperand
  split
  · rfl
  · exact closeExpression_under gs g (Pending.close e ps) k _ a

/-! ### Steps -/

/-- A token is taken under the functions `gs` as it is taken without them. -/
theorem step_under (s : State α) (t : Terminal) (a : α) :
    (s.under gs g).step t (if s.isFresh then g a else a) =
      (s.step t a).map (State.under gs g) := by
  cases s with
  | top fs =>
    simp only [under, step, isFresh]
    split <;> rfl
  | parameterType fs word name opening ps parameter colon =>
    simp only [under, step, Option.map_map]
    rfl
  | returnType fs word name ps arrow =>
    simp only [under, step, Option.map_map]
    rfl
  | letType opening ss k word name colon =>
    simp only [under, step, Option.map_map]
    rfl
  | item opening ss k =>
    simp only [under, step]
    split
    · exact congrArg some (closeBlock_under gs g (.block opening ss a) k)
    · rfl
    · rfl
    · exact beginOperand_under gs g [] (.bare opening ss k) t a
  | operand ps k => exact beginOperand_under gs g ps k t a
  | operandParen opening ps k =>
    simp only [under, step]
    split
    · rfl
    · exact beginOperand_under gs g [] (.parenthesized opening ps k) t a
  | argumentsStart name opening ps k =>
    simp only [under, step]
    split
    · rfl
    · exact beginOperand_under gs g [] (.firstArgument name opening ps k) t a
  | itemName opening ss k name =>
    simp only [under, step]
    split
    · rfl
    · rfl
    · exact continueOperand_under gs g (.reference name) [] (.bare opening ss k) t a
  | operandName name ps k =>
    simp only [under, step]
    split
    · rfl
    · exact continueOperand_under gs g (.reference name) ps k t a
  | afterOperand e ps k => exact continueOperand_under gs g e ps k t a
  | afterThen word condition body bs ps k =>
    simp only [under, step]
    split
    · rfl
    · exact continueOperand_under gs g
        (.ifExpression (Branch.close (.ifThen word condition body) bs)) ps k t a
  | _ =>
    simp only [under, step]
    split <;> rfl

end

end State

end RueSyntax
