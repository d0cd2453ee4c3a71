import RueSyntax.Proofs.State.Leads

/-!
# Every state can be completed

The parser never takes a token in vain: from each state there is a run to the end of a program.
What is open is closed from the inside out, so the proof goes by recursion on the context
(`Context.completes`); each state then needs at most a few tokens of its own.
-/

namespace RueSyntax

namespace State

/-- Some tokens make a program of what has been read. -/
def Completable (s : State Bytes) : Prop := ∃ ts fs, s.Leads ts (.top fs)

theorem Completable.of_accepts {s s' : State Bytes} {t : Terminal} {w : Bytes}
    (h' : s'.Completable) (h : s.Accepts t w s') : s.Completable := by
  obtain ⟨ts, fs, hts⟩ := h'
  exact ⟨(t, w) :: ts, fs, .cons h hts⟩

/-- A mark that can stand next is a way to go on. -/
theorem Completable.of_mark {s s' : State Bytes} (m : Mark) (h' : s'.Completable)
    (h : s.step (.mark m) (Bytes.ofString m.spelling) = some s') : s.Completable :=
  h'.of_accepts (accepts_of_step h rfl nofun)

theorem Completable.of_unitType {s s' : State Bytes} (h' : s'.Completable)
    (h : s.step .unitType (Bytes.ofString "()") = some s') : s.Completable :=
  h'.of_accepts (accepts_of_step h rfl nofun)

/-- A name that is no keyword. -/
def someName : Bytes := Bytes.ofString "x"

theorem Completable.of_name {s s' : State Bytes} (h' : s'.Completable)
    (h : s.step .identifier someName = some s') : s.Completable := by
  refine h'.of_accepts ⟨h, ?_, ?_⟩
  · decide
  · intro _ k hk
    have hn : Keyword.ofBytes? someName = none := by decide
    rw [hn] at hk
    cases hk

/-- A number. -/
def someDigits : Bytes := Bytes.ofString "0"

theorem Completable.of_integer {s s' : State Bytes} (h' : s'.Completable)
    (h : s.step .integer someDigits = some s') : s.Completable :=
  h'.of_accepts (accepts_of_step h (by decide) nofun)

end State

open State

/-- What the gap of a context may hold leads to the end of a program: any expression, or any
beginning of a block. -/
def Context.Completes : {g : Gap} → Context Bytes g → Prop
  | .expression, k => ∀ e ps s, BehindOperand e ps k s → s.Completable
  | .block, k => ∀ opening ss, (State.item opening ss k).Completable

theorem Context.completes {g : Gap} (k : Context Bytes g) : k.Completes := by
  induction k with
  | parenthesized opening ps k ih =>
    intro e qs s h
    exact (ih _ ps _ (.operand _ ps k)).of_mark .closeParen (h.step_close rfl)
  | firstArgument name opening ps k ih =>
    intro e qs s h
    exact (ih _ ps _ (.operand _ ps k)).of_mark .closeParen (h.step_close rfl)
  | nextArgument name opening es comma ps k ih =>
    intro e qs s h
    exact (ih _ ps _ (.operand _ ps k)).of_mark .closeParen (h.step_close rfl)
  | ifCondition word bs ps k ih =>
    intro e qs s h
    -- an empty block for the condition
    have hthen := ih _ ps _ (.thenBody word (Pending.close e qs)
      (.block (Bytes.ofString "\x7b") .noStatements (Bytes.ofString "\x7d")) bs ps k)
    exact (hthen.of_mark .closeBrace rfl).of_mark .openBrace (h.step_close rfl)
  | whileCondition word ps k ih =>
    intro e qs s h
    have hbody := ih _ ps _ (.operand (.whileLoop word (Pending.close e qs)
      (.block (Bytes.ofString "\x7b") .noStatements (Bytes.ofString "\x7d"))) ps k)
    exact (hbody.of_mark .closeBrace rfl).of_mark .openBrace (h.step_close rfl)
  | letValue opening ss word name colon ty equals k ih =>
    intro e qs s h
    exact (ih opening _).of_mark .semicolon (h.step_close rfl)
  | assignedValue opening ss name equals k ih =>
    intro e qs s h
    exact (ih opening _).of_mark .semicolon (h.step_close rfl)
  | bare opening ss k ih =>
    intro e qs s h
    exact (ih opening _).of_mark .semicolon (h.step_close rfl)
  | functionBody h =>
    intro opening ss
    have htop : (State.top (h.close (.block opening ss (Bytes.ofString "\x7d")))).Completable :=
      ⟨[], _, .nil _⟩
    exact htop.of_mark .closeBrace rfl
  | thenBody word condition bs ps k ih =>
    intro opening ss
    have hthen := ih _ ps _
      (.thenBody word condition (.block opening ss (Bytes.ofString "\x7d")) bs ps k)
    exact hthen.of_mark .closeBrace rfl
  | elseBody last bs ps k ih =>
    intro opening ss
    exact (ih _ ps _ (.operand _ ps k)).of_mark .closeBrace rfl
  | whileBody word condition ps k ih =>
    intro opening ss
    exact (ih _ ps _ (.operand _ ps k)).of_mark .closeBrace rfl

namespace State

/-! ### In the head of a function -/

theorem completable_bodyStart (h : Header Bytes) : (State.bodyStart h).Completable :=
  ((Context.functionBody h).completes _ _).of_mark .openBrace rfl

theorem completable_returnType (fs : Phrase Bytes .functions) (word name : Bytes)
    (ps : Phrase Bytes .parameters) (arrow : Bytes) :
    (State.returnType fs word name ps arrow).Completable :=
  (completable_bodyStart _).of_unitType rfl

theorem completable_returnArrow (fs : Phrase Bytes .functions) (word name : Bytes)
    (ps : Phrase Bytes .parameters) : (State.returnArrow fs word name ps).Completable :=
  (completable_returnType fs word name ps _).of_mark .arrow rfl

theorem completable_parametersRest (fs : Phrase Bytes .functions) (word name opening : Bytes)
    (ps : Phrase Bytes .parameterList) :
    (State.parametersRest fs word name opening ps).Completable :=
  (completable_returnArrow fs word name _).of_mark .closeParen rfl

theorem completable_parameterType (fs : Phrase Bytes .functions) (word name opening : Bytes)
    (ps : Option (Phrase Bytes .parameterList × Bytes)) (parameter colon : Bytes) :
    (State.parameterType fs word name opening ps parameter colon).Completable :=
  (completable_parametersRest fs word name opening _).of_unitType rfl

theorem completable_parameterColon (fs : Phrase Bytes .functions) (word name opening : Bytes)
    (ps : Option (Phrase Bytes .parameterList × Bytes)) (parameter : Bytes) :
    (State.parameterColon fs word name opening ps parameter).Completable :=
  (completable_parameterType fs word name opening ps parameter _).of_mark .colon rfl

theorem completable_firstParameter (fs : Phrase Bytes .functions) (word name opening : Bytes) :
    (State.firstParameter fs word name opening).Completable :=
  (completable_returnArrow fs word name _).of_mark .closeParen rfl

theorem completable_parametersStart (fs : Phrase Bytes .functions) (word name : Bytes) :
    (State.parametersStart fs word name).Completable :=
  (completable_firstParameter fs word name _).of_mark .openParen rfl

/-! ### In a block -/

theorem completable_afterOperand (e : Phrase Bytes .expression) (ps : List (Pending Bytes))
    (k : Context Bytes .expression) : (State.afterOperand e ps k).Completable :=
  k.completes e ps _ (.operand e ps k)

theorem completable_operand (ps : List (Pending Bytes)) (k : Context Bytes .expression) :
    (State.operand ps k).Completable :=
  (completable_afterOperand _ ps k).of_integer rfl

theorem completable_letEquals (opening : Bytes) (ss : Phrase Bytes .statements)
    (k : Context Bytes .block) (word name colon : Bytes) (ty : Phrase Bytes .type) :
    (State.letEquals opening ss k word name colon ty).Completable :=
  (completable_operand [] _).of_mark .equals rfl

theorem completable_letType (opening : Bytes) (ss : Phrase Bytes .statements)
    (k : Context Bytes .block) (word name colon : Bytes) :
    (State.letType opening ss k word name colon).Completable :=
  (completable_letEquals opening ss k word name colon _).of_unitType rfl

theorem completable_letColon (opening : Bytes) (ss : Phrase Bytes .statements)
    (k : Context Bytes .block) (word name : Bytes) :
    (State.letColon opening ss k word name).Completable :=
  (completable_letType opening ss k word name _).of_mark .colon rfl

/-- From every state there is a run to the end of a program. -/
theorem completable (s : State Bytes) : s.Completable := by
  cases s with
  | top fs => exact ⟨[], fs, .nil _⟩
  | functionName fs word => exact (completable_parametersStart fs word _).of_name rfl
  | parametersStart fs word name => exact completable_parametersStart fs word name
  | firstParameter fs word name opening => exact completable_firstParameter fs word name opening
  | nextParameter fs word name opening ps comma =>
    exact (completable_parameterColon fs word name opening (some (ps, comma)) _).of_name rfl
  | parameterColon fs word name opening ps parameter =>
    exact completable_parameterColon fs word name opening ps parameter
  | parameterType fs word name opening ps parameter colon =>
    exact completable_parameterType fs word name opening ps parameter colon
  | parametersRest fs word name opening ps =>
    exact completable_parametersRest fs word name opening ps
  | returnArrow fs word name ps => exact completable_returnArrow fs word name ps
  | returnType fs word name ps arrow => exact completable_returnType fs word name ps arrow
  | bodyStart h => exact completable_bodyStart h
  | item opening ss k => exact k.completes opening ss
  | letName opening ss k word => exact (completable_letColon opening ss k word _).of_name rfl
  | letColon opening ss k word name => exact completable_letColon opening ss k word name
  | letType opening ss k word name colon => exact completable_letType opening ss k word name colon
  | letEquals opening ss k word name colon ty =>
    exact completable_letEquals opening ss k word name colon ty
  | itemName opening ss k name =>
    exact (Context.bare opening ss k).completes _ _ _ (.name (.item opening ss k))
  | operand ps k => exact completable_operand ps k
  | operandName name ps k => exact k.completes _ ps _ (.name (.operand ps k))
  | operandParen opening ps k =>
    have h := completable_afterOperand (.integer someDigits) [] (.parenthesized opening ps k)
    exact h.of_integer rfl
  | argumentsStart name opening ps k =>
    exact (completable_afterOperand _ ps k).of_mark .closeParen rfl
  | afterOperand e ps k => exact completable_afterOperand e ps k
  | afterThen word condition body bs ps k =>
    exact k.completes _ ps _ (.thenBody word condition body bs ps k)
  | afterElse last bs ps k =>
    exact ((Context.elseBody last bs ps k).completes _ _).of_mark .openBrace rfl

end State

end RueSyntax
