import RueSyntax.Parser.State

/-!
# What a step can do

Twenty-four kinds of state differ in what they keep, but most of them behave alike at an operand.
`BeforeOperand ps k s` says that an operand may begin in `s`, `BehindOperand e ps k s` that `s`
stands behind the operand `e`; in both, `ps` are the operators that wait and `k` is what is open
around the expression.  `Transition` lists the steps in these terms, and `step_eq_some_iff` says
that the list is complete and right.
-/

namespace RueSyntax

namespace State

variable {α : Type}

/-- An operand may begin in the state. -/
inductive BeforeOperand : List (Pending α) → Context α .expression → State α → Prop
  | item (opening : α) (ss : Phrase α .statements) (k : Context α .block) :
    BeforeOperand [] (.bare opening ss k) (.item opening ss k)
  | operand (ps : List (Pending α)) (k : Context α .expression) :
    BeforeOperand ps k (.operand ps k)
  | operandParen (opening : α) (ps : List (Pending α)) (k : Context α .expression) :
    BeforeOperand [] (.parenthesized opening ps k) (.operandParen opening ps k)
  | argumentsStart (name opening : α) (ps : List (Pending α)) (k : Context α .expression) :
    BeforeOperand [] (.firstArgument name opening ps k) (.argumentsStart name opening ps k)

/-- The state stands behind a name that is an operand or the callee of one. -/
inductive BehindName (name : α) : List (Pending α) → Context α .expression → State α → Prop
  | item (opening : α) (ss : Phrase α .statements) (k : Context α .block) :
    BehindName name [] (.bare opening ss k) (.itemName opening ss k name)
  | operand (ps : List (Pending α)) (k : Context α .expression) :
    BehindName name ps k (.operandName name ps k)

/-- The state stands behind the operand `e`, which may be over. -/
inductive BehindOperand :
    Phrase α .expression → List (Pending α) → Context α .expression → State α → Prop
  | name {name : α} {ps : List (Pending α)} {k : Context α .expression} {s : State α}
    (h : BehindName name ps k s) : BehindOperand (.reference name) ps k s
  | operand (e : Phrase α .expression) (ps : List (Pending α)) (k : Context α .expression) :
    BehindOperand e ps k (.afterOperand e ps k)
  | thenBody (word : α) (condition : Phrase α .expression) (body : Phrase α .block)
    (bs : List (Branch α)) (ps : List (Pending α)) (k : Context α .expression) :
    BehindOperand (.ifExpression (Branch.close (.ifThen word condition body) bs)) ps k
      (.afterThen word condition body bs ps k)

/-- The steps. -/
inductive Transition : State α → Terminal → α → State α → Prop
  | functionWord {fs a} : Transition (.top fs) (.word .fnWord) a (.functionName fs a)
  | functionName {fs word a} :
    Transition (.functionName fs word) .identifier a (.parametersStart fs word a)
  | parametersStart {fs word name a} :
    Transition (.parametersStart fs word name) (.mark .openParen) a
      (.firstParameter fs word name a)
  | noParameters {fs word name opening a} :
    Transition (.firstParameter fs word name opening) (.mark .closeParen) a
      (.returnArrow fs word name (.noParameters opening a))
  | firstParameter {fs word name opening a} :
    Transition (.firstParameter fs word name opening) .identifier a
      (.parameterColon fs word name opening none a)
  | nextParameter {fs word name opening ps comma a} :
    Transition (.nextParameter fs word name opening ps comma) .identifier a
      (.parameterColon fs word name opening (some (ps, comma)) a)
  | parameterColon {fs word name opening ps parameter a} :
    Transition (.parameterColon fs word name opening ps parameter) (.mark .colon) a
      (.parameterType fs word name opening ps parameter a)
  | parameterType {fs word name opening ps parameter colon t a ty} (h : typeOf t a = some ty) :
    Transition (.parameterType fs word name opening ps parameter colon) t a
      (.parametersRest fs word name opening (addParameter (.parameter parameter colon ty) ps))
  | parametersComma {fs word name opening ps a} :
    Transition (.parametersRest fs word name opening ps) (.mark .comma) a
      (.nextParameter fs word name opening ps a)
  | someParameters {fs word name opening ps a} :
    Transition (.parametersRest fs word name opening ps) (.mark .closeParen) a
      (.returnArrow fs word name (.someParameters opening ps a))
  | arrow {fs word name ps a} :
    Transition (.returnArrow fs word name ps) (.mark .arrow) a (.returnType fs word name ps a)
  | returnType {fs word name ps arrow t a ty} (h : typeOf t a = some ty) :
    Transition (.returnType fs word name ps arrow) t a (.bodyStart ⟨fs, word, name, ps, arrow, ty⟩)
  | functionBody {h a} :
    Transition (.bodyStart h) (.mark .openBrace) a (.item a .noStatements (.functionBody h))
  | block {opening ss k a} :
    Transition (.item opening ss k) (.mark .closeBrace) a (closeBlock (.block opening ss a) k)
  | letWord {opening ss k a} :
    Transition (.item opening ss k) (.word .letWord) a (.letName opening ss k a)
  | letName {opening ss k word a} :
    Transition (.letName opening ss k word) .identifier a (.letColon opening ss k word a)
  | letColon {opening ss k word name a} :
    Transition (.letColon opening ss k word name) (.mark .colon) a
      (.letType opening ss k word name a)
  | letType {opening ss k word name colon t a ty} (h : typeOf t a = some ty) :
    Transition (.letType opening ss k word name colon) t a
      (.letEquals opening ss k word name colon ty)
  | letEquals {opening ss k word name colon ty a} :
    Transition (.letEquals opening ss k word name colon ty) (.mark .equals) a
      (.operand [] (.letValue opening ss word name colon ty a k))
  | assignment {opening ss k name a} :
    Transition (.itemName opening ss k name) (.mark .equals) a
      (.operand [] (.assignedValue opening ss name a k))
  | itemName {opening ss k a} :
    Transition (.item opening ss k) .identifier a (.itemName opening ss k a)
  | call {name ps k s a} (h : BehindName name ps k s) :
    Transition s (.mark .openParen) a (.argumentsStart name a ps k)
  | operand {ps k s t a s'} (h : BeforeOperand ps k s)
    (ht : t = .identifier → ∀ opening ss k', s ≠ .item opening ss k')
    (h' : beginOperand ps k t a = some s') : Transition s t a s'
  | unit {opening ps k a} :
    Transition (.operandParen opening ps k) (.mark .closeParen) a
      (.afterOperand (.unit opening a) ps k)
  | noArguments {name opening ps k a} :
    Transition (.argumentsStart name opening ps k) (.mark .closeParen) a
      (.afterOperand (.call name (.noArguments opening a)) ps k)
  | elseWord {word condition body bs ps k a} :
    Transition (.afterThen word condition body bs ps k) (.word .elseWord) a
      (.afterElse ⟨word, condition, body, a⟩ bs ps k)
  | elseBlock {last bs ps k a} :
    Transition (.afterElse last bs ps k) (.mark .openBrace) a
      (.item a .noStatements (.elseBody last bs ps k))
  | elseIf {last bs ps k a} :
    Transition (.afterElse last bs ps k) (.word .ifWord) a
      (.operand [] (.ifCondition a (last :: bs) ps k))
  | operator {e ps k s o a} (h : BehindOperand e ps k s) :
    Transition s (.operator o) a
      (.operand (⟨(Pending.reduce o.level e ps).1, o, a⟩ :: (Pending.reduce o.level e ps).2) k)
  | close {e ps k s t a s'} (h : BehindOperand e ps k s)
    (h' : closeExpression (Pending.close e ps) k t a = some s') : Transition s t a s'

/-! ### The tokens at the two ends of an expression -/

/-- An operand begins with one of seven terminals. -/
theorem beginOperand_terminal {ps : List (Pending α)} {k : Context α .expression} {t : Terminal}
    {a : α} {s : State α} (h : beginOperand ps k t a = some s) :
    t ∈ [Terminal.identifier, .integer, .word .trueWord, .word .falseWord, .word .ifWord,
      .word .whileWord, .mark .openParen] := by
  unfold beginOperand at h
  split at h <;> first | (cases h; done) | simp

/-- Only five marks can end an expression. -/
theorem closeExpression_mark {e : Phrase α .expression} {k : Context α .expression} {t : Terminal}
    {a : α} {s : State α} (h : closeExpression e k t a = some s) :
    t ∈ [Terminal.mark .closeParen, .mark .comma, .mark .openBrace, .mark .semicolon,
      .mark .closeBrace] := by
  unfold closeExpression at h
  split at h <;> split at h <;> first | (cases h; done) | simp

/-! ### The list is complete -/

theorem transition_of_typeOf {t : Terminal} {a : α} {s s' : State α} {g : Phrase α .type → State α}
    (hg : ∀ ty, typeOf t a = some ty → Transition s t a (g ty))
    (h : (typeOf t a).map g = some s') : Transition s t a s' := by
  obtain ⟨ty, hty, rfl⟩ := Option.map_eq_some_iff.mp h
  exact hg ty hty

theorem BehindOperand.transition {e : Phrase α .expression} {ps : List (Pending α)}
    {k : Context α .expression} {s s' : State α} {t : Terminal} {a : α}
    (hs : BehindOperand e ps k s) (h : continueOperand e ps k t a = some s') :
    Transition s t a s' := by
  unfold continueOperand at h
  split at h
  · cases h
    exact .operator hs
  · exact .close hs h

theorem transition_of_step {s s' : State α} {t : Terminal} {a : α} (h : s.step t a = some s') :
    Transition s t a s' := by
  cases s with
  | parameterType fs word name opening ps parameter colon =>
    exact transition_of_typeOf (fun ty hty => .parameterType hty) h
  | returnType fs word name ps arrow => exact transition_of_typeOf (fun ty hty => .returnType hty) h
  | letType opening ss k word name colon =>
    exact transition_of_typeOf (fun ty hty => .letType hty) h
  | item opening ss k =>
    simp only [step] at h
    split at h
    · cases h; exact .block
    · cases h; exact .letWord
    · cases h; exact .itemName
    · next ht => exact .operand (.item opening ss k) (fun hn => (ht hn).elim) h
  | operand ps k => exact .operand (.operand ps k) (fun _ _ _ _ => nofun) h
  | operandParen opening ps k =>
    simp only [step] at h
    split at h
    · cases h; exact .unit
    · exact .operand (.operandParen opening ps k) (fun _ _ _ _ => nofun) h
  | argumentsStart name opening ps k =>
    simp only [step] at h
    split at h
    · cases h; exact .noArguments
    · exact .operand (.argumentsStart name opening ps k) (fun _ _ _ _ => nofun) h
  | itemName opening ss k name =>
    simp only [step] at h
    split at h
    · cases h; exact .assignment
    · cases h; exact .call (.item opening ss k)
    · exact BehindOperand.transition (.name (.item opening ss k)) h
  | operandName name ps k =>
    simp only [step] at h
    split at h
    · cases h; exact .call (.operand ps k)
    · exact BehindOperand.transition (.name (.operand ps k)) h
  | afterOperand e ps k => exact BehindOperand.transition (.operand e ps k) h
  | afterThen word condition body bs ps k =>
    simp only [step] at h
    split at h
    · cases h; exact .elseWord
    · exact BehindOperand.transition (.thenBody word condition body bs ps k) h
  | afterElse last bs ps k =>
    simp only [step] at h
    split at h
    · cases h; exact .elseBlock
    · cases h; exact .elseIf
    · cases h
  | _ =>
    simp only [step] at h
    split at h <;> cases h <;> constructor

/-! ### The list is right -/

theorem BeforeOperand.step {ps : List (Pending α)} {k : Context α .expression} {s s' : State α}
    {t : Terminal} {a : α} (hs : BeforeOperand ps k s)
    (ht : t = .identifier → ∀ opening ss k', s ≠ .item opening ss k')
    (h : beginOperand ps k t a = some s') : s.step t a = some s' := by
  cases hs with
  | item opening ss k =>
    have hn : t ≠ .identifier := fun hn => ht hn opening ss k rfl
    have hm := beginOperand_terminal h
    simp only [List.mem_cons, List.not_mem_nil, or_false, hn, false_or] at hm
    rcases hm with rfl | rfl | rfl | rfl | rfl | rfl <;> exact h
  | operand => exact h
  | operandParen opening ps k =>
    have hm := beginOperand_terminal h
    simp only [List.mem_cons, List.not_mem_nil, or_false] at hm
    rcases hm with rfl | rfl | rfl | rfl | rfl | rfl | rfl <;> exact h
  | argumentsStart name opening ps k =>
    have hm := beginOperand_terminal h
    simp only [List.mem_cons, List.not_mem_nil, or_false] at hm
    rcases hm with rfl | rfl | rfl | rfl | rfl | rfl | rfl <;> exact h

theorem BehindOperand.step_operator {e : Phrase α .expression} {ps : List (Pending α)}
    {k : Context α .expression} {s : State α} (hs : BehindOperand e ps k s) (o : Operator) (a : α) :
    s.step (.operator o) a = some (.operand
      (⟨(Pending.reduce o.level e ps).1, o, a⟩ :: (Pending.reduce o.level e ps).2) k) := by
  cases hs with
  | name h => cases h <;> rfl
  | operand => rfl
  | thenBody => rfl

theorem BehindOperand.step_close {e : Phrase α .expression} {ps : List (Pending α)}
    {k : Context α .expression} {s s' : State α} {t : Terminal} {a : α}
    (hs : BehindOperand e ps k s) (h : closeExpression (Pending.close e ps) k t a = some s') :
    s.step t a = some s' := by
  have ht := closeExpression_mark h
  simp only [List.mem_cons, List.not_mem_nil, or_false] at ht
  rcases ht with rfl | rfl | rfl | rfl | rfl <;> cases hs with
  | name h => cases h <;> exact h
  | operand => exact h
  | thenBody => exact h

theorem Transition.step {s s' : State α} {t : Terminal} {a : α} (h : Transition s t a s') :
    s.step t a = some s' := by
  cases h with
  | parameterType h => simp only [State.step, h, Option.map_some]
  | returnType h => simp only [State.step, h, Option.map_some]
  | letType h => simp only [State.step, h, Option.map_some]
  | operand h ht h' => exact h.step ht h'
  | call h => cases h <;> rfl
  | operator h => exact h.step_operator _ a
  | close h h' => exact h.step_close h'
  | _ => rfl

theorem step_eq_some_iff {s s' : State α} {t : Terminal} {a : α} :
    s.step t a = some s' ↔ Transition s t a s' :=
  ⟨transition_of_step, Transition.step⟩

end State

end RueSyntax
