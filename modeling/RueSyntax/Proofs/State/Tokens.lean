import RueSyntax.Proofs.State.Transition

/-!
# A state holds the tokens that led to it

`State.tokens` writes down what a state has read.  A step adds its token at the end
(`tokens_step`), so nothing is lost, doubled or moved while phrases are put together.
-/

namespace RueSyntax

variable {α : Type}

theorem Pending.tokens_close (e : Phrase α .expression) (ps : List (Pending α)) :
    (Pending.close e ps).tokens = Pending.tokens ps ++ e.tokens := by
  induction ps generalizing e with
  | nil => rfl
  | cons p ps ih =>
    have h := ih (.binary p.left p.operator p.sign e)
    simp only [Phrase.tokens] at h
    simp only [Pending.tokens, List.append_assoc, List.singleton_append]
    exact h

theorem Pending.tokens_reduce (n : Nat) (e : Phrase α .expression) (ps : List (Pending α)) :
    Pending.tokens (Pending.reduce n e ps).2 ++ (Pending.reduce n e ps).1.tokens =
      Pending.tokens ps ++ e.tokens := by
  induction ps generalizing e with
  | nil => rfl
  | cons p ps ih =>
    by_cases h : n ≤ p.operator.level
    · rw [Pending.reduce, if_pos h, ih]
      simp [Phrase.tokens, Pending.tokens]
    · rw [Pending.reduce, if_neg h]

theorem Branch.tokens_close (c : Phrase α .conditional) (bs : List (Branch α)) :
    (Branch.close c bs).tokens = Branch.tokens bs ++ c.tokens := by
  induction bs generalizing c with
  | nil => rfl
  | cons b bs ih =>
    have h := ih (.ifElse b.word b.condition b.body (.elseIf b.elseWord c))
    simp only [Phrase.tokens] at h
    simp only [Branch.tokens, List.append_assoc, List.cons_append, List.nil_append]
    exact h

namespace State

/-- The tokens of parameters behind their opening parenthesis, up to the last comma. -/
def parameterTokens : Option (Phrase α .parameterList × α) → List (Token α)
  | none => []
  | some (ps, comma) => ps.tokens ++ [(.mark .comma, comma)]

/-- The tokens that led to the state. -/
def tokens : State α → List (Token α)
  | top fs => fs.tokens
  | functionName fs word => fs.tokens ++ [(.word .fnWord, word)]
  | parametersStart fs word name =>
    fs.tokens ++ [(.word .fnWord, word), (.identifier, name)]
  | firstParameter fs word name opening =>
    fs.tokens ++ [(.word .fnWord, word), (.identifier, name), (.mark .openParen, opening)]
  | nextParameter fs word name opening ps comma =>
    fs.tokens ++ (.word .fnWord, word) :: (.identifier, name) :: (.mark .openParen, opening) ::
      (ps.tokens ++ [(.mark .comma, comma)])
  | parameterColon fs word name opening ps parameter =>
    fs.tokens ++ (.word .fnWord, word) :: (.identifier, name) :: (.mark .openParen, opening) ::
      (parameterTokens ps ++ [(.identifier, parameter)])
  | parameterType fs word name opening ps parameter colon =>
    fs.tokens ++ (.word .fnWord, word) :: (.identifier, name) :: (.mark .openParen, opening) ::
      (parameterTokens ps ++ [(.identifier, parameter), (.mark .colon, colon)])
  | parametersRest fs word name opening ps =>
    fs.tokens ++ (.word .fnWord, word) :: (.identifier, name) :: (.mark .openParen, opening) ::
      ps.tokens
  | returnArrow fs word name ps =>
    fs.tokens ++ (.word .fnWord, word) :: (.identifier, name) :: ps.tokens
  | returnType fs word name ps arrow =>
    fs.tokens ++ (.word .fnWord, word) :: (.identifier, name) ::
      (ps.tokens ++ [(.mark .arrow, arrow)])
  | bodyStart h => h.tokens
  | item opening ss k => k.tokens ++ (.mark .openBrace, opening) :: ss.tokens
  | letName opening ss k word =>
    k.tokens ++ (.mark .openBrace, opening) :: (ss.tokens ++ [(.word .letWord, word)])
  | letColon opening ss k word name =>
    k.tokens ++ (.mark .openBrace, opening) ::
      (ss.tokens ++ [(.word .letWord, word), (.identifier, name)])
  | letType opening ss k word name colon =>
    k.tokens ++ (.mark .openBrace, opening) ::
      (ss.tokens ++ [(.word .letWord, word), (.identifier, name), (.mark .colon, colon)])
  | letEquals opening ss k word name colon ty =>
    k.tokens ++ (.mark .openBrace, opening) ::
      (ss.tokens ++ (.word .letWord, word) :: (.identifier, name) :: (.mark .colon, colon) ::
        ty.tokens)
  | itemName opening ss k name =>
    k.tokens ++ (.mark .openBrace, opening) :: (ss.tokens ++ [(.identifier, name)])
  | operand ps k => k.tokens ++ Pending.tokens ps
  | operandName name ps k => k.tokens ++ (Pending.tokens ps ++ [(.identifier, name)])
  | operandParen opening ps k => k.tokens ++ (Pending.tokens ps ++ [(.mark .openParen, opening)])
  | argumentsStart name opening ps k =>
    k.tokens ++ (Pending.tokens ps ++ [(.identifier, name), (.mark .openParen, opening)])
  | afterOperand e ps k => k.tokens ++ (Pending.tokens ps ++ e.tokens)
  | afterThen word condition body bs ps k =>
    k.tokens ++ (Pending.tokens ps ++ (Branch.tokens bs ++
      (.word .ifWord, word) :: (condition.tokens ++ body.tokens)))
  | afterElse last bs ps k => k.tokens ++ (Pending.tokens ps ++ Branch.tokens (last :: bs))

/-! ### The parts of a step -/

theorem tokens_typeOf {t : Terminal} {a : α} {ty : Phrase α .type} (h : typeOf t a = some ty) :
    ty.tokens = [(t, a)] := by
  unfold typeOf at h
  split at h <;> cases h <;> rfl

theorem tokens_addParameter (p : Phrase α .parameter)
    (ps : Option (Phrase α .parameterList × α)) :
    (addParameter p ps).tokens = parameterTokens ps ++ p.tokens := by
  cases ps with
  | none => rfl
  | some q => simp [addParameter, parameterTokens, Phrase.tokens]

theorem tokens_beginOperand {ps : List (Pending α)} {k : Context α .expression} {t : Terminal}
    {a : α} {s : State α} (h : beginOperand ps k t a = some s) :
    s.tokens = k.tokens ++ (Pending.tokens ps ++ [(t, a)]) := by
  unfold beginOperand at h
  split at h <;> cases h <;>
    simp [tokens, Context.tokens, Pending.tokens, Branch.tokens, Phrase.tokens, truthWord]

theorem tokens_closeBlock (b : Phrase α .block) (k : Context α .block) :
    (closeBlock b k).tokens = k.tokens ++ b.tokens := by
  cases k with
  | functionBody h =>
    simp [closeBlock, tokens, Context.tokens, Header.close, Header.tokens, Phrase.tokens]
  | thenBody word condition bs ps k => simp [closeBlock, tokens, Context.tokens]
  | elseBody last bs ps k =>
    simp [closeBlock, tokens, Context.tokens, Phrase.tokens, Branch.tokens_close, Branch.tokens]
  | whileBody word condition ps k => simp [closeBlock, tokens, Context.tokens, Phrase.tokens]

theorem tokens_closeExpression {e : Phrase α .expression} {k : Context α .expression}
    {t : Terminal} {a : α} {s : State α} (h : closeExpression e k t a = some s) :
    s.tokens = k.tokens ++ (e.tokens ++ [(t, a)]) := by
  cases k with
  | bare opening ss k =>
    simp only [closeExpression] at h
    split at h
    · cases h
      simp [tokens, Context.tokens, Phrase.tokens]
    · cases h
      rw [tokens_closeBlock]
      simp [Context.tokens, Phrase.tokens]
    · cases h
  | _ =>
    simp only [closeExpression] at h
    split at h <;> cases h <;> simp [tokens, Context.tokens, Pending.tokens, Phrase.tokens]

theorem BeforeOperand.tokens {ps : List (Pending α)} {k : Context α .expression} {s : State α}
    (h : BeforeOperand ps k s) : s.tokens = k.tokens ++ Pending.tokens ps := by
  cases h <;> simp [State.tokens, Context.tokens, Pending.tokens]

theorem BehindName.tokens {name : α} {ps : List (Pending α)} {k : Context α .expression}
    {s : State α} (h : BehindName name ps k s) :
    s.tokens = k.tokens ++ (Pending.tokens ps ++ [(.identifier, name)]) := by
  cases h <;> simp [State.tokens, Context.tokens, Pending.tokens]

theorem BehindOperand.tokens {e : Phrase α .expression} {ps : List (Pending α)}
    {k : Context α .expression} {s : State α} (h : BehindOperand e ps k s) :
    s.tokens = k.tokens ++ (Pending.tokens ps ++ e.tokens) := by
  cases h with
  | name h => exact h.tokens
  | operand => rfl
  | thenBody => simp [State.tokens, Phrase.tokens, Branch.tokens_close]

/-! ### Steps -/

theorem Transition.tokens {s s' : State α} {t : Terminal} {a : α} (h : Transition s t a s') :
    s'.tokens = s.tokens ++ [(t, a)] := by
  cases h with
  | parameterType h =>
    simp [State.tokens, tokens_addParameter, tokens_typeOf h, Phrase.tokens]
  | returnType h => simp [State.tokens, Header.tokens, tokens_typeOf h]
  | letType h => simp [State.tokens, tokens_typeOf h]
  | block =>
    rw [tokens_closeBlock]
    simp [State.tokens, Phrase.tokens]
  | operand h ht h' =>
    rw [tokens_beginOperand h', h.tokens]
    simp
  | call h =>
    rw [h.tokens]
    simp [State.tokens]
  | operator h =>
    rename_i e ps k o
    have hr := Pending.tokens_reduce o.level e ps
    rw [h.tokens, ← hr]
    simp [State.tokens, Pending.tokens]
  | close h h' =>
    rw [tokens_closeExpression h', h.tokens, Pending.tokens_close]
    simp
  | _ =>
    simp [State.tokens, parameterTokens, Context.tokens, Pending.tokens, Branch.tokens,
      Phrase.tokens]

/-- A step adds its token. -/
theorem tokens_step {s s' : State α} {t : Terminal} {a : α} (h : s.step t a = some s') :
    s'.tokens = s.tokens ++ [(t, a)] :=
  (transition_of_step h).tokens

end State

end RueSyntax
