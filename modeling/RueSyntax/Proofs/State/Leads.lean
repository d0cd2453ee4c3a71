import RueSyntax.Proofs.State.Tokens
import RueSyntax.Proofs.Token.Text

/-!
# Runs of the parser

`s.Leads ts s'` says that the parser, in the state `s`, reads the tokens `ts` one by one and is
then in `s'`.  Only texts count that the tokens may have, and a name only where no keyword of the
same spelling could stand.  The rest of the module says which neighbours a run allows: behind an
operator or an equals sign an operand begins, and where a prefix of a longer sign is taken the
longer sign is refused.
-/

namespace RueSyntax

namespace State

variable {α : Type}

/-- The parser takes the token, whose text is not the text of a keyword that it would take. -/
structure Accepts (s : State Bytes) (t : Terminal) (w : Bytes) (s' : State Bytes) : Prop where
  step : s.step t w = some s'
  text : t.HasText w
  unreserved : t = .identifier → ∀ k, Keyword.ofBytes? w = some k → s.step (.word k) w = none

/-- The parser reads the tokens. -/
inductive Leads : State Bytes → List (Token Bytes) → State Bytes → Prop
  | nil (s : State Bytes) : Leads s [] s
  | cons {s s' s'' : State Bytes} {t : Terminal} {w : Bytes} {ts : List (Token Bytes)}
    (h : s.Accepts t w s') (hs : Leads s' ts s'') : Leads s ((t, w) :: ts) s''

theorem Accepts.leads {s s' : State Bytes} {t : Terminal} {w : Bytes} (h : s.Accepts t w s') :
    s.Leads [(t, w)] s' :=
  .cons h (.nil s')

theorem Leads.append {s s' s'' : State Bytes} {ts us : List (Token Bytes)} (h : s.Leads ts s')
    (h' : s'.Leads us s'') : s.Leads (ts ++ us) s'' := by
  induction h with
  | nil => exact h'
  | cons h _ ih => exact .cons h (ih h')

/-- What a run has read is what the states say. -/
theorem Leads.tokens {s s' : State Bytes} {ts : List (Token Bytes)} (h : s.Leads ts s') :
    s'.tokens = s.tokens ++ ts := by
  induction h with
  | nil => rw [List.append_nil]
  | cons h _ ih =>
    rw [ih, tokens_step h.step, List.append_assoc]
    rfl

/-- The parser has no choice. -/
theorem Leads.unique {s s' s'' : State Bytes} {ts : List (Token Bytes)} (h : s.Leads ts s')
    (h' : s.Leads ts s'') : s' = s'' := by
  induction h with
  | nil =>
    cases h'
    rfl
  | cons h _ ih =>
    cases h' with
    | cons h1 h1s =>
      obtain rfl := Option.some.inj (h.step.symm.trans h1.step)
      exact ih h1s

theorem Leads.spelled {s s' : State Bytes} {ts : List (Token Bytes)} (h : s.Leads ts s') :
    ∀ a ∈ ts, a.1.HasText a.2 := by
  induction h with
  | nil => nofun
  | cons h _ ih => exact List.forall_mem_cons.mpr ⟨h.text, ih⟩

/-- A token with only one text, which is not a name, is read as soon as it can be taken. -/
theorem accepts_of_step {s s' : State Bytes} {t : Terminal} {w : Bytes}
    (h : s.step t w = some s') (hw : t.HasText w) (ht : t ≠ .identifier) : s.Accepts t w s' :=
  ⟨h, hw, fun hn => (ht hn).elim⟩

/-! ### Neighbours -/

theorem Transition.operand_of_operator {s s' : State α} {o : Operator} {a : α}
    (h : Transition s (.operator o) a s') : ∃ ps k, s' = .operand ps k := by
  cases h with
  | parameterType h => cases h
  | returnType h => cases h
  | letType h => cases h
  | operand h ht h' => cases h'
  | operator h => exact ⟨_, _, rfl⟩
  | close h h' =>
    have ht := closeExpression_mark h'
    simp at ht

theorem Transition.operand_of_equals {s s' : State α} {a : α}
    (h : Transition s (.mark .equals) a s') : ∃ ps k, s' = .operand ps k := by
  cases h with
  | parameterType h => cases h
  | returnType h => cases h
  | letType h => cases h
  | letEquals => exact ⟨_, _, rfl⟩
  | assignment => exact ⟨_, _, rfl⟩
  | operand h ht h' => cases h'
  | close h h' =>
    have ht := closeExpression_mark h'
    simp at ht

/-- Behind an operator or an equals sign an operand begins. -/
theorem begins_operand {s s' s'' : State α} {t u : Terminal} {a b : α}
    (ht : t = .mark .equals ∨ ∃ o, t = .operator o) (h : s.step t a = some s')
    (h' : s'.step u b = some s'') :
    u ∈ [Terminal.identifier, .integer, .word .trueWord, .word .falseWord, .word .ifWord,
      .word .whileWord, .mark .openParen] := by
  obtain ⟨ps, k, rfl⟩ : ∃ ps k, s' = .operand ps k := by
    rcases ht with rfl | ⟨o, rfl⟩
    · exact (transition_of_step h).operand_of_equals
    · exact (transition_of_step h).operand_of_operator
  exact beginOperand_terminal h'

/-- Where an opening parenthesis can stand, the unit type cannot. -/
theorem step_unitType_of_openParen {s s' : State α} {a b : α}
    (h : s.step (.mark .openParen) a = some s') : s.step .unitType b = none := by
  cases h' : s.step .unitType b with
  | none => rfl
  | some s'' =>
    cases transition_of_step h' with
    | parameterType => cases h
    | returnType => cases h
    | letType => cases h
    | operand _ _ h' => cases h'
    | close _ h' =>
      have ht := closeExpression_mark h'
      simp at ht

/-- Where a minus can stand, the arrow cannot. -/
theorem step_arrow_of_minus {s s' : State α} {a b : α}
    (h : s.step (.operator .minus) a = some s') : s.step (.mark .arrow) b = none := by
  cases h' : s.step (.mark .arrow) b with
  | none => rfl
  | some s'' =>
    cases transition_of_step h' with
    | parameterType h' => cases h'
    | returnType h' => cases h'
    | letType h' => cases h'
    | arrow => cases h
    | operand _ _ h' => cases h'
    | close _ h' =>
      have ht := closeExpression_mark h'
      simp at ht

end State

end RueSyntax
