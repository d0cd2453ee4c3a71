import RueSyntax.Proofs.State.Transition
import RueSyntax.Proofs.Syntax.Proper

/-!
# The functions that are finished

`gs.Begins fs` says that the functions `gs` are the first of `fs`.  A state remembers the functions
in front of the place it stands at (`State.functions`); a step keeps them and adds at most the one
that it ends (`Transition.begins`).  So the functions of a text cut between two of them are the
first of its functions.
-/

namespace RueSyntax

variable {α β : Type}

namespace Phrase

/-- The functions `gs` and no more, one or more of those that follow. -/
inductive Begins (gs : Phrase α .functions) : Phrase α .functions → Prop
  | refl : Begins gs gs
  | more {fs : Phrase α .functions} (f : Phrase α .function) (h : Begins gs fs) :
    Begins gs (.moreFunctions fs f)

namespace Begins

variable {gs hs fs : Phrase α .functions}

theorem trans (h : gs.Begins hs) (h' : hs.Begins fs) : gs.Begins fs := by
  induction h' with
  | refl => exact h
  | more f _ ih => exact .more f ih

theorem map (f : α → β) (h : gs.Begins fs) : (gs.map f).Begins (fs.map f) := by
  induction h with
  | refl => exact .refl
  | more g _ ih => exact .more (g.map f) ih

theorem tokens (h : gs.Begins fs) : gs.tokens <+: fs.tokens := by
  induction h with
  | refl => exact List.prefix_refl _
  | more f _ ih => exact ih.trans (List.prefix_append _ _)

theorem proper {gs fs : Phrase Bytes .functions} (h : gs.Begins fs) (hp : fs.Proper) :
    gs.Proper := by
  induction h with
  | refl => exact hp
  | more f _ ih => exact ih hp.1

end Begins

end Phrase

/-- The functions in front of the one that is open around the gap. -/
def Context.functions : {g : Gap} → Context α g → Phrase α .functions
  | _, parenthesized _ _ k | _, firstArgument _ _ _ k | _, nextArgument _ _ _ _ _ k
  | _, ifCondition _ _ _ k | _, whileCondition _ _ k | _, letValue _ _ _ _ _ _ _ k
  | _, assignedValue _ _ _ _ k | _, bare _ _ k | _, thenBody _ _ _ _ k | _, elseBody _ _ _ k
  | _, whileBody _ _ _ k => k.functions
  | _, functionBody h => h.before

namespace State

/-- The functions in front of the place at which the state stands. -/
def functions : State α → Phrase α .functions
  | top fs | functionName fs _ | parametersStart fs _ _ | firstParameter fs _ _ _
  | nextParameter fs _ _ _ _ _ | parameterColon fs _ _ _ _ _ | parameterType fs _ _ _ _ _ _
  | parametersRest fs _ _ _ _ | returnArrow fs _ _ _ | returnType fs _ _ _ _ => fs
  | bodyStart h => h.before
  | item _ _ k | letName _ _ k _ | letColon _ _ k _ _ | letType _ _ k _ _ _
  | letEquals _ _ k _ _ _ _ | itemName _ _ k _ => k.functions
  | operand _ k | operandName _ _ k | operandParen _ _ k | argumentsStart _ _ _ k
  | afterOperand _ _ k | afterThen _ _ _ _ _ k | afterElse _ _ _ k => k.functions

theorem functions_beginOperand {ps : List (Pending α)} {k : Context α .expression} {t : Terminal}
    {a : α} {s : State α} (h : beginOperand ps k t a = some s) : s.functions = k.functions := by
  unfold beginOperand at h
  split at h <;> cases h <;> rfl

/-- The end of a block is the end of a function if the block is its body. -/
theorem begins_closeBlock (b : Phrase α .block) (k : Context α .block) :
    k.functions.Begins (closeBlock b k).functions := by
  cases k with
  | functionBody h => exact .more _ .refl
  | _ => exact .refl

theorem begins_closeExpression {e : Phrase α .expression} {k : Context α .expression}
    {t : Terminal} {a : α} {s : State α} (h : closeExpression e k t a = some s) :
    k.functions.Begins s.functions := by
  cases k with
  | bare opening ss k =>
    simp only [closeExpression] at h
    split at h
    · cases h
      exact .refl
    · cases h
      exact begins_closeBlock _ k
    · cases h
  | _ =>
    simp only [closeExpression] at h
    split at h <;> cases h <;> exact .refl

theorem BeforeOperand.functions {ps : List (Pending α)} {k : Context α .expression} {s : State α}
    (h : BeforeOperand ps k s) : s.functions = k.functions := by
  cases h <;> rfl

theorem BehindOperand.functions {e : Phrase α .expression} {ps : List (Pending α)}
    {k : Context α .expression} {s : State α} (h : BehindOperand e ps k s) :
    s.functions = k.functions := by
  cases h with
  | name h => cases h <;> rfl
  | operand => rfl
  | thenBody => rfl

/-- A step keeps the functions that are finished. -/
theorem Transition.begins {s s' : State α} {t : Terminal} {a : α} (h : Transition s t a s') :
    s.functions.Begins s'.functions := by
  cases h with
  | block => exact begins_closeBlock _ _
  | call h => cases h <;> exact .refl
  | operand h ht h' =>
    rw [h.functions, functions_beginOperand h']
    exact .refl
  | operator h =>
    rw [h.functions]
    exact .refl
  | close h h' =>
    rw [h.functions]
    exact begins_closeExpression h'
  | _ => exact .refl

end State

end RueSyntax
