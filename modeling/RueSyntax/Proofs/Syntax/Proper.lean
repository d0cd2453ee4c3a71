import RueSyntax.Parser.State

/-!
# Proper phrases

Not every phrase is read back from its tokens.  A proper one is: its operators group by level and
to the left, and no name stands where a keyword of the same spelling would be read instead.

While a binary expression is read, its operators wait: `unfold e ps` is the last operand of `e` with
all operators of `e` in front of it waiting on top of `ps`.  If `e` is proper, letting them take
their operands gives `e` back (`close_unfold`, `reduce_unfold`).
-/

namespace RueSyntax

/-- The words with which an expression may begin: no name there has one of these spellings. -/
def operandWords : List Bytes :=
  [Keyword.ifWord, .whileWord, .trueWord, .falseWord].map fun k => Bytes.ofString k.spelling

/-- The word with which a statement may begin. -/
def letText : Bytes := Bytes.ofString Keyword.letWord.spelling

namespace Phrase

variable {α : Type}

/-- How tightly an expression binds: an operation like its operator, all others tighter. -/
def level : Phrase α .expression → Nat
  | binary _ o _ _ => o.level
  | _ => 4

/-- The last operand of an expression, and the operators in front of it on top of `ps`. -/
def unfold : {c : Category} → Phrase α c → List (Pending α) → Phrase α c × List (Pending α)
  | _, binary left o sign right, ps => unfold right (⟨left, o, sign⟩ :: ps)
  | _, e, ps => (e, ps)

/-- The first token is no name that would be read as the word `let`. -/
def BeginsProperly (ts : List (Token Bytes)) : Prop := ts.head? ≠ some (.identifier, letText)

theorem BeginsProperly.of_append {ts us : List (Token Bytes)} (h : BeginsProperly (ts ++ us)) :
    BeginsProperly ts := by
  cases ts with
  | nil => exact nofun
  | cons => exact h

theorem beginsProperly_word (k : Keyword) (w : Bytes) (ts : List (Token Bytes)) :
    BeginsProperly ((.word k, w) :: ts) := nofun

/-- Names and operators are as they are read. -/
def Proper : {c : Category} → Phrase Bytes c → Prop
  | _, moreFunctions fs f => fs.Proper ∧ f.Proper
  | _, function _ _ _ _ _ body => body.Proper
  | _, block _ ss _ => ss.Proper
  | _, blockWithValue _ ss value _ => ss.Proper ∧ value.Proper ∧ BeginsProperly value.tokens
  | _, moreStatements ss s => ss.Proper ∧ s.Proper ∧ BeginsProperly s.tokens
  | _, letStatement _ _ _ _ _ value _ => value.Proper
  | _, assignment name _ value _ => name ∉ operandWords ∧ value.Proper
  | _, expressionStatement e _ => e.Proper
  | _, reference name => name ∉ operandWords
  | _, parenthesized _ e _ => e.Proper
  | _, call name args => name ∉ operandWords ∧ args.Proper
  | _, binary left o _ right =>
    left.Proper ∧ right.Proper ∧ o.level ≤ left.level ∧ o.level < right.level
  | _, ifExpression c => c.Proper
  | _, whileLoop _ condition body => condition.Proper ∧ body.Proper
  | _, ifThen _ condition body => condition.Proper ∧ body.Proper
  | _, ifElse _ condition body rest => condition.Proper ∧ body.Proper ∧ rest.Proper
  | _, elseBlock _ body => body.Proper
  | _, elseIf _ c => c.Proper
  | _, someArguments _ es _ => es.Proper
  | _, oneArgument e => e.Proper
  | _, moreArguments es _ e => es.Proper ∧ e.Proper
  | _, _ => True

/-- There is nothing to mistake in the parameters and types of a function. -/
theorem proper_of_mem {c : Category} (p : Phrase Bytes c)
    (hc : c ∈ [Category.parameters, .parameterList, .parameter, .type]) : p.Proper := by
  cases p <;> trivial

/-! ### Operators that wait -/

theorem close_unfold : ∀ (e : Phrase α .expression) (ps : List (Pending α)),
    Pending.close (e.unfold ps).1 (e.unfold ps).2 = Pending.close e ps
  | binary left o sign right, ps => close_unfold right (⟨left, o, sign⟩ :: ps)
  | reference _, _ | integer _, _ | boolean _ _, _ | unit _ _, _ | parenthesized _ _ _, _
  | call _ _, _ | ifExpression _, _ | whileLoop _ _ _, _ => rfl

theorem reduce_of_head {n : Nat} (e : Phrase α .expression) {ps : List (Pending α)}
    (h : ∀ p ∈ ps.head?, p.operator.level < n) : Pending.reduce n e ps = (e, ps) := by
  cases ps with
  | nil => rfl
  | cons p ps =>
    have hp : ¬ n ≤ p.operator.level := Nat.not_le.mpr (h p rfl)
    rw [Pending.reduce, if_neg hp]

/-- An operator that binds no tighter than a proper expression lets it be completed first. -/
theorem reduce_unfold {n : Nat} : ∀ (e : Phrase Bytes .expression) (ps : List (Pending Bytes)),
    e.Proper → n ≤ e.level →
      Pending.reduce n (e.unfold ps).1 (e.unfold ps).2 = Pending.reduce n e ps
  | binary left o sign right, ps, he, hn => by
    obtain ⟨-, hright, -, hlt⟩ := he
    have ho : n ≤ o.level := hn
    have hlevel : n ≤ right.level := by omega
    have hr := reduce_unfold right (⟨left, o, sign⟩ :: ps) hright hlevel
    rw [unfold, hr, Pending.reduce, if_pos ho]
  | reference _, _, _, _ | integer _, _, _, _ | boolean _ _, _, _, _ | unit _ _, _, _, _
  | parenthesized _ _ _, _, _, _ | call _ _, _, _, _ | ifExpression _, _, _, _
  | whileLoop _ _ _, _, _, _ => rfl

theorem level_le (o : Operator) : o.level ≤ 3 := by cases o <;> decide

end Phrase

end RueSyntax
