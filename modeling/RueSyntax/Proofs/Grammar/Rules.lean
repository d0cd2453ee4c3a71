import RueSyntax.Proofs.Grammar.Phrases

/-!
# Rule by rule

For each rule of the grammar: a node whose children its rule derives is the node of a phrase, if
the children are.  By induction every conforming node is the node of a phrase.
-/

namespace RueSyntax

variable {α : Type}

namespace Phrase

open Grammar

variable {f : Option Field} {ns : List (Node α)}

theorem exists_function (hs : ∀ n ∈ ns, n.IsPhrase)
    (h : rue.Produces Rule.functionItem.name (ns.map Node.label)) :
    ∃ p : Phrase α .function, p.nodes f = [.rule f .functionItem ns] := by
  have hd := derives_of_produces rfl h
  obtain ⟨word, ks₁, rfl, hd₁⟩ := split_literal (.word .fnWord) rfl hd
  obtain ⟨name, ks₂, rfl, hd₂⟩ := split_name .name hd₁
  obtain ⟨ms₁, ks₃, rfl, hps, hd₃⟩ := split_field .parameters hd₂
  obtain ⟨arrow, ks₄, rfl, hd₄⟩ := split_literal (.mark .arrow) rfl hd₃
  obtain ⟨ms₂, ks₅, rfl, hty, hd₅⟩ := split_field .returnType hd₄
  obtain ⟨ms₃, ks₆, rfl, hbody, hd₆⟩ := split_field .body hd₅
  obtain rfl := seq_end hd₆
  simp only [List.forall_mem_cons, List.forall_mem_append] at hs
  obtain ⟨-, -, hs₁, -, hs₂, hs₃, -⟩ := hs
  obtain ⟨ps, rfl⟩ := phrase_of_symbol .parameters nofun hs₁ rfl hps
  obtain ⟨ty, rfl⟩ := exists_type hs₂ hty
  obtain ⟨body, rfl⟩ := phrase_of_symbol .block nofun hs₃ rfl hbody
  refine ⟨.function word name ps arrow ty body, ?_⟩
  rw [List.append_nil]
  rfl

theorem exists_parameters (hs : ∀ n ∈ ns, n.IsPhrase)
    (h : rue.Produces Rule.parameters.name (ns.map Node.label)) :
    ∃ p : Phrase α .parameters, p.nodes f = [.rule f .parameters ns] := by
  have hd := derives_of_produces rfl h
  obtain ⟨opening, ks₁, rfl, hd₁⟩ := split_literal (.mark .openParen) rfl hd
  obtain ⟨ms, ks₂, rfl, hps, hd₂⟩ := split_seq hd₁
  obtain ⟨closing, ks₃, rfl, hd₃⟩ := split_literal (.mark .closeParen) rfl hd₂
  obtain rfl := seq_end hd₃
  simp only [List.forall_mem_cons, List.forall_mem_append] at hs
  rcases derives_optional.mp hps with hps | hps
  · obtain ⟨ps, rfl⟩ := exists_parameterList hs.2.1 hps
    exact ⟨.someParameters opening ps closing, rfl⟩
  · obtain rfl := List.map_eq_nil_iff.mp hps
    exact ⟨.noParameters opening closing, rfl⟩

theorem exists_parameter (hs : ∀ n ∈ ns, n.IsPhrase)
    (h : rue.Produces Rule.parameter.name (ns.map Node.label)) :
    ∃ p : Phrase α .parameter, p.nodes f = [.rule f .parameter ns] := by
  have hd := derives_of_produces rfl h
  obtain ⟨name, ks₁, rfl, hd₁⟩ := split_name .name hd
  obtain ⟨colon, ks₂, rfl, hd₂⟩ := split_literal (.mark .colon) rfl hd₁
  obtain ⟨ms, ks₃, rfl, hty, hd₃⟩ := split_field .type hd₂
  obtain rfl := seq_end hd₃
  simp only [List.forall_mem_cons, List.forall_mem_append] at hs
  obtain ⟨ty, rfl⟩ := exists_type hs.2.2.1 hty
  refine ⟨.parameter name colon ty, ?_⟩
  rw [List.append_nil]
  rfl

theorem exists_primitive (h : rue.Produces Rule.primitiveType.name (ns.map Node.label)) :
    ∃ p : Phrase α .type, p.nodes f = [.rule f .primitiveType ns] := by
  obtain ⟨p, hp, hd⟩ := derives_choice.mp (derives_of_produces rfl h)
  simp only [List.mem_cons, List.not_mem_nil, or_false] at hp
  rcases hp with rfl | rfl | rfl
  · obtain ⟨word, rfl⟩ := token_of_literal (f := none) (.word .i32) rfl hd
    exact ⟨.primitive .i32 word, rfl⟩
  · obtain ⟨word, rfl⟩ := token_of_literal (f := none) (.word .i64) rfl hd
    exact ⟨.primitive .i64 word, rfl⟩
  · obtain ⟨word, rfl⟩ := token_of_literal (f := none) (.word .bool) rfl hd
    exact ⟨.primitive .bool word, rfl⟩

theorem exists_block (hs : ∀ n ∈ ns, n.IsPhrase)
    (h : rue.Produces Rule.block.name (ns.map Node.label)) :
    ∃ p : Phrase α .block, p.nodes f = [.rule f .block ns] := by
  have hd := derives_of_produces rfl h
  obtain ⟨opening, ks₁, rfl, hd₁⟩ := split_literal (.mark .openBrace) rfl hd
  obtain ⟨ms₁, ks₂, rfl, hss, hd₂⟩ := split_seq hd₁
  obtain ⟨ms₂, ks₃, rfl, hvalue, hd₃⟩ := split_seq hd₂
  obtain ⟨closing, ks₄, rfl, hd₄⟩ := split_literal (.mark .closeBrace) rfl hd₃
  obtain rfl := seq_end hd₄
  simp only [List.forall_mem_cons, List.forall_mem_append] at hs
  obtain ⟨-, hs₁, hs₂, -⟩ := hs
  obtain ⟨ss, rfl⟩ := exists_statements hs₁ hss
  rcases derives_optional.mp hvalue with hvalue | hvalue
  · obtain ⟨value, rfl⟩ := exists_expression (f := none) hs₂ hvalue
    exact ⟨.blockWithValue opening ss value closing, rfl⟩
  · obtain rfl := List.map_eq_nil_iff.mp hvalue
    exact ⟨.block opening ss closing, rfl⟩

theorem exists_letStatement (hs : ∀ n ∈ ns, n.IsPhrase)
    (h : rue.Produces Rule.letStatement.name (ns.map Node.label)) :
    ∃ p : Phrase α .statement, p.nodes f = [.rule f .letStatement ns] := by
  have hd := derives_of_produces rfl h
  obtain ⟨word, ks₁, rfl, hd₁⟩ := split_literal (.word .letWord) rfl hd
  obtain ⟨name, ks₂, rfl, hd₂⟩ := split_name .name hd₁
  obtain ⟨colon, ks₃, rfl, hd₃⟩ := split_literal (.mark .colon) rfl hd₂
  obtain ⟨ms₁, ks₄, rfl, hty, hd₄⟩ := split_field .type hd₃
  obtain ⟨equals, ks₅, rfl, hd₅⟩ := split_literal (.mark .equals) rfl hd₄
  obtain ⟨ms₂, ks₆, rfl, hvalue, hd₆⟩ := split_field .value hd₅
  obtain ⟨semicolon, ks₇, rfl, hd₇⟩ := split_literal (.mark .semicolon) rfl hd₆
  obtain rfl := seq_end hd₇
  simp only [List.forall_mem_cons, List.forall_mem_append] at hs
  obtain ⟨-, -, -, hs₁, -, hs₂, -⟩ := hs
  obtain ⟨ty, rfl⟩ := exists_type hs₁ hty
  obtain ⟨value, rfl⟩ := exists_expression hs₂ hvalue
  exact ⟨.letStatement word name colon ty equals value semicolon, rfl⟩

theorem exists_assignment (hs : ∀ n ∈ ns, n.IsPhrase)
    (h : rue.Produces Rule.assignmentStatement.name (ns.map Node.label)) :
    ∃ p : Phrase α .statement, p.nodes f = [.rule f .assignmentStatement ns] := by
  have hd := derives_of_produces rfl h
  obtain ⟨name, ks₁, rfl, hd₁⟩ := split_name .name hd
  obtain ⟨equals, ks₂, rfl, hd₂⟩ := split_literal (.mark .equals) rfl hd₁
  obtain ⟨ms, ks₃, rfl, hvalue, hd₃⟩ := split_field .value hd₂
  obtain ⟨semicolon, ks₄, rfl, hd₄⟩ := split_literal (.mark .semicolon) rfl hd₃
  obtain rfl := seq_end hd₄
  simp only [List.forall_mem_cons, List.forall_mem_append] at hs
  obtain ⟨value, rfl⟩ := exists_expression hs.2.2.1 hvalue
  exact ⟨.assignment name equals value semicolon, rfl⟩

theorem exists_expressionStatement (hs : ∀ n ∈ ns, n.IsPhrase)
    (h : rue.Produces Rule.expressionStatement.name (ns.map Node.label)) :
    ∃ p : Phrase α .statement, p.nodes f = [.rule f .expressionStatement ns] := by
  have hd := derives_of_produces rfl h
  obtain ⟨ms, ks₁, rfl, he, hd₁⟩ := split_seq hd
  obtain ⟨semicolon, ks₂, rfl, hd₂⟩ := split_literal (.mark .semicolon) rfl hd₁
  obtain rfl := seq_end hd₂
  simp only [List.forall_mem_cons, List.forall_mem_append] at hs
  obtain ⟨e, rfl⟩ := exists_expression (f := none) hs.1 he
  exact ⟨.expressionStatement e semicolon, rfl⟩

theorem exists_conditional (hs : ∀ n ∈ ns, n.IsPhrase)
    (h : rue.Produces Rule.ifExpression.name (ns.map Node.label)) :
    ∃ p : Phrase α .conditional, p.nodes f = [.rule f .ifExpression ns] := by
  have hd := derives_ranked.mp (derives_of_produces rfl h)
  obtain ⟨word, ks₁, rfl, hd₁⟩ := split_literal (.word .ifWord) rfl hd
  obtain ⟨ms₁, ks₂, rfl, hc, hd₂⟩ := split_field .condition hd₁
  obtain ⟨ms₂, ks₃, rfl, hbody, hd₃⟩ := split_field .consequence hd₂
  obtain ⟨ms₃, ks₄, rfl, helse, hd₄⟩ := split_seq hd₃
  obtain rfl := seq_end hd₄
  simp only [List.forall_mem_cons, List.forall_mem_append] at hs
  obtain ⟨-, hs₁, hs₂, hs₃, -⟩ := hs
  obtain ⟨condition, rfl⟩ := exists_expression hs₁ hc
  obtain ⟨body, rfl⟩ := phrase_of_symbol .block nofun hs₂ rfl hbody
  rcases derives_optional.mp helse with helse | helse
  · obtain ⟨rest, rfl⟩ := phrase_of_symbol (f := some .alternative) .elseClause nofun hs₃ rfl
      (derives_field.mp helse)
    refine ⟨.ifElse word condition body rest, ?_⟩
    rw [List.append_nil]
    rfl
  · obtain rfl := List.map_eq_nil_iff.mp helse
    refine ⟨.ifThen word condition body, ?_⟩
    rw [List.append_nil, List.append_nil]
    rfl

theorem exists_elseClause (hs : ∀ n ∈ ns, n.IsPhrase)
    (h : rue.Produces Rule.elseClause.name (ns.map Node.label)) :
    ∃ p : Phrase α .elseClause, p.nodes f = [.rule f .elseClause ns] := by
  have hd := derives_of_produces rfl h
  obtain ⟨word, ks₁, rfl, hd₁⟩ := split_literal (.word .elseWord) rfl hd
  obtain ⟨ms, ks₂, rfl, hrest, hd₂⟩ := split_seq hd₁
  obtain rfl := seq_end hd₂
  rw [List.append_nil] at hs ⊢
  have hs₁ := (List.forall_mem_cons.mp hs).2
  obtain ⟨p, hp, hrest⟩ := derives_choice.mp hrest
  simp only [List.mem_cons, List.not_mem_nil, or_false] at hp
  rcases hp with rfl | rfl
  · obtain ⟨body, rfl⟩ := phrase_of_symbol (f := none) .block nofun hs₁ rfl hrest
    exact ⟨.elseBlock word body, rfl⟩
  · obtain ⟨c, rfl⟩ := phrase_of_symbol (f := none) .ifExpression nofun hs₁ rfl hrest
    exact ⟨.elseIf word c, rfl⟩

theorem exists_whileLoop (hs : ∀ n ∈ ns, n.IsPhrase)
    (h : rue.Produces Rule.whileExpression.name (ns.map Node.label)) :
    ∃ p : Phrase α .expression, p.nodes f = [.rule f .whileExpression ns] := by
  have hd := derives_ranked.mp (derives_of_produces rfl h)
  obtain ⟨word, ks₁, rfl, hd₁⟩ := split_literal (.word .whileWord) rfl hd
  obtain ⟨ms₁, ks₂, rfl, hc, hd₂⟩ := split_field .condition hd₁
  obtain ⟨ms₂, ks₃, rfl, hbody, hd₃⟩ := split_field .body hd₂
  obtain rfl := seq_end hd₃
  simp only [List.forall_mem_cons, List.forall_mem_append] at hs
  obtain ⟨-, hs₁, hs₂, -⟩ := hs
  obtain ⟨condition, rfl⟩ := exists_expression hs₁ hc
  obtain ⟨body, rfl⟩ := phrase_of_symbol .block nofun hs₂ rfl hbody
  refine ⟨.whileLoop word condition body, ?_⟩
  rw [List.append_nil]
  rfl

/-- A literal for an operator of one of the three levels is the token of that operator. -/
theorem exists_operator {os : List Operator}
    (h : rue.Derives ((some Field.operator).map Field.label)
      (.choice ((os.map Operator.spelling).map .literal)) (ns.map Node.label)) :
    ∃ o sign, ns = [.token (some .operator) (.operator o) sign] := by
  obtain ⟨p, hp, h⟩ := derives_choice.mp h
  obtain ⟨s, hs, rfl⟩ := List.mem_map.mp hp
  obtain ⟨o, -, rfl⟩ := List.mem_map.mp hs
  obtain ⟨sign, rfl⟩ := token_of_literal (f := some .operator) (.operator o) rfl h
  exact ⟨o, sign, rfl⟩

theorem exists_operation {n : Int} (os : List Operator) (hs : ∀ n ∈ ns, n.IsPhrase)
    (h : rue.Derives none (operation n (os.map Operator.spelling)) (ns.map Node.label)) :
    ∃ p : Phrase α .expression, p.nodes f = [.rule f .binaryExpression ns] := by
  have hd := derives_ranked.mp h
  obtain ⟨ms₁, ks₁, rfl, hl, hd₁⟩ := split_field .left hd
  obtain ⟨ms₂, ks₂, rfl, ho, hd₂⟩ := split_field .operator hd₁
  obtain ⟨ms₃, ks₃, rfl, hr, hd₃⟩ := split_field .right hd₂
  obtain rfl := seq_end hd₃
  obtain ⟨o, sign, rfl⟩ := exists_operator ho
  simp only [List.forall_mem_append] at hs
  obtain ⟨hs₁, -, hs₃, -⟩ := hs
  obtain ⟨left, rfl⟩ := exists_expression hs₁ hl
  obtain ⟨right, rfl⟩ := exists_expression hs₃ hr
  refine ⟨.binary left o sign right, ?_⟩
  rw [List.append_nil]
  rfl

theorem exists_binary (hs : ∀ n ∈ ns, n.IsPhrase)
    (h : rue.Produces Rule.binaryExpression.name (ns.map Node.label)) :
    ∃ p : Phrase α .expression, p.nodes f = [.rule f .binaryExpression ns] := by
  obtain ⟨p, hp, hd⟩ := derives_choice.mp (derives_of_produces rfl h)
  simp only [List.mem_cons, List.not_mem_nil, or_false] at hp
  rcases hp with rfl | rfl | rfl
  · exact exists_operation [.times, .divide, .remainder] hs hd
  · exact exists_operation [.plus, .minus] hs hd
  · exact exists_operation [.equal, .notEqual, .less, .atMost, .greater, .atLeast] hs hd

theorem exists_call (hs : ∀ n ∈ ns, n.IsPhrase)
    (h : rue.Produces Rule.callExpression.name (ns.map Node.label)) :
    ∃ p : Phrase α .expression, p.nodes f = [.rule f .callExpression ns] := by
  have hd := derives_ranked.mp (derives_of_produces rfl h)
  obtain ⟨name, ks₁, rfl, hd₁⟩ := split_name .function hd
  obtain ⟨ms, ks₂, rfl, hargs, hd₂⟩ := split_field .arguments hd₁
  obtain rfl := seq_end hd₂
  rw [List.append_nil] at hs ⊢
  obtain ⟨args, rfl⟩ := phrase_of_symbol .arguments nofun (List.forall_mem_cons.mp hs).2 rfl hargs
  exact ⟨.call name args, rfl⟩

theorem exists_arguments (hs : ∀ n ∈ ns, n.IsPhrase)
    (h : rue.Produces Rule.arguments.name (ns.map Node.label)) :
    ∃ p : Phrase α .arguments, p.nodes f = [.rule f .arguments ns] := by
  have hd := derives_of_produces rfl h
  obtain ⟨opening, ks₁, rfl, hd₁⟩ := split_literal (.mark .openParen) rfl hd
  obtain ⟨ms, ks₂, rfl, hes, hd₂⟩ := split_seq hd₁
  obtain ⟨closing, ks₃, rfl, hd₃⟩ := split_literal (.mark .closeParen) rfl hd₂
  obtain rfl := seq_end hd₃
  simp only [List.forall_mem_cons, List.forall_mem_append] at hs
  rcases derives_optional.mp hes with hes | hes
  · obtain ⟨es, rfl⟩ := exists_argumentList hs.2.1 hes
    exact ⟨.someArguments opening es closing, rfl⟩
  · obtain rfl := List.map_eq_nil_iff.mp hes
    exact ⟨.noArguments opening closing, rfl⟩

theorem exists_boolean (h : rue.Produces Rule.booleanLiteral.name (ns.map Node.label)) :
    ∃ p : Phrase α .expression, p.nodes f = [.rule f .booleanLiteral ns] := by
  obtain ⟨p, hp, hd⟩ := derives_choice.mp (derives_of_produces rfl h)
  simp only [List.mem_cons, List.not_mem_nil, or_false] at hp
  rcases hp with rfl | rfl
  · obtain ⟨word, rfl⟩ := token_of_literal (f := none) (.word .trueWord) rfl hd
    exact ⟨.boolean true word, rfl⟩
  · obtain ⟨word, rfl⟩ := token_of_literal (f := none) (.word .falseWord) rfl hd
    exact ⟨.boolean false word, rfl⟩

theorem exists_unit (h : rue.Produces Rule.unitLiteral.name (ns.map Node.label)) :
    ∃ p : Phrase α .expression, p.nodes f = [.rule f .unitLiteral ns] := by
  have hd := derives_of_produces rfl h
  obtain ⟨opening, ks₁, rfl, hd₁⟩ := split_literal (.mark .openParen) rfl hd
  obtain ⟨closing, ks₂, rfl, hd₂⟩ := split_literal (.mark .closeParen) rfl hd₁
  obtain rfl := seq_end hd₂
  exact ⟨.unit opening closing, rfl⟩

theorem exists_parenthesized (hs : ∀ n ∈ ns, n.IsPhrase)
    (h : rue.Produces Rule.parenthesizedExpression.name (ns.map Node.label)) :
    ∃ p : Phrase α .expression, p.nodes f = [.rule f .parenthesizedExpression ns] := by
  have hd := derives_of_produces rfl h
  obtain ⟨opening, ks₁, rfl, hd₁⟩ := split_literal (.mark .openParen) rfl hd
  obtain ⟨ms, ks₂, rfl, he, hd₂⟩ := split_seq hd₁
  obtain ⟨closing, ks₃, rfl, hd₃⟩ := split_literal (.mark .closeParen) rfl hd₂
  obtain rfl := seq_end hd₃
  simp only [List.forall_mem_cons, List.forall_mem_append] at hs
  obtain ⟨e, rfl⟩ := exists_expression (f := none) hs.2.1 he
  exact ⟨.parenthesized opening e closing, rfl⟩

end Phrase

/-- A node that conforms throughout is the node of a phrase. -/
theorem Node.isPhrase_of_every {n : Node α} (h : n.Every Node.Conforms) : n.IsPhrase := by
  induction h with
  | token => trivial
  | @rule f r ns h hs ih =>
    cases r with
    | sourceFile => exact Phrase.exists_functions ih (Grammar.derives_of_produces rfl h)
    | functionItem => exact Phrase.exists_function ih h
    | parameters => exact Phrase.exists_parameters ih h
    | parameter => exact Phrase.exists_parameter ih h
    | primitiveType => exact Phrase.exists_primitive h
    | block => exact Phrase.exists_block ih h
    | letStatement => exact Phrase.exists_letStatement ih h
    | assignmentStatement => exact Phrase.exists_assignment ih h
    | expressionStatement => exact Phrase.exists_expressionStatement ih h
    | ifExpression => exact Phrase.exists_conditional ih h
    | elseClause => exact Phrase.exists_elseClause ih h
    | whileExpression => exact Phrase.exists_whileLoop ih h
    | binaryExpression => exact Phrase.exists_binary ih h
    | callExpression => exact Phrase.exists_call ih h
    | arguments => exact Phrase.exists_arguments ih h
    | booleanLiteral => exact Phrase.exists_boolean h
    | unitLiteral => exact Phrase.exists_unit h
    | parenthesizedExpression => exact Phrase.exists_parenthesized ih h

end RueSyntax
