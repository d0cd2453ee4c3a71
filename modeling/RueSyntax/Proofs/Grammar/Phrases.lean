import RueSyntax.Proofs.Grammar.Conformance

/-!
# Conforming nodes are the nodes of phrases

The converse of conformance.  A label names one kind and one field only (`eq_token_of_label`,
`eq_rule_of_label`), so what the grammar derives can be read back part by part: a literal is a
token, a symbol is a node, a sequence is split where the grammar splits it.  Rule by rule this gives
a phrase with exactly the given nodes (`isPhrase_of_every`).
-/

namespace RueSyntax

/-! ### Labels -/

namespace Field

def all : List Field :=
  [alternative, arguments, body, condition, consequence, function, left, name, operator,
    parameters, returnType, right, type, value]

theorem mem_all (f : Field) : f ∈ all := by cases f <;> decide

theorem label_injective {f g : Field} (h : f.label = g.label) : f = g := by
  have hall : ∀ f ∈ all, ∀ g ∈ all, f.label = g.label → f = g := by decide +kernel
  exact hall f (mem_all f) g (mem_all g) h

theorem map_label_injective : Function.Injective (Option.map label) :=
  Option.map_injective fun _ _ => label_injective

/-- A label names the field that it is the label of. -/
theorem map_label_eq_some {g : Option Field} {f : Field} :
    g.map label = some f.label ↔ g = some f := map_label_injective.eq_iff (b := some f)

end Field

namespace Kind

/-- The kinds of node that are no comments. -/
def all : List Kind :=
  Terminal.all.map token ++
    [Rule.sourceFile, .functionItem, .parameters, .parameter, .primitiveType, .block,
      .letStatement, .assignmentStatement, .expressionStatement, .ifExpression, .elseClause,
      .whileExpression, .binaryExpression, .callExpression, .arguments, .booleanLiteral,
      .unitLiteral, .parenthesizedExpression].map rule

theorem mem_all_token (t : Terminal) : token t ∈ all := by
  cases t with
  | word k => cases k <;> decide
  | mark m => cases m <;> decide
  | operator o => cases o <;> decide
  | identifier => decide
  | integer => decide
  | unitType => decide

theorem mem_all_rule (r : Rule) : rule r ∈ all := by cases r <;> decide

theorem eq_of_name {k l : Kind} (hk : k ∈ all) (hl : l ∈ all) (hn : k.isNamed = l.isNamed)
    (h : k.name = l.name) : k = l := by
  have hall : ∀ k ∈ all, ∀ l ∈ all, k.isNamed = l.isNamed → k.name = l.name → k = l := by
    decide +kernel
  exact hall k hk l hl hn h

end Kind

variable {α : Type}

namespace Node

def field : Node α → Option Field
  | token f _ _ => f
  | rule f _ _ => f

def kind : Node α → Kind
  | token _ t _ => .token t
  | rule _ r _ => .rule r

theorem label_eq (n : Node α) :
    n.label = ⟨n.field.map Field.label, n.kind.name, n.kind.isNamed⟩ := by
  cases n <;> rfl

theorem kind_mem_all (n : Node α) : n.kind ∈ Kind.all := by
  cases n with
  | token f t a => exact Kind.mem_all_token t
  | rule f r ns => exact Kind.mem_all_rule r

/-- A label says the field and the kind. -/
theorem eq_of_label {n : Node α} {f : Option Field} {k : Kind} (hk : k ∈ Kind.all)
    (h : n.label = ⟨f.map Field.label, k.name, k.isNamed⟩) : n.field = f ∧ n.kind = k := by
  rw [label_eq, Label.mk.injEq] at h
  obtain ⟨hf, hn, hb⟩ := h
  exact ⟨Field.map_label_injective hf,
    Kind.eq_of_name n.kind_mem_all hk hb hn⟩

theorem eq_token_of_label {n : Node α} {f : Option Field} {t : Terminal}
    (h : n.label = ⟨f.map Field.label, t.name, t.isNamed⟩) : ∃ a, n = token f t a := by
  obtain ⟨hf, hk⟩ := eq_of_label (Kind.mem_all_token t) h
  cases n with
  | token f' t' a =>
    cases hf
    cases hk
    exact ⟨a, rfl⟩
  | rule f' r ns => cases hk

theorem eq_rule_of_label {n : Node α} {f : Option Field} {r : Rule}
    (h : n.label = ⟨f.map Field.label, r.name, true⟩) : ∃ ns, n = rule f r ns := by
  obtain ⟨hf, hk⟩ := eq_of_label (Kind.mem_all_rule r) h
  cases n with
  | token f' t a => cases hk
  | rule f' r' ns =>
    cases hf
    cases hk
    exact ⟨ns, rfl⟩

end Node

/-! ### Reading back what is derived -/

/-- The category of the phrases that a rule makes nodes of. -/
def Rule.category : Rule → Category
  | sourceFile => .functions
  | functionItem => .function
  | parameters => .parameters
  | parameter => .parameter
  | primitiveType => .type
  | block => .block
  | letStatement | assignmentStatement | expressionStatement => .statement
  | ifExpression => .conditional
  | elseClause => .elseClause
  | whileExpression | binaryExpression | callExpression | booleanLiteral | unitLiteral
  | parenthesizedExpression => .expression
  | arguments => .arguments

/-- The node is that of a phrase; the node of a file is around the nodes of its functions. -/
def Node.IsPhrase : Node α → Prop
  | token _ _ _ => True
  | rule _ .sourceFile ns => ∃ p : Phrase α .functions, p.nodes none = ns
  | rule f r ns => ∃ p : Phrase α r.category, p.nodes f = [rule f r ns]

namespace Grammar

variable {g : Grammar} {f : Option Field} {ns : List (Node α)}

theorem derives_of_produces {name : String} {p : Production} {ls : List Label}
    (hp : g.rules.lookup name = some p) (h : g.Produces name ls) : g.Derives none p ls := by
  obtain ⟨q, hq, h⟩ := h
  rw [hp, Option.some.injEq] at hq
  rwa [hq]

theorem nodes_of_label {l : Label} (h : ns.map Node.label = [l]) :
    ∃ n, ns = [n] ∧ n.label = l := by
  obtain ⟨n, ms, rfl, hn, hms⟩ := List.map_eq_cons_iff.mp h
  obtain rfl := List.map_eq_nil_iff.mp hms
  exact ⟨n, rfl, hn⟩

/-- A literal is a token. -/
theorem token_of_literal (t : Terminal) (ht : t.isNamed = false)
    (h : g.Derives (f.map Field.label) (.literal t.name) (ns.map Node.label)) :
    ∃ a, ns = [.token f t a] := by
  obtain ⟨n, rfl, hn⟩ := nodes_of_label (derives_literal.mp h)
  rw [← ht] at hn
  obtain ⟨a, rfl⟩ := Node.eq_token_of_label hn
  exact ⟨a, rfl⟩

/-- The symbol of a leaf is a token. -/
theorem token_of_symbol (t : Terminal) (ht : t.isNamed = true) (hv : isHiddenName t.name = false)
    (h : g.Derives (f.map Field.label) (.symbol t.name) (ns.map Node.label)) :
    ∃ a, ns = [.token f t a] := by
  obtain ⟨n, rfl, hn⟩ := nodes_of_label ((derives_visible hv).mp h)
  rw [← ht] at hn
  obtain ⟨a, rfl⟩ := Node.eq_token_of_label hn
  exact ⟨a, rfl⟩

/-- The symbol of a rule is the node of a phrase. -/
theorem phrase_of_symbol (r : Rule) (hr : r ≠ .sourceFile) (hs : ∀ n ∈ ns, n.IsPhrase)
    (hv : isHiddenName r.name = false)
    (h : g.Derives (f.map Field.label) (.symbol r.name) (ns.map Node.label)) :
    ∃ p : Phrase α r.category, p.nodes f = ns := by
  obtain ⟨n, rfl, hn⟩ := nodes_of_label ((derives_visible hv).mp h)
  obtain ⟨ms, rfl⟩ := Node.eq_rule_of_label hn
  have hp := hs _ (List.mem_singleton.mpr rfl)
  cases r with
  | sourceFile => exact (hr rfl).elim
  | _ => exact hp

theorem split_seq {fl : Option String} {p : Production} {ps : List Production}
    (h : g.Derives fl (.seq (p :: ps)) (ns.map Node.label)) :
    ∃ ms ks, ns = ms ++ ks ∧ g.Derives fl p (ms.map Node.label) ∧
      g.Derives fl (.seq ps) (ks.map Node.label) := by
  obtain ⟨ls₁, ls₂, hl, h₁, h₂⟩ := derives_seq_cons.mp h
  obtain ⟨ms, ks, rfl, rfl, rfl⟩ := List.map_eq_append_iff.mp hl
  exact ⟨ms, ks, rfl, h₁, h₂⟩

theorem seq_end {fl : Option String} (h : g.Derives fl (.seq []) (ns.map Node.label)) : ns = [] :=
  List.map_eq_nil_iff.mp (derives_seq_nil.mp h)

/-- A sequence that begins with a literal begins with a token. -/
theorem split_literal (t : Terminal) (ht : t.isNamed = false) {ps : List Production}
    (h : g.Derives none (.seq (.literal t.name :: ps)) (ns.map Node.label)) :
    ∃ a ks, ns = .token none t a :: ks ∧ g.Derives none (.seq ps) (ks.map Node.label) := by
  obtain ⟨ms, ks, rfl, h₁, h₂⟩ := split_seq h
  obtain ⟨a, rfl⟩ := token_of_literal (f := none) t ht h₁
  exact ⟨a, ks, rfl, h₂⟩

/-- A sequence that begins with a name in a field. -/
theorem split_name (fd : Field) {ps : List Production}
    (h : g.Derives none (.seq (.field fd.label (.symbol "identifier") :: ps))
      (ns.map Node.label)) :
    ∃ a ks, ns = .token (some fd) .identifier a :: ks ∧
      g.Derives none (.seq ps) (ks.map Node.label) := by
  obtain ⟨ms, ks, rfl, h₁, h₂⟩ := split_seq h
  obtain ⟨a, rfl⟩ := token_of_symbol (f := some fd) .identifier rfl rfl (derives_field.mp h₁)
  exact ⟨a, ks, rfl, h₂⟩

/-- A sequence that begins with a field. -/
theorem split_field (fd : Field) {p : Production} {ps : List Production}
    (h : g.Derives none (.seq (.field fd.label p :: ps)) (ns.map Node.label)) :
    ∃ ms ks, ns = ms ++ ks ∧ g.Derives ((some fd).map Field.label) p (ms.map Node.label) ∧
      g.Derives none (.seq ps) (ks.map Node.label) := by
  obtain ⟨ms, ks, rfl, h₁, h₂⟩ := split_seq h
  exact ⟨ms, ks, rfl, derives_field.mp h₁, h₂⟩

/-- Induction over a repetition, which grows at its end. -/
theorem repetition_induction {fl : Option String} {p : Production} {M : List (Node α) → Prop}
    (none : M [])
    (more : ∀ ms ks, M ms → (∀ n ∈ ks, n.IsPhrase) → g.Derives fl p (ks.map Node.label) →
      M (ms ++ ks))
    (hs : ∀ n ∈ ns, n.IsPhrase)
    (h : g.Derives fl (.repetition false p) (ns.map Node.label)) : M ns := by
  generalize hq : Production.repetition false p = q at h
  generalize hl : ns.map Node.label = ls at h
  induction h generalizing ns with
  | repeatNone =>
    obtain rfl := List.map_eq_nil_iff.mp hl
    exact none
  | repeatMore hr h ih =>
    cases hq
    obtain ⟨ms, ks, rfl, rfl, rfl⟩ := List.map_eq_append_iff.mp hl
    obtain ⟨hms, hks⟩ := List.forall_mem_append.mp hs
    exact more ms ks (ih more hms rfl rfl) hks h
  | blank => cases hq
  | literal => cases hq
  | visible => cases hq
  | hidden => cases hq
  | seqNil => cases hq
  | seqCons => cases hq
  | choice => cases hq
  | field => cases hq
  | ranked => cases hq

/-- Induction over a list with commas. -/
theorem commaSeparated_induction {p : Production} {M : List (Node α) → Prop}
    (one : ∀ ks, (∀ n ∈ ks, n.IsPhrase) → g.Derives none p (ks.map Node.label) → M ks)
    (more : ∀ ms a ks, M ms → (∀ n ∈ ks, n.IsPhrase) → g.Derives none p (ks.map Node.label) →
      M (ms ++ .token none (.mark .comma) a :: ks))
    (hs : ∀ n ∈ ns, n.IsPhrase)
    (h : g.Derives none (commaSeparated p) (ns.map Node.label)) : M ns := by
  obtain ⟨ms, ks, rfl, hm, h⟩ := split_seq h
  obtain ⟨ks, js, rfl, hk, h⟩ := split_seq h
  obtain rfl := seq_end h
  rw [List.append_nil] at hs ⊢
  obtain ⟨hms, hks⟩ := List.forall_mem_append.mp hs
  refine repetition_induction (M := fun ks => M (ms ++ ks)) ?_ ?_ hks hk
  · rw [List.append_nil]
    exact one ms hms hm
  · intro ks js hks hjs hj
    obtain ⟨a, is, rfl, hi⟩ := split_literal (.mark .comma) rfl hj
    obtain ⟨is, hs, rfl, hp, hend⟩ := split_seq hi
    obtain rfl := seq_end hend
    obtain ⟨-, his⟩ := List.forall_mem_cons.mp hjs
    rw [List.append_nil] at his ⊢
    rw [← List.append_assoc]
    exact more _ a is hks his hp

end Grammar

/-! ### Category by category -/

namespace Phrase

open Grammar

variable {f : Option Field} {ns : List (Node α)}

theorem exists_type (hs : ∀ n ∈ ns, n.IsPhrase)
    (h : rue.Derives (f.map Field.label) (.symbol "_type") (ns.map Node.label)) :
    ∃ ty : Phrase α .type, ty.nodes f = ns := by
  obtain ⟨p, hp, h⟩ := derives_choice.mp ((derives_hidden rfl rfl).mp h)
  simp only [List.mem_cons, List.not_mem_nil, or_false] at hp
  rcases hp with rfl | rfl
  · exact phrase_of_symbol .primitiveType nofun hs rfl h
  · obtain ⟨a, rfl⟩ := token_of_symbol .unitType rfl rfl h
    exact ⟨.unitType a, rfl⟩

theorem exists_primary (hs : ∀ n ∈ ns, n.IsPhrase)
    (h : rue.Derives (f.map Field.label) (.symbol "_primary_expression") (ns.map Node.label)) :
    ∃ e : Phrase α .expression, e.nodes f = ns := by
  obtain ⟨p, hp, h⟩ := derives_choice.mp ((derives_hidden rfl rfl).mp h)
  simp only [List.mem_cons, List.not_mem_nil, or_false] at hp
  rcases hp with rfl | rfl | rfl | rfl | rfl
  · obtain ⟨a, rfl⟩ := token_of_symbol .identifier rfl rfl h
    exact ⟨.reference a, rfl⟩
  · obtain ⟨a, rfl⟩ := token_of_symbol .integer rfl rfl h
    exact ⟨.integer a, rfl⟩
  · exact phrase_of_symbol .booleanLiteral nofun hs rfl h
  · exact phrase_of_symbol .unitLiteral nofun hs rfl h
  · exact phrase_of_symbol .parenthesizedExpression nofun hs rfl h

theorem exists_expression (hs : ∀ n ∈ ns, n.IsPhrase)
    (h : rue.Derives (f.map Field.label) (.symbol "_expression") (ns.map Node.label)) :
    ∃ e : Phrase α .expression, e.nodes f = ns := by
  obtain ⟨p, hp, h⟩ := derives_choice.mp ((derives_hidden rfl rfl).mp h)
  simp only [List.mem_cons, List.not_mem_nil, or_false] at hp
  rcases hp with rfl | rfl | rfl | rfl | rfl
  · obtain ⟨c, hc⟩ := phrase_of_symbol .ifExpression nofun hs rfl h
    exact ⟨.ifExpression c, hc⟩
  · exact phrase_of_symbol .whileExpression nofun hs rfl h
  · exact phrase_of_symbol .binaryExpression nofun hs rfl h
  · exact phrase_of_symbol .callExpression nofun hs rfl h
  · exact exists_primary hs h

theorem exists_statement (hs : ∀ n ∈ ns, n.IsPhrase)
    (h : rue.Derives none (.symbol "_statement") (ns.map Node.label)) :
    ∃ s : Phrase α .statement, s.nodes none = ns := by
  obtain ⟨p, hp, h⟩ := derives_choice.mp ((derives_hidden rfl rfl).mp h)
  simp only [List.mem_cons, List.not_mem_nil, or_false] at hp
  rcases hp with rfl | rfl | rfl
  · exact phrase_of_symbol (f := none) .letStatement nofun hs rfl h
  · exact phrase_of_symbol (f := none) .assignmentStatement nofun hs rfl h
  · exact phrase_of_symbol (f := none) .expressionStatement nofun hs rfl h

theorem exists_functions (hs : ∀ n ∈ ns, n.IsPhrase)
    (h : rue.Derives none (.repetition false (.symbol "function_item")) (ns.map Node.label)) :
    ∃ fs : Phrase α .functions, fs.nodes none = ns := by
  refine repetition_induction (M := fun ns => ∃ fs : Phrase α .functions, fs.nodes none = ns)
    ⟨.noFunctions, rfl⟩ ?_ hs h
  rintro _ ks ⟨fs, rfl⟩ hks hk
  obtain ⟨g, rfl⟩ := phrase_of_symbol (f := none) .functionItem nofun hks rfl hk
  exact ⟨.moreFunctions fs g, rfl⟩

theorem exists_statements (hs : ∀ n ∈ ns, n.IsPhrase)
    (h : rue.Derives none (.repetition false (.symbol "_statement")) (ns.map Node.label)) :
    ∃ ss : Phrase α .statements, ss.nodes none = ns := by
  refine repetition_induction (M := fun ns => ∃ ss : Phrase α .statements, ss.nodes none = ns)
    ⟨.noStatements, rfl⟩ ?_ hs h
  rintro _ ks ⟨ss, rfl⟩ hks hk
  obtain ⟨s, rfl⟩ := exists_statement hks hk
  exact ⟨.moreStatements ss s, rfl⟩

theorem exists_parameterList (hs : ∀ n ∈ ns, n.IsPhrase)
    (h : rue.Derives none (commaSeparated (.symbol "parameter")) (ns.map Node.label)) :
    ∃ ps : Phrase α .parameterList, ps.nodes none = ns := by
  refine commaSeparated_induction
    (M := fun ns => ∃ ps : Phrase α .parameterList, ps.nodes none = ns) ?_ ?_ hs h
  · intro ks hks hk
    obtain ⟨p, rfl⟩ := phrase_of_symbol (f := none) .parameter nofun hks rfl hk
    exact ⟨.oneParameter p, rfl⟩
  · rintro _ a ks ⟨ps, rfl⟩ hks hk
    obtain ⟨p, rfl⟩ := phrase_of_symbol (f := none) .parameter nofun hks rfl hk
    exact ⟨.moreParameters ps a p, rfl⟩

theorem exists_argumentList (hs : ∀ n ∈ ns, n.IsPhrase)
    (h : rue.Derives none (commaSeparated (.symbol "_expression")) (ns.map Node.label)) :
    ∃ es : Phrase α .argumentList, es.nodes none = ns := by
  refine commaSeparated_induction
    (M := fun ns => ∃ es : Phrase α .argumentList, es.nodes none = ns) ?_ ?_ hs h
  · intro ks hks hk
    obtain ⟨e, rfl⟩ := exists_expression (f := none) hks hk
    exact ⟨.oneArgument e, rfl⟩
  · rintro _ a ks ⟨es, rfl⟩ hks hk
    obtain ⟨e, rfl⟩ := exists_expression (f := none) hks hk
    exact ⟨.moreArguments es a e, rfl⟩

end Phrase

end RueSyntax
