import RueSyntax.Proofs.Grammar.Derivation
import RueSyntax.Proofs.Tree.LayoutFree

/-!
# Trees conform to the grammar

A node conforms if the grammar's rule for its kind derives the fields and kinds of its children.
Every phrase is made of conforming nodes: a category stands for a production (`Category.production`)
that derives what its phrases show to the node around them (`derives_nodes`), and the nodes that a
phrase makes conform one by one (`every_conforms`).  So the tree of every accepted text conforms
when its comments are left out.
-/

namespace RueSyntax

variable {α : Type}

namespace Node

/-- What a node is to its parent. -/
def label : Node α → Label
  | token f t _ => ⟨f.map Field.label, t.name, t.isNamed⟩
  | rule f r _ => ⟨f.map Field.label, r.name, true⟩

/-- The rule of a node derives its children; tokens have none. -/
def Conforms : Node α → Prop
  | token _ _ _ => True
  | rule _ r ns => Grammar.rue.Produces r.name (ns.map label)

section

variable (f : Option Field) (a : α)

@[simp] theorem label_word (k : Keyword) :
    (token f (.word k) a).label = ⟨f.map Field.label, k.spelling, false⟩ := rfl

@[simp] theorem label_mark (m : Mark) :
    (token f (.mark m) a).label = ⟨f.map Field.label, m.spelling, false⟩ := rfl

@[simp] theorem label_operator (o : Operator) :
    (token f (.operator o) a).label = ⟨f.map Field.label, o.spelling, false⟩ := rfl

@[simp] theorem label_identifier :
    (token f .identifier a).label = ⟨f.map Field.label, "identifier", true⟩ := rfl

@[simp] theorem label_integer :
    (token f .integer a).label = ⟨f.map Field.label, "integer_literal", true⟩ := rfl

@[simp] theorem label_unitType :
    (token f .unitType a).label = ⟨f.map Field.label, "unit_type", true⟩ := rfl

@[simp] theorem label_rule (r : Rule) (ns : List (Node α)) :
    (rule f r ns).label = ⟨f.map Field.label, r.name, true⟩ := rfl

end

/-- The node and all below it have the property. -/
inductive Every (P : Node α → Prop) : Node α → Prop
  | token {f : Option Field} {t : Terminal} {a : α} (h : P (.token f t a)) :
    Every P (.token f t a)
  | rule {f : Option Field} {r : Rule} {ns : List (Node α)} (h : P (.rule f r ns))
    (hs : ∀ n ∈ ns, Every P n) : Every P (.rule f r ns)

/-- The nodes and all below them have the property. -/
def EveryOf (P : Node α → Prop) (ns : List (Node α)) : Prop := ∀ n ∈ ns, n.Every P

variable {P : Node α → Prop}

@[simp] theorem every_token {f : Option Field} {t : Terminal} {a : α} :
    (token f t a).Every P ↔ P (token f t a) := by
  constructor
  · intro h
    cases h with
    | token h => exact h
  · exact .token

theorem every_rule {f : Option Field} {r : Rule} {ns : List (Node α)} :
    (rule f r ns).Every P ↔ P (rule f r ns) ∧ EveryOf P ns := by
  constructor
  · intro h
    cases h with
    | rule h hs => exact ⟨h, hs⟩
  · rintro ⟨h, hs⟩
    exact .rule h hs

@[simp] theorem everyOf_nil : EveryOf P [] := fun _ hn => (List.not_mem_nil hn).elim

@[simp] theorem everyOf_cons {n : Node α} {ns : List (Node α)} :
    EveryOf P (n :: ns) ↔ n.Every P ∧ EveryOf P ns := List.forall_mem_cons

@[simp] theorem everyOf_append {ns ms : List (Node α)} :
    EveryOf P (ns ++ ms) ↔ EveryOf P ns ∧ EveryOf P ms := List.forall_mem_append

theorem everyOf_singleton {n : Node α} : EveryOf P [n] ↔ n.Every P := by
  rw [everyOf_cons]
  exact and_iff_left everyOf_nil

theorem Every.self {n : Node α} (h : n.Every P) : P n := by
  cases h with
  | token h => exact h
  | rule h hs => exact h

end Node

/-! ### What a phrase shows to the node around it -/

namespace Category

open Production

/-- What the grammar calls a category. -/
def production : Category → Production
  | functions => repetition false (symbol "function_item")
  | function => symbol "function_item"
  | parameters => symbol "parameters"
  | parameterList => Grammar.commaSeparated (symbol "parameter")
  | parameter => symbol "parameter"
  | type => symbol "_type"
  | block => symbol "block"
  | statements => repetition false (symbol "_statement")
  | statement => symbol "_statement"
  | expression => symbol "_expression"
  | conditional => symbol "if_expression"
  | elseClause => symbol "else_clause"
  | arguments => symbol "arguments"
  | argumentList => Grammar.commaSeparated (symbol "_expression")

/-- The field of the nodes of a phrase that is put into the field `f`: a sequence has none. -/
def fieldIn (f : Option Field) : Category → Option Field
  | functions | parameterList | statements | argumentList => none
  | _ => f

end Category

namespace Grammar

variable {f : Option String}

/-- A hidden rule that is a choice of symbols derives what any of them does. -/
theorem derives_hidden_choice {name k : String} {names : List String} {ls : List Label}
    (hn : isHiddenName name = true)
    (hp : rue.rules.lookup name = some (.choice (names.map .symbol))) (hk : k ∈ names)
    (h : rue.Derives f (.symbol k) ls) : rue.Derives f (.symbol name) ls :=
  .hidden hn hp (.choice (List.mem_map_of_mem hk) h)

theorem derives_type {k : String} (hk : k ∈ ["primitive_type", "unit_type"])
    (hv : isHiddenName k = false) : rue.Derives f (.symbol "_type") [⟨f, k, true⟩] :=
  derives_hidden_choice rfl rfl hk (.visible hv)

theorem derives_statement {k : String}
    (hk : k ∈ ["let_statement", "assignment_statement", "expression_statement"])
    (hv : isHiddenName k = false) : rue.Derives f (.symbol "_statement") [⟨f, k, true⟩] :=
  derives_hidden_choice rfl rfl hk (.visible hv)

theorem derives_expression {k : String} {ls : List Label}
    (hk : k ∈ ["if_expression", "while_expression", "binary_expression", "call_expression",
      "_primary_expression"])
    (h : rue.Derives f (.symbol k) ls) : rue.Derives f (.symbol "_expression") ls :=
  derives_hidden_choice rfl rfl hk h

theorem derives_primary {k : String}
    (hk : k ∈ ["identifier", "integer_literal", "boolean_literal", "unit_literal",
      "parenthesized_expression"])
    (hv : isHiddenName k = false) : rue.Derives f (.symbol "_expression") [⟨f, k, true⟩] := by
  have hp : rue.Derives f (.symbol "_primary_expression") [⟨f, k, true⟩] :=
    derives_hidden_choice rfl rfl hk (.visible hv)
  exact derives_expression (by simp) hp

/-- Each operator is among those of a binary operation of its level. -/
theorem operation_of_operator (o : Operator) :
    ∃ n os, operation n os ∈ [operation 3 ["*", "/", "%"], operation 2 ["+", "-"],
        operation 1 ["==", "!=", "<", "<=", ">", ">="]] ∧
      Production.literal o.spelling ∈ os.map Production.literal := by
  cases o with
  | times | divide | remainder => exact ⟨3, ["*", "/", "%"], by simp, by simp [Operator.spelling]⟩
  | plus | minus => exact ⟨2, ["+", "-"], by simp, by simp [Operator.spelling]⟩
  | equal | notEqual | less | atMost | greater | atLeast =>
    exact ⟨1, ["==", "!=", "<", "<=", ">", ">="], by simp, by simp [Operator.spelling]⟩

end Grammar

namespace Phrase

open Grammar

/-- The production of its category derives the nodes of a phrase. -/
theorem derives_nodes {c : Category} (p : Phrase α c) (f : Option Field) :
    rue.Derives ((c.fieldIn f).map Field.label) c.production ((p.nodes f).map Node.label) := by
  induction p generalizing f with
  | noFunctions => exact .repeatNone
  | moreFunctions fs g ihs ih =>
    rw [nodes, List.map_append]
    exact .repeatMore (ihs none) (ih none)
  | function => exact .visible rfl
  | noParameters => exact .visible rfl
  | someParameters => exact .visible rfl
  | oneParameter p ih => exact derives_commaSeparated_one (ih none)
  | moreParameters ps comma p ihs ih =>
    rw [nodes, List.map_append]
    exact derives_commaSeparated_more (ihs none) (ih none)
  | parameter => exact .visible rfl
  | primitive => exact derives_type (by simp [Rule.name]) rfl
  | unitType => exact derives_type (by simp [Terminal.name]) rfl
  | block => exact .visible rfl
  | blockWithValue => exact .visible rfl
  | noStatements => exact .repeatNone
  | moreStatements ss s ihs ih =>
    rw [nodes, List.map_append]
    exact .repeatMore (ihs none) (ih none)
  | letStatement => exact derives_statement (by simp [Rule.name]) rfl
  | assignment => exact derives_statement (by simp [Rule.name]) rfl
  | expressionStatement => exact derives_statement (by simp [Rule.name]) rfl
  | reference => exact derives_primary (by simp [Terminal.name]) rfl
  | integer => exact derives_primary (by simp [Terminal.name]) rfl
  | boolean => exact derives_primary (by simp [Rule.name]) rfl
  | unit => exact derives_primary (by simp [Rule.name]) rfl
  | parenthesized => exact derives_primary (by simp [Rule.name]) rfl
  | call => exact derives_expression (by simp [Rule.name]) (.visible rfl)
  | binary => exact derives_expression (by simp [Rule.name]) (.visible rfl)
  | ifExpression c ih =>
    rw [nodes]
    exact derives_expression (by simp) (ih f)
  | whileLoop => exact derives_expression (by simp [Rule.name]) (.visible rfl)
  | ifThen => exact .visible rfl
  | ifElse => exact .visible rfl
  | elseBlock => exact .visible rfl
  | elseIf => exact .visible rfl
  | noArguments => exact .visible rfl
  | someArguments => exact .visible rfl
  | oneArgument e ih => exact derives_commaSeparated_one (ih none)
  | moreArguments es comma e ihs ih =>
    rw [nodes, List.map_append]
    exact derives_commaSeparated_more (ihs none) (ih none)

/-- One rule node, by what its rule derives and by its children. -/
theorem everyOf_rule {f : Option Field} {r : Rule} {ns : List (Node α)} {p : Production}
    {ls : List Label} (hp : rue.rules.lookup r.name = some p) (h : rue.Derives none p ls)
    (hl : ls = ns.map Node.label) (hs : Node.EveryOf Node.Conforms ns) :
    Node.EveryOf Node.Conforms [.rule f r ns] := by
  subst hl
  exact Node.everyOf_singleton.mpr (Node.every_rule.mpr ⟨⟨p, hp, h⟩, hs⟩)

/-- The nodes that a phrase makes conform. -/
theorem every_conforms {c : Category} (p : Phrase α c) (f : Option Field) :
    Node.EveryOf Node.Conforms (p.nodes f) := by
  induction p generalizing f with
  | noFunctions => exact Node.everyOf_nil
  | moreFunctions fs g ihs ih =>
    rw [nodes, Node.everyOf_append]
    exact ⟨ihs none, ih none⟩
  | function word name ps arrow ty body ihs iht ihb =>
    refine everyOf_rule rfl (.seqCons .literal (.seqCons (.field (.visible rfl))
      (.seqCons (.field (ps.derives_nodes (some .parameters))) (.seqCons .literal
        (.seqCons (.field (ty.derives_nodes (some .returnType)))
          (.seqCons (.field (body.derives_nodes (some .body))) .seqNil)))))) ?_ ?_
    · simp [Keyword.spelling, Mark.spelling, Field.label]
    · simp [Node.Conforms, ihs, iht, ihb]
  | noParameters opening closing =>
    refine everyOf_rule rfl (.seqCons .literal (.seqCons (derives_optional.mpr (.inr rfl))
      (.seqCons .literal .seqNil))) ?_ ?_
    · simp [Mark.spelling]
    · simp [Node.Conforms]
  | someParameters opening ps closing ih =>
    refine everyOf_rule rfl (.seqCons .literal
      (.seqCons (derives_optional.mpr (.inl (ps.derives_nodes none)))
        (.seqCons .literal .seqNil))) ?_ ?_
    · simp [Mark.spelling]
    · simp [Node.Conforms, ih]
  | oneParameter p ih => exact ih none
  | moreParameters ps comma p ihs ih =>
    rw [nodes, Node.everyOf_append, Node.everyOf_cons]
    exact ⟨ihs none, Node.every_token.mpr trivial, ih none⟩
  | parameter name colon ty ih =>
    refine everyOf_rule rfl (.seqCons (.field (.visible rfl)) (.seqCons .literal
      (.seqCons (.field (ty.derives_nodes (some .type))) .seqNil))) ?_ ?_
    · simp [Mark.spelling, Field.label]
    · simp [Node.Conforms, ih]
  | primitive p word =>
    refine everyOf_rule rfl (.choice (p := .literal p.keyword.spelling) ?_ .literal) ?_ ?_
    · cases p <;> simp [Primitive.keyword, Keyword.spelling]
    · simp
    · simp [Node.Conforms]
  | unitType sign => simp [nodes, Node.Conforms]
  | block opening ss closing ih =>
    refine everyOf_rule rfl (.seqCons .literal (.seqCons (ss.derives_nodes none)
      (.seqCons (derives_optional.mpr (.inr rfl)) (.seqCons .literal .seqNil)))) ?_ ?_
    · simp [Mark.spelling]
    · simp [Node.Conforms, ih]
  | blockWithValue opening ss value closing ihs ih =>
    refine everyOf_rule rfl (.seqCons .literal (.seqCons (ss.derives_nodes none)
      (.seqCons (derives_optional.mpr (.inl (value.derives_nodes none)))
        (.seqCons .literal .seqNil)))) ?_ ?_
    · simp [Mark.spelling]
    · simp [Node.Conforms, ihs, ih]
  | noStatements => exact Node.everyOf_nil
  | moreStatements ss s ihs ih =>
    rw [nodes, Node.everyOf_append]
    exact ⟨ihs none, ih none⟩
  | letStatement word name colon ty equals value semicolon iht ihv =>
    refine everyOf_rule rfl (.seqCons .literal (.seqCons (.field (.visible rfl)) (.seqCons .literal
      (.seqCons (.field (ty.derives_nodes (some .type))) (.seqCons .literal
        (.seqCons (.field (value.derives_nodes (some .value)))
          (.seqCons .literal .seqNil))))))) ?_ ?_
    · simp [Keyword.spelling, Mark.spelling, Field.label]
    · simp [Node.Conforms, iht, ihv]
  | assignment name equals value semicolon ih =>
    refine everyOf_rule rfl (.seqCons (.field (.visible rfl)) (.seqCons .literal
      (.seqCons (.field (value.derives_nodes (some .value))) (.seqCons .literal .seqNil)))) ?_ ?_
    · simp [Mark.spelling, Field.label]
    · simp [Node.Conforms, ih]
  | expressionStatement e semicolon ih =>
    refine everyOf_rule rfl (.seqCons (e.derives_nodes none) (.seqCons .literal .seqNil)) ?_ ?_
    · simp [Mark.spelling]
    · simp [Node.Conforms, ih]
  | reference name => simp [nodes, Node.Conforms]
  | integer digits => simp [nodes, Node.Conforms]
  | boolean value word =>
    refine everyOf_rule rfl (.choice (p := .literal (truthWord value).spelling) ?_ .literal) ?_ ?_
    · cases value <;> simp [truthWord, Keyword.spelling]
    · simp
    · simp [Node.Conforms]
  | unit opening closing =>
    refine everyOf_rule rfl (.seqCons .literal (.seqCons .literal .seqNil)) ?_ ?_
    · simp [Mark.spelling]
    · simp [Node.Conforms]
  | parenthesized opening e closing ih =>
    refine everyOf_rule rfl (.seqCons .literal (.seqCons (e.derives_nodes none)
      (.seqCons .literal .seqNil))) ?_ ?_
    · simp [Mark.spelling]
    · simp [Node.Conforms, ih]
  | call name args ih =>
    refine everyOf_rule rfl (.ranked (.seqCons (.field (.visible rfl))
      (.seqCons (.field (args.derives_nodes (some .arguments))) .seqNil))) ?_ ?_
    · simp [Field.label]
    · simp [Node.Conforms, ih]
  | binary left o sign right ihl ihr =>
    obtain ⟨n, os, hos, ho⟩ := operation_of_operator o
    refine everyOf_rule rfl (.choice hos (.ranked (.seqCons
      (.field (left.derives_nodes (some .left))) (.seqCons (.field (.choice ho .literal))
        (.seqCons (.field (right.derives_nodes (some .right))) .seqNil))))) ?_ ?_
    · simp [Field.label]
    · simp [Node.Conforms, ihl, ihr]
  | ifExpression c ih => exact ih f
  | whileLoop word condition body ihc ihb =>
    refine everyOf_rule rfl (.ranked (.seqCons .literal
      (.seqCons (.field (condition.derives_nodes (some .condition)))
        (.seqCons (.field (body.derives_nodes (some .body))) .seqNil)))) ?_ ?_
    · simp [Keyword.spelling]
    · simp [Node.Conforms, ihc, ihb]
  | ifThen word condition body ihc ihb =>
    refine everyOf_rule rfl (.ranked (.seqCons .literal
      (.seqCons (.field (condition.derives_nodes (some .condition)))
        (.seqCons (.field (body.derives_nodes (some .consequence)))
          (.seqCons (derives_optional.mpr (.inr rfl)) .seqNil))))) ?_ ?_
    · simp [Keyword.spelling]
    · simp [Node.Conforms, ihc, ihb]
  | ifElse word condition body rest ihc ihb ihr =>
    refine everyOf_rule rfl (.ranked (.seqCons .literal
      (.seqCons (.field (condition.derives_nodes (some .condition)))
        (.seqCons (.field (body.derives_nodes (some .consequence)))
          (.seqCons (derives_optional.mpr
            (.inl (.field (rest.derives_nodes (some .alternative))))) .seqNil))))) ?_ ?_
    · simp [Keyword.spelling]
    · simp [Node.Conforms, ihc, ihb, ihr]
  | elseBlock word body ih =>
    refine everyOf_rule rfl (.seqCons .literal
      (.seqCons (.choice (p := .symbol "block") (by simp) (body.derives_nodes none)) .seqNil)) ?_ ?_
    · simp [Keyword.spelling]
    · simp [Node.Conforms, ih]
  | elseIf word c ih =>
    refine everyOf_rule rfl (.seqCons .literal
      (.seqCons (.choice (p := .symbol "if_expression") (by simp) (c.derives_nodes none))
        .seqNil)) ?_ ?_
    · simp [Keyword.spelling]
    · simp [Node.Conforms, ih]
  | noArguments opening closing =>
    refine everyOf_rule rfl (.seqCons .literal (.seqCons (derives_optional.mpr (.inr rfl))
      (.seqCons .literal .seqNil))) ?_ ?_
    · simp [Mark.spelling]
    · simp [Node.Conforms]
  | someArguments opening es closing ih =>
    refine everyOf_rule rfl (.seqCons .literal
      (.seqCons (derives_optional.mpr (.inl (es.derives_nodes none)))
        (.seqCons .literal .seqNil))) ?_ ?_
    · simp [Mark.spelling]
    · simp [Node.Conforms, ih]
  | oneArgument e ih => exact ih none
  | moreArguments es comma e ihs ih =>
    rw [nodes, Node.everyOf_append, Node.everyOf_cons]
    exact ⟨ihs none, Node.every_token.mpr trivial, ih none⟩

theorem conforms_file (fs : Phrase α .functions) :
    (Node.rule none .sourceFile (fs.nodes none)).Every Node.Conforms :=
  Node.everyOf_singleton.mp
    (everyOf_rule rfl (fs.derives_nodes none) rfl (fs.every_conforms none))

end Phrase

/-! ### Trees -/

namespace Tree

/-- What a node of a tree is to its parent. -/
def label (t : Tree) : Label := ⟨t.field.map Field.label, t.kind.name, t.isNamed⟩

def isComment : Tree → Bool
  | comment _ => true
  | _ => false

/-- The node has a rule, the rule derives the children that are no comments, and the comments have
no field. -/
def Conforms : Tree → Prop
  | rule _ r _ ts =>
    Grammar.rue.Produces r.name ((ts.filter fun t => !t.isComment).map label) ∧
      ∀ t ∈ ts, t.isComment = true → t.field = none
  | _ => True

theorem label_bares (ts : List Tree) :
    (bares ts).map Node.label = (ts.filter fun t => !t.isComment).map label := by
  induction ts with
  | nil => rfl
  | cons t ts ih =>
    cases t with
    | token f k w s => exact congrArg _ ih
    | comment c => exact ih
    | rule f r s us => exact congrArg _ ih

theorem field_of_isComment {t : Tree} (h : t.isComment = true) : t.field = none := by
  cases t with
  | token => cases h
  | comment => rfl
  | rule => cases h

mutual

/-- A tree conforms throughout if what is left without comments does. -/
theorem conforms_descendants : ∀ (t : Tree) (depth : Nat),
    Node.EveryOf Node.Conforms t.bare.toList → ∀ d ∈ t.descendants depth, d.2.Conforms
  | token f k w s, depth, _ => by
    intro d hd
    obtain rfl := List.mem_singleton.mp hd
    trivial
  | comment c, depth, _ => by
    intro d hd
    obtain rfl := List.mem_singleton.mp hd
    trivial
  | rule f r s ts, depth, h => by
    obtain ⟨hr, hs⟩ := Node.every_rule.mp (Node.everyOf_singleton.mp h)
    intro d hd
    rw [descendants, List.mem_cons] at hd
    rcases hd with rfl | hd
    · have hp : Grammar.rue.Produces r.name ((bares ts).map Node.label) := hr
      rw [label_bares] at hp
      exact ⟨hp, fun t _ => field_of_isComment⟩
    · exact conforms_descendantsOf ts (depth + 1) hs d hd

theorem conforms_descendantsOf : ∀ (ts : List Tree) (depth : Nat),
    Node.EveryOf Node.Conforms (bares ts) → ∀ d ∈ descendantsOf depth ts, d.2.Conforms
  | [], depth, _ => by
    intro d hd
    cases hd
  | t :: ts, depth, h => by
    obtain ⟨ht, hts⟩ := Node.everyOf_append.mp h
    intro d hd
    rcases List.mem_append.mp hd with hd | hd
    · exact conforms_descendants t depth ht d hd
    · exact conforms_descendantsOf ts depth hts d hd

end

end Tree

/-- The tree of an accepted text is a file, and every node in it conforms to the grammar. -/
theorem parseTree_conforms {text : Bytes} {t : Tree} (h : parseTree text = .ok t) :
    t.kind = .rule .sourceFile ∧ t.field = none ∧ ∀ d ∈ t.descendants 0, d.2.Conforms := by
  obtain ⟨s, -, rfl⟩ := parse_of_parseTree h
  refine ⟨rfl, rfl, Tree.conforms_descendants s.tree 0 ?_⟩
  rw [s.bare_tree, Option.toList_some]
  exact Node.everyOf_singleton.mpr s.texts.conforms_file

/-- A sum with a comment in it conforms. -/
theorem parseTree_conforms_sum :
    ∃ t, parseTree (Bytes.ofString "fn f(a:i32)->i32\x7ba+/*one*/1\x7d") = .ok t ∧
      t.kind = .rule .sourceFile ∧ t.field = none ∧ ∀ d ∈ t.descendants 0, d.2.Conforms := by
  have hok : (parseTree (Bytes.ofString "fn f(a:i32)->i32\x7ba+/*one*/1\x7d")).isOk = true := by
    decide +kernel
  cases hp : parseTree (Bytes.ofString "fn f(a:i32)->i32\x7ba+/*one*/1\x7d") with
  | error e =>
    rw [hp] at hok
    cases hok
  | ok t => exact ⟨t, rfl, parseTree_conforms hp⟩

end RueSyntax
