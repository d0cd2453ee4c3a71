import RueSyntax.Proofs.State.Proper
import RueSyntax.Proofs.Tree.Chains
import RueSyntax.Proofs.Tree.LayoutFree

/-!
# How operators group

The phrases that are read are proper, so in their trees operators group by rank and to the left:
each binary expression is built from its chain from the top.  Behind `else` stands a block or an
`if` and never an operation, so the `if`s of an `else if` chain end together with the first of them,
and an operator behind the last block takes the first one as its operand.
-/

namespace RueSyntax

variable {α : Type}

namespace Node

/-- The last thing in the node is `x`, or something that ends with `x`. -/
inductive EndsWith (x : Node α) : Node α → Prop
  | self : EndsWith x x
  | last {f : Option Field} {r : Rule} {ns : List (Node α)} {n : Node α}
    (h : ns.getLast? = some n) (hn : EndsWith x n) : EndsWith x (rule f r ns)

/-- The node is `x`, or an `if` with `x` in its `else if` chain. -/
inductive ChainsTo (x : Node α) : Node α → Prop
  | self : ChainsTo x x
  | alternative {f g : Option Field} {ns : List (Node α)} {word n : Node α}
    (h : ns.getLast? = some (rule g .elseClause [word, n])) (hn : ChainsTo x n) :
    ChainsTo x (rule f .ifExpression ns)

/-- Behind `else` stands a block or an `if`. -/
def Alternates : Node α → Prop
  | rule _ .elseClause ns => ∃ a n, ns = [token none (.word .elseWord) a, n] ∧
      (n.kind = .rule .block ∨ n.kind = .rule .ifExpression)
  | _ => True

/-- If there is an `if` at the end of the left operand, then the last operand there is this `if` or
the one that begins its `else if` chain. -/
def Attached : Node α → Prop
  | rule _ .binaryExpression [l, _, _] => ∀ x, x.kind = .rule .ifExpression → EndsWith x l →
      ∃ y, l.operands.getLast? = some y ∧ ChainsTo x y
  | _ => True

/-- What the order of operators asks of a node and its parts. -/
structure Ordered (n : Node α) : Prop where
  shaped : n.Shaped
  grouped : n.Grouped
  alternates : n.Alternates
  attached : n.Attached

@[simp] theorem ordered_token (f : Option Field) (t : Terminal) (a : α) :
    (token f t a).Ordered := ⟨trivial, trivial, trivial, trivial⟩

@[simp] theorem ordered_rule {f : Option Field} {r : Rule} {ns : List (Node α)}
    (hb : r ≠ .binaryExpression) (he : r ≠ .elseClause) : (rule f r ns).Ordered := by
  cases r with
  | binaryExpression => exact (hb rfl).elim
  | elseClause => exact (he rfl).elim
  | _ => exact ⟨trivial, trivial, trivial, trivial⟩

theorem endsWith_token {x : Node α} {f : Option Field} {t : Terminal} {a : α}
    (h : EndsWith x (token f t a)) : x = token f t a := by
  cases h
  rfl

theorem endsWith_rule {x : Node α} {f : Option Field} {r : Rule} {ns : List (Node α)}
    (h : EndsWith x (rule f r ns)) :
    x = rule f r ns ∨ ∃ n, ns.getLast? = some n ∧ EndsWith x n := by
  cases h with
  | self => exact .inl rfl
  | last h hn => exact .inr ⟨_, h, hn⟩

/-- No `if` is at the end of another construct that ends with a token. -/
theorem not_endsWith_of_token {x : Node α} {f g : Option Field} {r : Rule} {ns : List (Node α)}
    {t : Terminal} {a : α} (hx : x.kind = .rule .ifExpression) (hr : r ≠ .ifExpression)
    (hns : ns.getLast? = some (token g t a)) : ¬ EndsWith x (rule f r ns) := by
  intro h
  rcases endsWith_rule h with rfl | ⟨n, hn, h⟩
  · cases hx
    exact hr rfl
  · rw [hns] at hn
    cases hn
    rw [endsWith_token h] at hx
    cases hx

end Node

namespace Phrase

open Node

variable {x n : Node α} {f : Option Field}

theorem not_endsWith_block {b : Phrase α .block} (hn : b.nodes f = [n])
    (hx : x.kind = .rule .ifExpression) : ¬ EndsWith x n := by
  cases b with
  | block opening ss closing | blockWithValue opening ss value closing =>
    cases hn
    exact not_endsWith_of_token (g := none) (t := .mark .closeBrace) (a := closing) hx
      (by decide) (by simp [List.getLast?_cons])

theorem not_endsWith_arguments {args : Phrase α .arguments} (hn : args.nodes f = [n])
    (hx : x.kind = .rule .ifExpression) : ¬ EndsWith x n := by
  cases args with
  | noArguments opening closing | someArguments opening es closing =>
    cases hn
    exact not_endsWith_of_token (g := none) (t := .mark .closeParen) (a := closing) hx
      (by decide) (by simp [List.getLast?_cons])

theorem nodes_block (b : Phrase α .block) (f : Option Field) :
    ∃ n, b.nodes f = [n] ∧ n.kind = .rule .block := by
  cases b <;> exact ⟨_, rfl, rfl⟩

theorem nodes_conditional (c : Phrase α .conditional) (f : Option Field) :
    ∃ n, c.nodes f = [n] ∧ n.kind = .rule .ifExpression := by
  cases c <;> exact ⟨_, rfl, rfl⟩

/-- An `if` at the end of another one is in its `else if` chain. -/
theorem chainsTo_of_endsWith (hx : x.kind = .rule .ifExpression) :
    ∀ (c : Phrase α .conditional) {f : Option Field} {n : Node α}, c.nodes f = [n] →
      EndsWith x n → ChainsTo x n
  | ifThen word condition body, f, n, hn, h => by
    obtain ⟨b, hb, -⟩ := nodes_block body (some .consequence)
    rw [nodes, hb] at hn
    cases hn
    rcases endsWith_rule h with rfl | ⟨m, hm, h⟩
    · exact .self
    · have hlast : b = m := by simpa [List.getLast?_cons] using hm
      subst hlast
      exact (not_endsWith_block hb hx h).elim
  | ifElse word condition body (.elseBlock elseWord body'), f, n, hn, h => by
    obtain ⟨b, hb, -⟩ := nodes_block body' none
    rw [nodes, nodes, hb] at hn
    cases hn
    rcases endsWith_rule h with rfl | ⟨m, hm, h⟩
    · exact .self
    · have hlast : rule (some .alternative) .elseClause
          [token none (.word .elseWord) elseWord, b] = m := by
        simpa [List.getLast?_cons] using hm
      subst hlast
      rcases endsWith_rule h with rfl | ⟨m, hm, h⟩
      · cases hx
      · cases hm
        exact (not_endsWith_block hb hx h).elim
  | ifElse word condition body (.elseIf elseWord c), f, n, hn, h => by
    obtain ⟨b, hb, -⟩ := nodes_conditional c none
    rw [nodes, nodes, hb] at hn
    cases hn
    rcases endsWith_rule h with rfl | ⟨m, hm, h⟩
    · exact .self
    · have hlast : rule (some .alternative) .elseClause
          [token none (.word .elseWord) elseWord, b] = m := by
        simpa [List.getLast?_cons] using hm
      rw [← hlast] at h hm
      rcases endsWith_rule h with rfl | ⟨m, hm', h⟩
      · cases hx
      · cases hm'
        exact .alternative hm (chainsTo_of_endsWith hx c hb h)

/-- An `if` at the end of an expression is at the end of its last operand. -/
theorem last_of_endsWith (hx : x.kind = .rule .ifExpression) :
    ∀ (e : Phrase α .expression) {f : Option Field} {n : Node α}, e.nodes f = [n] →
      EndsWith x n → ∃ y, n.operands.getLast? = some y ∧ ChainsTo x y
  | reference name, f, n, hn, h | integer name, f, n, hn, h => by
    cases hn
    rw [endsWith_token h] at hx
    cases hx
  | boolean value word, f, n, hn, h => by
    cases hn
    exact absurd h (not_endsWith_of_token hx (by decide) rfl)
  | unit opening closing, f, n, hn, h => by
    cases hn
    exact absurd h (not_endsWith_of_token hx (by decide) rfl)
  | parenthesized opening e closing, f, n, hn, h => by
    cases hn
    exact absurd h (not_endsWith_of_token (g := none) (t := .mark .closeParen) (a := closing) hx
      (by decide) (by simp [List.getLast?_cons]))
  | call name args, f, n, hn, h => by
    obtain ⟨m, hm⟩ : ∃ m, args.nodes (some .arguments) = [m] := by cases args <;> exact ⟨_, rfl⟩
    rw [nodes, hm] at hn
    cases hn
    rcases endsWith_rule h with rfl | ⟨m', hm', h⟩
    · cases hx
    · cases hm'
      exact (not_endsWith_arguments hm hx h).elim
  | whileLoop word condition body, f, n, hn, h => by
    obtain ⟨b, hb, -⟩ := nodes_block body (some .body)
    rw [nodes, hb] at hn
    cases hn
    rcases endsWith_rule h with rfl | ⟨m, hm, h⟩
    · cases hx
    · have hlast : b = m := by simpa [List.getLast?_cons] using hm
      subst hlast
      exact (not_endsWith_block hb hx h).elim
  | ifExpression c, f, n, hn, h => by
    obtain ⟨m, hm, hkind⟩ := nodes_conditional c f
    rw [nodes, hm] at hn
    cases hn
    have hne : n.kind ≠ .rule .binaryExpression := by
      rw [hkind]
      decide
    rw [operands_of_kind hne]
    exact ⟨n, rfl, chainsTo_of_endsWith hx c hm h⟩
  | binary left o sign right, f, n, hn, h => by
    obtain ⟨l, hl⟩ := nodes_expression left (some .left)
    obtain ⟨r, hr⟩ := nodes_expression right (some .right)
    rw [nodes, hl, hr] at hn
    cases hn
    rcases endsWith_rule h with rfl | ⟨m, hm, h⟩
    · cases hx
    · cases hm
      obtain ⟨y, hy, hchain⟩ := last_of_endsWith hx right hr h
      have hoperands := operands_binary f (some .operator) l r o sign
      refine ⟨y, ?_, hchain⟩
      calc _ = (l.operands ++ r.operands).getLast? := congrArg List.getLast? hoperands
        _ = some y := by rw [List.getLast?_append, hy]; rfl

/-! ### Every node -/

theorem grouped_binary {left right : Phrase α .expression} {o : Operator} {l r : Node α}
    (hl : left.nodes (some .left) = [l]) (hr : right.nodes (some .right) = [r])
    (hleft : o.level ≤ left.level) (hright : o.level < right.level) :
    (∀ m ∈ l.rank?, o.rank ≤ m) ∧ ∀ m ∈ r.rank?, o.rank < m := by
  constructor
  · intro m hm
    rw [eq_level_of_rank hl hm, o.rank_eq_level]
    exact Int.ofNat_le.mpr hleft
  · intro m hm
    rw [eq_level_of_rank hr hm, o.rank_eq_level]
    exact Int.ofNat_lt.mpr hright

theorem every_ordered {c : Category} {p : Phrase Bytes c} (hp : p.Proper) (f : Option Field) :
    EveryOf Ordered (p.nodes f) := by
  induction p generalizing f with
  | binary left o sign right ihl ihr =>
    obtain ⟨hleft, hright, hle, hlt⟩ := hp
    obtain ⟨l, hl⟩ := nodes_expression left (some .left)
    obtain ⟨r, hr⟩ := nodes_expression right (some .right)
    have hfl : l.field = some .left := left.field_of_mem (some .left) l (by rw [hl]; simp)
    have hfr : r.field = some .right := right.field_of_mem (some .right) r (by rw [hr]; simp)
    have hls := ihl hleft (some .left)
    have hrs := ihr hright (some .right)
    have hlast : ∀ x : Node Bytes, x.kind = .rule .ifExpression → EndsWith x l →
        ∃ y, l.operands.getLast? = some y ∧ ChainsTo x y :=
      fun x hx hends => last_of_endsWith hx left hl hends
    rw [hl] at hls
    rw [hr] at hrs
    rw [nodes, hl, hr, everyOf_singleton, every_rule]
    exact ⟨⟨⟨l, o, sign, r, rfl, hfl, hfr⟩, grouped_binary hl hr hle hlt, trivial, hlast⟩,
      everyOf_append.mpr ⟨hls, everyOf_cons.mpr ⟨by simp, hrs⟩⟩⟩
  | elseBlock word body ih =>
    obtain ⟨b, hb, hkind⟩ := nodes_block body none
    have hbody := ih hp none
    rw [hb] at hbody
    rw [nodes, hb, everyOf_singleton, every_rule]
    exact ⟨⟨trivial, trivial, ⟨word, b, rfl, .inl hkind⟩, trivial⟩,
      everyOf_cons.mpr ⟨by simp, hbody⟩⟩
  | elseIf word c ih =>
    obtain ⟨n, hn, hkind⟩ := nodes_conditional c none
    have hrest := ih hp none
    rw [hn] at hrest
    rw [nodes, hn, everyOf_singleton, every_rule]
    exact ⟨⟨trivial, trivial, ⟨word, n, rfl, .inr hkind⟩, trivial⟩,
      everyOf_cons.mpr ⟨by simp, hrest⟩⟩
  | _ => simp_all [nodes, every_rule, Proper]

theorem ordered_file {fs : Phrase Bytes .functions} (hp : fs.Proper) :
    (Node.rule none .sourceFile (fs.nodes none)).Every Ordered :=
  every_rule.mpr ⟨by simp, every_ordered hp none⟩

end Phrase

/-! ### Accepted texts -/

/-- The functions of an accepted text are proper. -/
theorem proper_of_parse {text : Bytes} {s : SourceFile} (h : parse text = .ok s) :
    s.texts.Proper :=
  (leads_of_parse h).proper trivial

/-- The order of operators at a node.  It is built from its chain, in which no operand is a binary
expression; an `if` behind `else` is no operand, and an operator behind its last block takes the
`if` that begins the chain. -/
structure Node.Lawful (n : Node α) : Prop where
  built : Node.group n.field n.chain.1 n.chain.2 = n
  flat : ∀ e ∈ n.operands, e.kind ≠ .rule .binaryExpression
  alternates : n.Alternates
  attached : n.Attached

theorem Node.lawful_of_every {n : Node α} (h : n.Every Node.Ordered) : n.Lawful := by
  have hranked : n.Ranked := h.imp fun m hm => ⟨hm.shaped, hm.grouped⟩
  have hn : n.Ordered := by
    cases h with
    | token h => exact h
    | rule h _ => exact h
  exact ⟨hranked.group_chain, hranked.kind_of_operands, hn.alternates, hn.attached⟩

/-- In the tree of an accepted text the operators of every expression are applied in the order of
their ranks, which are three, and from the left within a rank. -/
theorem parseTree_chains {text : Bytes} {t : Tree} (h : parseTree text = .ok t) :
    (∀ o : Operator, o.rank =
      if o.spelling ∈ ["*", "/", "%"] then 3 else if o.spelling ∈ ["+", "-"] then 2 else 1) ∧
      ∃ T, t.bare = some T ∧ T.Every Node.Lawful := by
  obtain ⟨s, hs, rfl⟩ := parse_of_parseTree h
  have hfile := Phrase.ordered_file (proper_of_parse hs)
  exact ⟨Operator.rank_of_spelling, _, s.bare_tree,
    hfile.below_each.imp fun n hn => Node.lawful_of_every hn⟩

namespace Phrase

def emptyBlock : Phrase Bytes .block :=
  .block (Bytes.ofString "\x7b") .noStatements (Bytes.ofString "\x7d")

/-- A function whose value is an `else if` chain, less a product, less a number. -/
def differenceFunction : Phrase Bytes .functions :=
  .moreFunctions .noFunctions (.function (Bytes.ofString "fn") (Bytes.ofString "f")
    (.noParameters (Bytes.ofString "(") (Bytes.ofString ")")) (Bytes.ofString "->")
    (.primitive .i64 (Bytes.ofString "i64"))
    (.blockWithValue (Bytes.ofString "\x7b") .noStatements
      (.binary
        (.binary
          (.ifExpression (.ifElse (Bytes.ofString "if") (.reference (Bytes.ofString "a"))
            emptyBlock
            (.elseIf (Bytes.ofString "else") (.ifElse (Bytes.ofString "if")
              (.reference (Bytes.ofString "b")) emptyBlock
              (.elseBlock (Bytes.ofString "else") emptyBlock)))))
          .minus (Bytes.ofString "-")
          (.binary (.integer (Bytes.ofString "2")) .times (Bytes.ofString "*")
            (.reference (Bytes.ofString "x"))))
        .minus (Bytes.ofString "-") (.integer (Bytes.ofString "1")))
      (Bytes.ofString "\x7d")))

end Phrase

/-- An `else if` chain is the first operand of a difference, and a product the second. -/
theorem parseTree_chains_difference : ∃ t, parseTree (Bytes.ofString
      "fn f ( ) -> i64 \x7b if a \x7b \x7d else if b \x7b \x7d else \x7b \x7d - 2 * x - 1 \x7d") =
        .ok t ∧
      t.bare = some (.rule none .sourceFile (Phrase.differenceFunction.nodes none)) ∧
      (Node.rule none .sourceFile (Phrase.differenceFunction.nodes none)).Every Node.Lawful := by
  have hspelled : ∀ a ∈ Phrase.differenceFunction.tokens, a.1.HasText a.2 := by decide
  obtain ⟨ha, hb, hx⟩ : Bytes.ofString "a" ∉ operandWords ∧ Bytes.ofString "b" ∉ operandWords ∧
      Bytes.ofString "x" ∉ operandWords := by decide
  have hproper : Phrase.differenceFunction.Proper := by
    simp [Phrase.differenceFunction, Phrase.emptyBlock, Phrase.Proper, Phrase.level,
      Operator.level, Phrase.tokens, Phrase.BeginsProperly, ha, hb, hx]
  obtain ⟨t, ht, hbare, -⟩ := Phrase.exists_parse_spaced hproper hspelled
  have htext : spaced Phrase.differenceFunction.tokens = Bytes.ofString
      "fn f ( ) -> i64 \x7b if a \x7b \x7d else if b \x7b \x7d else \x7b \x7d - 2 * x - 1 \x7d" := by
    decide
  rw [htext] at ht
  obtain ⟨-, T, hT, hlawful⟩ := parseTree_chains ht
  obtain rfl := Option.some.inj (hT.symm.trans hbare)
  exact ⟨t, ht, hbare, hlawful⟩

end RueSyntax
