import RueSyntax.Proofs.Grammar.Precedence
import RueSyntax.Proofs.Grammar.Rules
import RueSyntax.Proofs.Syntax.Runs

/-!
# The round trip of the language

A tree is well formed if it conforms to the grammar, its leaves have texts of their kinds, its
operators group by rank and to the left, and its names can be told from keywords where they stand.
The tokens of such a tree, written down with one space between neighbours, are accepted, and the
tree read is the tree written (`parseTree_spaced`).
-/

namespace RueSyntax

/-- The rules whose field `name` holds a name that they introduce. -/
def Rule.declares : Rule → Bool
  | functionItem | parameter | letStatement => true
  | _ => false

namespace Node

variable {α : Type}

/-- The rank of a binary expression, by the grammar. -/
def rank? : Node α → Option Int
  | rule _ .binaryExpression [_, token _ (.operator o) _, _] => some o.rank
  | _ => none

/-- A binary expression on the left of an operator binds at least as tightly, one on its right
binds tighter. -/
def Grouped : Node α → Prop
  | rule _ .binaryExpression [l, token _ (.operator o) _, r] =>
    (∀ n ∈ l.rank?, o.rank ≤ n) ∧ ∀ n ∈ r.rank?, o.rank < n
  | _ => True

/-- Only a name that is introduced may have the spelling of a word that begins an expression, and
what stands in a block does not begin with a name in the spelling of `let`. -/
def Named : Node Bytes → Prop
  | token _ _ _ => True
  | rule _ r ns =>
    (∀ f w, token f .identifier w ∈ ns → f = some .name ∧ r.declares = true ∨ w ∉ operandWords) ∧
      (r = .block → ∀ n ∈ ns, Phrase.BeginsProperly n.leaves)

/-- The trees that can be written down and read back. -/
structure WellFormed (T : Node Bytes) : Prop where
  file : ∃ ns, T = rule none .sourceFile ns
  conforms : T.Every Conforms
  spelled : ∀ a ∈ T.leaves, a.1.HasText a.2
  grouped : T.Every Grouped
  named : T.Every Named

theorem Every.and {P Q : Node α → Prop} {n : Node α} (hp : n.Every P) (hq : n.Every Q) :
    n.Every fun n => P n ∧ Q n := by
  induction hp with
  | token h => exact .token ⟨h, every_token.mp hq⟩
  | rule h _ ih =>
    obtain ⟨h', hs'⟩ := every_rule.mp hq
    exact .rule ⟨h, h'⟩ fun n hn => ih n hn (hs' n hn)

theorem Every.imp {P Q : Node α → Prop} {n : Node α} (h : n.Every P) (hpq : ∀ n, P n → Q n) :
    n.Every Q := by
  induction h with
  | token h => exact .token (hpq _ h)
  | rule h _ ih => exact .rule (hpq _ h) ih

/-- The property holds of all nodes below each node. -/
theorem Every.below_each {P : Node α → Prop} {n : Node α} (h : n.Every P) :
    n.Every fun m => m.Every P := by
  induction h with
  | token h => exact .token (.token h)
  | rule h hs ih => exact .rule (.rule h hs) ih

end Node

namespace Phrase

variable {α : Type}

/-! ### The nodes of one phrase -/

theorem nodes_expression (e : Phrase α .expression) (f : Option Field) :
    ∃ n, e.nodes f = [n] := by
  cases e with
  | ifExpression c => cases c <;> exact ⟨_, rfl⟩
  | _ => exact ⟨_, rfl⟩

theorem nodes_statement (s : Phrase α .statement) (f : Option Field) : ∃ n, s.nodes f = [n] := by
  cases s <;> exact ⟨_, rfl⟩

theorem leaves_of_nodes {c : Category} {p : Phrase α c} {f : Option Field} {n : Node α}
    (h : p.nodes f = [n]) : n.leaves = p.tokens := by
  rw [← leaves_nodes p f, h]
  exact (List.append_nil _).symm

theorem rank_of_nodes {e : Phrase α .expression} {f : Option Field} {n : Node α}
    (h : e.nodes f = [n]) : n.rank? = some (e.level : Int) ∨ n.rank? = none ∧ e.level = 4 := by
  cases e with
  | binary left o sign right =>
    obtain ⟨l, hl⟩ := nodes_expression left (some .left)
    obtain ⟨r, hr⟩ := nodes_expression right (some .right)
    rw [nodes, hl, hr] at h
    cases h
    exact .inl (congrArg some o.rank_eq_level)
  | ifExpression c =>
    right
    cases c <;> (cases h; exact ⟨rfl, rfl⟩)
  | _ =>
    right
    cases h
    exact ⟨rfl, rfl⟩

theorem eq_level_of_rank {e : Phrase α .expression} {f : Option Field} {n : Node α} {i : Int}
    (h : e.nodes f = [n]) (hi : i ∈ n.rank?) : i = e.level := by
  rcases rank_of_nodes h with hsome | ⟨hnone, -⟩
  · exact Option.some.inj (hi.symm.trans hsome)
  · cases hi.symm.trans hnone

theorem field_of_mem {c : Category} (p : Phrase α c) (f : Option Field) :
    ∀ n ∈ p.nodes f, n.field = c.fieldIn f := by
  induction p generalizing f with
  | noFunctions => nofun
  | moreFunctions fs g ihs ih => exact List.forall_mem_append.mpr ⟨ihs none, ih none⟩
  | oneParameter p ih => exact ih none
  | moreParameters ps comma p ihs ih =>
    exact List.forall_mem_append.mpr ⟨ihs none, List.forall_mem_cons.mpr ⟨rfl, ih none⟩⟩
  | noStatements => nofun
  | moreStatements ss s ihs ih => exact List.forall_mem_append.mpr ⟨ihs none, ih none⟩
  | ifExpression c ih => exact ih f
  | oneArgument e ih => exact ih none
  | moreArguments es comma e ihs ih =>
    exact List.forall_mem_append.mpr ⟨ihs none, List.forall_mem_cons.mpr ⟨rfl, ih none⟩⟩
  | _ =>
    intro n hn
    obtain rfl := List.mem_singleton.mp hn
    rfl

/-! ### Well-formed nodes are nodes of proper phrases -/

/-- What the nodes of a proper phrase satisfy, and what the node around them says of them. -/
structure Ready (c : Category) (ns : List (Node Bytes)) : Prop where
  every : Node.EveryOf (fun n => n.Grouped ∧ n.Named) ns
  names : ∀ f w, Node.token f .identifier w ∈ ns → w ∉ operandWords
  begins : c = .statements → ∀ n ∈ ns, BeginsProperly n.leaves

theorem Ready.rule {c : Category} {f : Option Field} {r : Rule} {ns : List (Node Bytes)}
    (h : Ready c [.rule f r ns]) :
    (Node.rule f r ns).Grouped ∧ (Node.rule f r ns).Named ∧
      Node.EveryOf (fun n => n.Grouped ∧ n.Named) ns := by
  obtain ⟨⟨hg, hn⟩, hs⟩ := Node.every_rule.mp (Node.everyOf_singleton.mp h.every)
  exact ⟨hg, hn, hs⟩

/-- A part of a node in any field but `name`, which is not the statements of a block. -/
theorem ready_part {c : Category} {p : Phrase Bytes c} {f g : Option Field} {r : Rule}
    {ns : List (Node Bytes)} (hn : (Node.rule g r ns).Named)
    (he : Node.EveryOf (fun n => n.Grouped ∧ n.Named) (p.nodes f))
    (hsub : ∀ n ∈ p.nodes f, n ∈ ns) (hc : c.fieldIn f ≠ some .name ∧ c ≠ .statements) :
    Ready c (p.nodes f) := by
  refine ⟨he, fun k w hw => ?_, fun h => (hc.2 h).elim⟩
  rcases hn.1 k w (hsub _ hw) with ⟨hk, -⟩ | hw'
  · have hfield : k = c.fieldIn f := p.field_of_mem f _ hw
    exact (hc.1 (hfield.symm.trans hk)).elim
  · exact hw'

/-- The statements of a block. -/
theorem ready_statements {ss : Phrase Bytes .statements} {f g : Option Field}
    {ns : List (Node Bytes)} (hn : (Node.rule g .block ns).Named)
    (he : Node.EveryOf (fun n => n.Grouped ∧ n.Named) (ss.nodes f))
    (hsub : ∀ n ∈ ss.nodes f, n ∈ ns) : Ready .statements (ss.nodes f) := by
  refine ⟨he, fun k w hw => ?_, fun _ n hm => hn.2 rfl n (hsub n hm)⟩
  exact (hn.1 k w (hsub _ hw)).resolve_left fun hd => by cases hd.2

/-- The levels around an operator that groups by rank. -/
theorem levels_of_grouped {left right : Phrase Bytes .expression} {o : Operator} {sign : Bytes}
    {f : Option Field} (h : (Node.rule f .binaryExpression (left.nodes (some .left) ++
      .token (some .operator) (.operator o) sign :: right.nodes (some .right))).Grouped) :
    o.level ≤ left.level ∧ o.level < right.level := by
  obtain ⟨l, hl⟩ := nodes_expression left (some .left)
  obtain ⟨r, hr⟩ := nodes_expression right (some .right)
  have ho := level_le o
  have hrank := o.rank_eq_level
  rw [hl, hr] at h
  obtain ⟨h₁, h₂⟩ := h
  constructor
  · rcases rank_of_nodes hl with hll | ⟨-, hll⟩
    · have hle := h₁ _ hll
      omega
    · omega
  · rcases rank_of_nodes hr with hrl | ⟨-, hrl⟩
    · have hlt := h₂ _ hrl
      omega
    · omega

theorem Ready.append {c : Category} {ns ms : List (Node Bytes)} (h : Ready c (ns ++ ms)) :
    Ready c ns ∧ Ready c ms := by
  obtain ⟨hns, hms⟩ := Node.everyOf_append.mp h.every
  refine ⟨⟨hns, fun f w hw => h.names f w (List.mem_append_left _ hw), fun hc n hn =>
    h.begins hc n (List.mem_append_left _ hn)⟩, ⟨hms, fun f w hw =>
    h.names f w (List.mem_append_right _ hw), fun hc n hn =>
    h.begins hc n (List.mem_append_right _ hn)⟩⟩

theorem Ready.other {c d : Category} {ns : List (Node Bytes)} (h : Ready c ns)
    (hd : d ≠ .statements) : Ready d ns := ⟨h.every, h.names, fun h' => (hd h').elim⟩

theorem proper_of_ready {c : Category} (p : Phrase Bytes c) (f : Option Field)
    (h : Ready c (p.nodes f)) : p.Proper := by
  induction p generalizing f with
  | moreFunctions fs g ihs ih =>
    obtain ⟨hfs, hg⟩ := h.append
    exact ⟨ihs none hfs, ih none (hg.other (by decide))⟩
  | function word name ps arrow ty body ihps ihty ihbody =>
    obtain ⟨-, hn, hs⟩ := h.rule
    simp only [Node.everyOf_cons, Node.everyOf_append] at hs
    obtain ⟨-, -, -, -, -, hbody⟩ := hs
    exact ihbody (some .body) (ready_part hn hbody (fun n hm => by simp [hm]) (by decide))
  | block opening ss closing ih =>
    obtain ⟨-, hn, hs⟩ := h.rule
    simp only [Node.everyOf_cons, Node.everyOf_append] at hs
    obtain ⟨-, hss, -⟩ := hs
    exact ih none (ready_statements hn hss fun n hm => by simp [hm])
  | blockWithValue opening ss value closing ihs ih =>
    obtain ⟨-, hn, hs⟩ := h.rule
    simp only [Node.everyOf_cons, Node.everyOf_append] at hs
    obtain ⟨-, hss, hvalue, -⟩ := hs
    obtain ⟨n, hvn⟩ := nodes_expression value none
    have hbegin := hn.2 rfl n (by simp [hvn])
    rw [leaves_of_nodes hvn] at hbegin
    exact ⟨ihs none (ready_statements hn hss fun n hm => by simp [hm]),
      ih none (ready_part hn hvalue (fun n hm => by simp [hm]) (by decide)), hbegin⟩
  | moreStatements ss s ihs ih =>
    obtain ⟨hss, hs⟩ := h.append
    obtain ⟨n, hn⟩ := nodes_statement s none
    have hbegin := hs.begins rfl n (by rw [hn]; exact List.mem_singleton.mpr rfl)
    rw [leaves_of_nodes hn] at hbegin
    exact ⟨ihs none hss, ih none (hs.other (by decide)), hbegin⟩
  | letStatement word name colon ty equals value semicolon ihty ihvalue =>
    obtain ⟨-, hn, hs⟩ := h.rule
    simp only [Node.everyOf_cons, Node.everyOf_append] at hs
    obtain ⟨-, -, -, -, -, hvalue, -⟩ := hs
    exact ihvalue (some .value) (ready_part hn hvalue (fun n hm => by simp [hm]) (by decide))
  | assignment name equals value semicolon ih =>
    obtain ⟨-, hn, hs⟩ := h.rule
    simp only [Node.everyOf_cons, Node.everyOf_append] at hs
    obtain ⟨-, -, hvalue, -⟩ := hs
    have hname : name ∉ operandWords :=
      (hn.1 (some .name) name List.mem_cons_self).resolve_left fun hd => by cases hd.2
    exact ⟨hname,
      ih (some .value) (ready_part hn hvalue (fun n hm => by simp [hm]) (by decide))⟩
  | expressionStatement e semicolon ih =>
    obtain ⟨-, hn, hs⟩ := h.rule
    obtain ⟨he, -⟩ := Node.everyOf_append.mp hs
    exact ih none (ready_part hn he (fun n hm => by simp [hm]) (by decide))
  | reference name => exact h.names f name (List.mem_singleton.mpr rfl)
  | parenthesized opening e closing ih =>
    obtain ⟨-, hn, hs⟩ := h.rule
    simp only [Node.everyOf_cons, Node.everyOf_append] at hs
    obtain ⟨-, he, -⟩ := hs
    exact ih none (ready_part hn he (fun n hm => by simp [hm]) (by decide))
  | call name args ih =>
    obtain ⟨-, hn, hs⟩ := h.rule
    obtain ⟨-, hargs⟩ := Node.everyOf_cons.mp hs
    have hname : name ∉ operandWords :=
      (hn.1 (some .function) name List.mem_cons_self).resolve_left fun hd => by cases hd.1
    exact ⟨hname,
      ih (some .arguments) (ready_part hn hargs (fun n hm => by simp [hm]) (by decide))⟩
  | binary left o sign right ihl ihr =>
    obtain ⟨hg, hn, hs⟩ := h.rule
    simp only [Node.everyOf_cons, Node.everyOf_append] at hs
    obtain ⟨hleft, -, hright⟩ := hs
    have hl := ihl (some .left) (ready_part hn hleft (fun n hm => by simp [hm]) (by decide))
    have hr := ihr (some .right) (ready_part hn hright (fun n hm => by simp [hm]) (by decide))
    exact ⟨hl, hr, levels_of_grouped hg⟩
  | ifExpression c ih => exact ih f (h.other (by decide))
  | whileLoop word condition body ihc ihb =>
    obtain ⟨-, hn, hs⟩ := h.rule
    simp only [Node.everyOf_cons, Node.everyOf_append] at hs
    obtain ⟨-, hc, hb⟩ := hs
    exact ⟨ihc (some .condition) (ready_part hn hc (fun n hm => by simp [hm]) (by decide)),
      ihb (some .body) (ready_part hn hb (fun n hm => by simp [hm]) (by decide))⟩
  | ifThen word condition body ihc ihb =>
    obtain ⟨-, hn, hs⟩ := h.rule
    simp only [Node.everyOf_cons, Node.everyOf_append] at hs
    obtain ⟨-, hc, hb⟩ := hs
    exact ⟨ihc (some .condition) (ready_part hn hc (fun n hm => by simp [hm]) (by decide)),
      ihb (some .consequence) (ready_part hn hb (fun n hm => by simp [hm]) (by decide))⟩
  | ifElse word condition body rest ihc ihb ihr =>
    obtain ⟨-, hn, hs⟩ := h.rule
    simp only [Node.everyOf_cons, Node.everyOf_append] at hs
    obtain ⟨-, hc, hb, hr⟩ := hs
    exact ⟨ihc (some .condition) (ready_part hn hc (fun n hm => by simp [hm]) (by decide)),
      ihb (some .consequence) (ready_part hn hb (fun n hm => by simp [hm]) (by decide)),
      ihr (some .alternative) (ready_part hn hr (fun n hm => by simp [hm]) (by decide))⟩
  | elseBlock word body ih =>
    obtain ⟨-, hn, hs⟩ := h.rule
    obtain ⟨-, hb⟩ := Node.everyOf_cons.mp hs
    exact ih none (ready_part hn hb (fun n hm => by simp [hm]) (by decide))
  | elseIf word c ih =>
    obtain ⟨-, hn, hs⟩ := h.rule
    obtain ⟨-, hc⟩ := Node.everyOf_cons.mp hs
    exact ih none (ready_part hn hc (fun n hm => by simp [hm]) (by decide))
  | someArguments opening es closing ih =>
    obtain ⟨-, hn, hs⟩ := h.rule
    simp only [Node.everyOf_cons, Node.everyOf_append] at hs
    obtain ⟨-, he, -⟩ := hs
    exact ih none (ready_part hn he (fun n hm => by simp [hm]) (by decide))
  | oneArgument e ih => exact ih none (h.other (by decide))
  | moreArguments es comma e ihs ih =>
    obtain ⟨hes, he⟩ := h.append
    obtain ⟨-, he'⟩ := Node.everyOf_cons.mp he.every
    exact ⟨ihs none hes, ih none ⟨he', fun g w hw =>
      he.names g w (List.mem_cons_of_mem _ hw), fun hc => absurd hc (by decide)⟩⟩
  | _ => trivial

end Phrase

/-! ### Written and read -/

/-- The functions of a well-formed tree. -/
theorem Node.WellFormed.functions {T : Node Bytes} (h : T.WellFormed) :
    ∃ fs : Phrase Bytes .functions, T = .rule none .sourceFile (fs.nodes none) ∧ fs.Proper ∧
      fs.Spelled := by
  obtain ⟨ns, rfl⟩ := h.file
  obtain ⟨fs, rfl⟩ : ∃ fs : Phrase Bytes .functions, fs.nodes none = ns :=
    Node.isPhrase_of_every h.conforms
  obtain ⟨⟨-, hn⟩, hs⟩ := Node.every_rule.mp (h.grouped.and h.named)
  have hnames : ∀ f w, Node.token f .identifier w ∈ fs.nodes none → w ∉ operandWords :=
    fun f w hw => (hn.1 f w hw).resolve_left fun hd => by cases hd.2
  refine ⟨fs, rfl, fs.proper_of_ready none ⟨hs, hnames, nofun⟩, fun a ha => ?_⟩
  rw [← fs.leaves_nodes none] at ha
  exact h.spelled a ha

/-- The tokens of proper functions with one space between neighbours are read as these functions. -/
theorem Phrase.exists_parse_spaced {fs : Phrase Bytes .functions} (hproper : fs.Proper)
    (hspelled : fs.Spelled) : ∃ t, parseTree (spaced fs.tokens) = .ok t ∧
      t.bare = some (.rule none .sourceFile (fs.nodes none)) ∧ t.comments = [] := by
  have hruns : (State.top .noFunctions).Leads fs.tokens (.top fs) :=
    fs.runs_of_proper hproper hspelled
  obtain ⟨s, hs, ht, hc⟩ := parse_of_leads hruns (layout_spaced fs.tokens) (.inl rfl)
  refine ⟨s.tree, ?_, ?_, ?_⟩
  · rw [parseTree, ← List.nil_append (spaced fs.tokens), hs]
    rfl
  · rw [s.bare_tree, ht]
  · rw [s.comments_tree]
    exact List.map_eq_nil_iff.mp hc

/-- The tokens of a well-formed tree with one space between neighbours are accepted, and the tree
read is the tree written. -/
theorem parseTree_spaced {T : Node Bytes} (h : T.WellFormed) :
    ∃ t, parseTree (spaced T.leaves) = .ok t ∧ t.bare = some T ∧ t.comments = [] := by
  obtain ⟨fs, rfl, hproper, hspelled⟩ := h.functions
  have hleaves : (Node.rule none .sourceFile (fs.nodes none)).leaves = fs.tokens :=
    fs.leaves_nodes none
  rw [hleaves]
  exact Phrase.exists_parse_spaced hproper hspelled

/-- A function by the name of `let`, whose value is a sum with a product on its left. -/
def Phrase.letFunction : Phrase Bytes .functions :=
  .moreFunctions .noFunctions (.function (Bytes.ofString "fn") letText
    (.noParameters (Bytes.ofString "(") (Bytes.ofString ")")) (Bytes.ofString "->")
    (.primitive .i64 (Bytes.ofString "i64"))
    (.blockWithValue (Bytes.ofString "\x7b") .noStatements
      (.binary (.binary (.integer (Bytes.ofString "2")) .times (Bytes.ofString "*")
        (.reference (Bytes.ofString "x"))) .plus (Bytes.ofString "+")
        (.integer (Bytes.ofString "1"))) (Bytes.ofString "\x7d")))

/-- Its tree is well formed, and comes back from its text. -/
theorem parseTree_spaced_let :
    (Node.rule none .sourceFile (Phrase.letFunction.nodes none)).WellFormed ∧
      ∃ t, parseTree (Bytes.ofString "fn let ( ) -> i64 \x7b 2 * x + 1 \x7d") = .ok t ∧
        t.bare = some (.rule none .sourceFile (Phrase.letFunction.nodes none)) ∧
        t.comments = [] := by
  have hspelled : ∀ a ∈ Phrase.letFunction.tokens, a.1.HasText a.2 := by decide
  have hword : Bytes.ofString "x" ∉ operandWords := by decide
  have h : (Node.rule none .sourceFile (Phrase.letFunction.nodes none)).WellFormed := by
    refine ⟨⟨_, rfl⟩, Phrase.letFunction.conforms_file, hspelled, ?_, ?_⟩
    · simp [Phrase.letFunction, Phrase.nodes, Node.every_rule, Node.Grouped, Node.rank?,
        Operator.rank_eq_level, Operator.level]
    · simp [Phrase.letFunction, Phrase.nodes, Node.every_rule, Node.Named, Rule.declares, hword,
        Phrase.BeginsProperly, Node.leaves, Node.leavesOf]
  have htext : spaced Phrase.letFunction.tokens =
      Bytes.ofString "fn let ( ) -> i64 \x7b 2 * x + 1 \x7d" := by decide
  rw [← htext]
  exact ⟨h, parseTree_spaced h⟩

end RueSyntax
