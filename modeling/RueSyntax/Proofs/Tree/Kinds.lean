import RueSyntax.Proofs.Tree.Fringe

/-!
# Which kinds stand below which rules

The words for types and truth values stand only in the nodes that are made for them, alone; all
other words stand elsewhere.  A unit literal has its parentheses and comments between them.
-/

namespace RueSyntax

namespace Rule

/-- The rules that make a node of one word. -/
def isWord : Rule → Bool
  | primitiveType | booleanLiteral => true
  | _ => false

/-- What may stand right below a node that the rule makes. -/
def takes : Rule → Kind → Bool
  | primitiveType, .token (.word w) => [Keyword.i32, .i64, .bool].contains w
  | booleanLiteral, .token (.word w) => [Keyword.trueWord, .falseWord].contains w
  | primitiveType, _ | booleanLiteral, _ => false
  | unitLiteral, .token (.mark m) => [Mark.openParen, .closeParen].contains m
  | unitLiteral, .comment _ => true
  | unitLiteral, _ => false
  | _, .token (.word w) =>
    [Keyword.fnWord, .letWord, .ifWord, .elseWord, .whileWord].contains w
  | _, _ => true

/-- The rules that have other phrases among their parts. -/
def isOpen : Rule → Bool
  | primitiveType | booleanLiteral | unitLiteral => false
  | _ => true

theorem takes_comment {r : Rule} (h : r.isWord = false) (k : CommentKind) :
    r.takes (.comment k) = true := by
  cases r with
  | primitiveType => cases h
  | booleanLiteral => cases h
  | _ => rfl

theorem takes_of_isOpen {r : Rule} {k : Kind} (h : r.isOpen = true)
    (hk : ∀ w, k ≠ .token (.word w)) : r.takes k = true := by
  cases k with
  | token t =>
    cases t with
    | word w => exact (hk w rfl).elim
    | _ => cases r <;> first | rfl | cases h
  | _ => cases r <;> first | rfl | cases h

variable {α : Type} {ns ms : List (Node α)} {n : Node α} {r : Rule}

/-- The rule may have these nodes as parts. -/
def TakesAll (r : Rule) (ns : List (Node α)) : Prop := ∀ n ∈ ns, r.takes n.kind = true

@[simp] theorem takesAll_nil : r.TakesAll ([] : List (Node α)) := nofun

@[simp] theorem takesAll_cons : r.TakesAll (n :: ns) ↔ r.takes n.kind = true ∧ r.TakesAll ns :=
  List.forall_mem_cons

@[simp] theorem takesAll_append : r.TakesAll (ns ++ ms) ↔ r.TakesAll ns ∧ r.TakesAll ms :=
  List.forall_mem_append

end Rule

/-- The parts of a node are of kinds that its rule takes, and a node of one word has one part. -/
def Node.Fits {α : Type} : Node α → Prop
  | .token _ _ _ => True
  | .rule _ r ns => r.TakesAll ns ∧ (r.isWord = true → ns.length = 1)

namespace Phrase

variable {α : Type}

/-- No word is all of a phrase, so an open rule takes what a phrase makes. -/
theorem takesAll_nodes {c : Category} (p : Phrase α c) (f : Option Field) {r : Rule}
    (h : r.isOpen = true) : r.TakesAll (p.nodes f) := by
  induction p generalizing f <;>
    simp [nodes, Node.kind, Rule.takes_of_isOpen h, *]

theorem every_fits {c : Category} (p : Phrase α c) (f : Option Field) :
    Node.EveryOf Node.Fits (p.nodes f) := by
  induction p generalizing f with
  | primitive p word =>
    refine Node.everyOf_singleton.mpr (Node.every_rule.mpr ⟨⟨?_, fun _ => rfl⟩, ?_⟩)
    · cases p <;> simp [Node.kind, Primitive.keyword, Rule.takes]
    · simp [Node.Fits]
  | boolean value word =>
    refine Node.everyOf_singleton.mpr (Node.every_rule.mpr ⟨⟨?_, fun _ => rfl⟩, ?_⟩)
    · cases value <;> simp [Node.kind, truthWord, Rule.takes]
    · simp [Node.Fits]
  | _ =>
    simp +decide [nodes, Node.every_rule, Node.Fits, Node.kind, takesAll_nodes, Rule.takes, *]

end Phrase

namespace Node

/-- A node of one word has no comments. -/
theorem mem_children_single {f : Option Field} {r : Rule} {ns : List (Node Lexeme)} {u : Tree}
    (h : ns.length = 1) (hu : u ∈ (rule f r ns).tree.children) : ∃ n ∈ ns, u = n.tree := by
  obtain ⟨n, rfl⟩ := List.length_eq_one_iff.mp h
  exact ⟨n, List.mem_singleton.mpr rfl, List.mem_singleton.mp hu⟩

/-- What stands below the tree of a node is of a kind that the rule takes. -/
theorem takes_of_mem {f : Option Field} {r : Rule} {ns : List (Node Lexeme)} {u : Tree}
    (h : (rule f r ns).Fits) (hu : u ∈ (rule f r ns).tree.children) : r.takes u.kind = true := by
  obtain ⟨htakes, hlength⟩ := h
  have hnode : ∀ n ∈ ns, u = n.tree → r.takes u.kind = true := by
    rintro n hn rfl
    rw [kind_tree]
    exact htakes n hn
  by_cases hword : r.isWord = true
  · obtain ⟨n, hn, hu⟩ := mem_children_single (hlength hword) hu
    exact hnode n hn hu
  · rcases of_mem_children hu with ⟨c, rfl⟩ | ⟨n, hn, hu⟩
    · exact Rule.takes_comment (Bool.not_eq_true _ ▸ hword) c.kind
    · exact hnode n hn hu

end Node

/-- What stands below a node in the tree of a file is of a kind that the rule of the node takes. -/
theorem SourceFile.takes_of_mem {s : SourceFile} {p u : Tree} {r : Rule} (hp : p.Within s.tree)
    (hu : u ∈ p.children) (hr : p.kind = .rule r) : r.takes u.kind = true := by
  rcases of_within (s.functions.every_fits none) hp with rfl | ⟨c, rfl⟩ | ⟨n, hn, rfl⟩
  · cases hr
    rcases List.mem_append.mp hu with hu | hu
    · rcases Node.mem_trees hu with ⟨c, rfl⟩ | ⟨n, hn, rfl⟩
      · rfl
      · rw [Node.kind_tree]
        exact s.functions.takesAll_nodes none rfl n hn
    · obtain ⟨c, -, rfl⟩ := List.mem_map.mp hu
      rfl
  · cases hu
  · cases n with
    | token f t a => cases hu
    | rule f k ns =>
      rw [Node.kind_tree] at hr
      cases hr
      exact Node.takes_of_mem (Node.every_rule.mp hn).1 hu

end RueSyntax
