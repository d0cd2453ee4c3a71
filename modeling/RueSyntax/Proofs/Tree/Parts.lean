import RueSyntax.Proofs.Tree.Fringe
import RueSyntax.Proofs.Tree.RoundTrip

/-!
# The parts of a node and its name

The parts of a node are its children without the comments.  A function, a parameter and a call have
a name, which is the only part in its field and always has the same place among the parts, whatever
comments stand between them.
-/

namespace RueSyntax

/-- The children that are no comments. -/
def Tree.parts (t : Tree) : List Tree := t.children.filter fun u => !u.isComment

/-- The field of the name in a node that the rule makes, and the place of the name among the
parts. -/
def Rule.nameIn : Rule → Option (Field × Nat)
  | functionItem => some (.name, 1)
  | callExpression => some (.function, 0)
  | parameter => some (.name, 0)
  | _ => none

namespace Node

variable {α : Type}

/-- The node at place `i` is an identifier, and no other one is in its field. -/
def NamedAt (f : Field) (i : Nat) (ns : List (Node α)) : Prop :=
  ∃ before a after, ns = before ++ token (some f) .identifier a :: after ∧ before.length = i ∧
    (∀ n ∈ before, n.field ≠ some f) ∧ ∀ n ∈ after, n.field ≠ some f

/-- A node with a name has it in its place. -/
def HasName : Node α → Prop
  | token _ _ _ => True
  | rule _ r ns => ∀ f i, r.nameIn = some (f, i) → NamedAt f i ns

theorem every_of_namedAt {g : Option Field} {r : Rule} {ns : List (Node α)} {f : Field} {i : Nat}
    (hr : r.nameIn = some (f, i)) (h : NamedAt f i ns) (hns : EveryOf HasName ns) :
    EveryOf HasName [rule g r ns] := by
  refine everyOf_singleton.mpr (every_rule.mpr ⟨fun f' i' hr' => ?_, hns⟩)
  cases hr.symm.trans hr'
  exact h

end Node

namespace Phrase

open Node

variable {α : Type}

theorem field_ne_of_mem {c : Category} (p : Phrase α c) {f : Option Field} {g : Field}
    (h : c.fieldIn f ≠ some g) : ∀ n ∈ p.nodes f, n.field ≠ some g := by
  intro n hn
  rw [p.field_of_mem f n hn]
  exact h

theorem token_field_ne (t : Terminal) (a : α) (g : Field) :
    (token none t a).field ≠ some g := nofun

/-- Every function, parameter and call has its name. -/
theorem every_hasName {c : Category} (p : Phrase α c) (f : Option Field) :
    EveryOf HasName (p.nodes f) := by
  induction p generalizing f with
  | function word name ps arrow ty body ihp iht ihb =>
    have hps := ps.field_ne_of_mem (f := some .parameters) (g := .name) (by decide)
    have hty := ty.field_ne_of_mem (f := some .returnType) (g := .name) (by decide)
    have hbody := body.field_ne_of_mem (f := some .body) (g := .name) (by decide)
    refine every_of_namedAt rfl ⟨[token none (.word .fnWord) word], name, _, rfl, rfl, ?_, ?_⟩ ?_
    · exact List.forall_mem_cons.mpr ⟨token_field_ne _ _ _, List.forall_mem_nil _⟩
    · exact List.forall_mem_append.mpr ⟨hps, List.forall_mem_cons.mpr
        ⟨token_field_ne _ _ _, List.forall_mem_append.mpr ⟨hty, hbody⟩⟩⟩
    · simp [HasName, ihp, iht, ihb]
  | parameter name colon ty ih =>
    have hty := ty.field_ne_of_mem (f := some .type) (g := .name) (by decide)
    refine every_of_namedAt rfl ⟨[], name, _, rfl, rfl, List.forall_mem_nil _, ?_⟩ ?_
    · exact List.forall_mem_cons.mpr ⟨token_field_ne _ _ _, hty⟩
    · simp [HasName, ih]
  | call name args ih =>
    have hargs := args.field_ne_of_mem (f := some .arguments) (g := .function) (by decide)
    refine every_of_namedAt rfl ⟨[], name, _, rfl, rfl, List.forall_mem_nil _, hargs⟩ ?_
    simp [HasName, ih]
  | _ => simp [nodes, every_rule, HasName, Rule.nameIn, *]

end Phrase

namespace Node

theorem isComment_tree (n : Node Lexeme) : n.tree.isComment = false := by
  cases n with
  | token f t a => rfl
  | rule f r ns => cases ns <;> rfl

/-- The trees of nodes without the comments between them. -/
theorem filter_trees (ns : List (Node Lexeme)) :
    (trees ns).filter (fun u => !u.isComment) = ns.map tree := by
  induction ns with
  | nil => rfl
  | cons n ns ih =>
    have hcomments : ∀ u ∈ (comments n).map Tree.comment, ¬ (!u.isComment) = true := by
      intro u hu
      obtain ⟨c, -, rfl⟩ := List.mem_map.mp hu
      exact Bool.false_ne_true
    rw [trees, List.filter_append, List.filter_eq_nil_iff.mpr hcomments]
    simp [isComment_tree, ih]

theorem parts_tree (f : Option Field) (r : Rule) (ns : List (Node Lexeme)) :
    (rule f r ns).tree.parts = ns.map tree := by
  cases ns with
  | nil => rfl
  | cons n ns =>
    show (n.tree :: trees ns).filter (fun u => !u.isComment) = _
    simp [isComment_tree, filter_trees]

/-- The part in the place of the name is the identifier in its field. -/
theorem part_iff {g : Option Field} {r : Rule} {ns : List (Node Lexeme)} {f : Field} {i : Nat}
    {u : Tree} (h : NamedAt f i ns) : (rule g r ns).tree.parts[i]? = some u ↔
      u ∈ (rule g r ns).tree.children ∧ u.field = some f ∧ u.kind = .token .identifier := by
  obtain ⟨before, a, after, hns, hi, hbefore, hafter⟩ := h
  have hmem : token (some f) .identifier a ∈ ns := by rw [hns]; simp
  have hpart : (rule g r ns).tree.parts[i]? = some (token (some f) .identifier a).tree := by
    rw [parts_tree, List.getElem?_map, hns, ← hi, List.getElem?_append_right (Nat.le_refl _),
      Nat.sub_self]
    rfl
  rw [hpart, Option.some.injEq]
  constructor
  · rintro rfl
    exact ⟨tree_mem_children hmem, rfl, rfl⟩
  · rintro ⟨hu, hf, -⟩
    rcases of_mem_children hu with ⟨c, rfl⟩ | ⟨n, hn, rfl⟩
    · cases hf
    · rw [field_tree] at hf
      rw [hns, List.mem_append, List.mem_cons] at hn
      rcases hn with hn | rfl | hn
      · exact (hbefore n hn hf).elim
      · rfl
      · exact (hafter n hn hf).elim

end Node

/-- In the tree of a file a node has its name in its place, whatever comments stand before it. -/
theorem SourceFile.part_iff {s : SourceFile} {p u : Tree} {r : Rule} {f : Field} {i : Nat}
    (hp : p.Within s.tree) (hr : p.kind = .rule r) (hn : r.nameIn = some (f, i)) :
    p.parts[i]? = some u ↔
      u ∈ p.children ∧ u.field = some f ∧ u.kind = .token .identifier := by
  rcases of_within (s.functions.every_hasName none) hp with rfl | ⟨c, rfl⟩ | ⟨n, hnode, rfl⟩
  · cases hr
    cases hn
  · cases hr
  · rw [Node.kind_tree] at hr
    cases n with
    | token g t a => cases hr
    | rule g k ns =>
      cases hr
      exact Node.part_iff ((Node.every_rule.mp hnode).1 f i hn)

end RueSyntax
