import Mathlib.Data.List.Basic
import RueSyntax.Proofs.Tree.Preorder
import RueSyntax.Proofs.Tree.Renaming

/-!
# One node in the place of another

`Node.Replaces m m' n n'` says that `n'` is `n` with the node `m'` in one place where `m` stands,
and `Tree.Replaces` says the same of trees.  What is asked of every node of a tree stays true if it
is true of the new node and passes from below to above (`Replaces.every`); the leaves of the new node
come in the place of those of the old one (`Replaces.leaves`).  A new node that takes over the
comments before the old one leaves all other comments where they are (`Replaces.tree`).
-/

namespace RueSyntax

variable {α β : Type}

namespace Node

/-- The node `n'` is `n` with `m'` in one place of `m`. -/
inductive Replaces (m m' : Node α) : Node α → Node α → Prop
  | here : Replaces m m' m m'
  | child {f : Option Field} {r : Rule} {n n' : Node α} {us ws : List (Node α)}
    (h : Replaces m m' n n') : Replaces m m' (rule f r (us ++ n :: ws)) (rule f r (us ++ n' :: ws))

namespace Replaces

variable {k k' m m' n n' : Node α}

theorem trans (h : Replaces k k' m m') (h' : Replaces m m' n n') : Replaces k k' n n' := by
  induction h' with
  | here => exact h
  | child _ ih => exact .child ih

theorem mapTokens (f : Terminal → α → β) (h : Replaces m m' n n') :
    Replaces (m.mapTokens f) (m'.mapTokens f) (n.mapTokens f) (n'.mapTokens f) := by
  induction h with
  | here => exact .here
  | child _ ih =>
    simp only [Node.mapTokens, mapTokensOf_eq, List.map_append, List.map_cons]
    exact .child ih

/-- The leaves of the new node come in the place of those of the old one. -/
theorem leaves (h : Replaces m m' n n') : ∃ before after,
    n.leaves = before ++ (m.leaves ++ after) ∧ n'.leaves = before ++ (m'.leaves ++ after) := by
  induction h with
  | here => exact ⟨[], [], (List.append_nil _).symm, (List.append_nil _).symm⟩
  | @child f r n n' us ws _ ih =>
    obtain ⟨before, after, hn, hn'⟩ := ih
    refine ⟨leavesOf us ++ before, after ++ leavesOf ws, ?_, ?_⟩
    · simp only [Node.leaves, leavesOf_append, leavesOf, hn, List.append_assoc]
    · simp only [Node.leaves, leavesOf_append, leavesOf, hn', List.append_assoc]

/-- What holds of all nodes below one holds of the node that is replaced. -/
theorem every_left {P : Node α → Prop} (h : Replaces m m' n n') (hn : n.Every P) : m.Every P := by
  induction h with
  | here => exact hn
  | @child f r n n' us ws _ ih =>
    exact ih ((every_rule.mp hn).2 n (List.mem_append_right _ List.mem_cons_self))

/-- If one node may stand for another in everything around them, then what holds of all old nodes
and of all below the new one holds of all nodes. -/
theorem every {P : Node α → Prop} {R : Node α → Node α → Prop}
    (hr : ∀ {f r us ws n n'}, R n n' → R (rule f r (us ++ n :: ws)) (rule f r (us ++ n' :: ws)))
    (hp : ∀ {f r us ws n n'}, R n n' → P (rule f r (us ++ n :: ws)) →
      P (rule f r (us ++ n' :: ws)))
    (h : Replaces m m' n n') (hm : R m m') (hm' : m'.Every P) (hn : n.Every P) :
    R n n' ∧ n'.Every P := by
  induction h with
  | here => exact ⟨hm, hm'⟩
  | @child f r n n' us ws _ ih =>
    obtain ⟨hrule, hs⟩ := every_rule.mp hn
    obtain ⟨hus, hnws⟩ := everyOf_append.mp hs
    obtain ⟨hn, hws⟩ := everyOf_cons.mp hnws
    obtain ⟨hnn', hn'⟩ := ih hn
    exact ⟨hr hnn', every_rule.mpr ⟨hp hnn' hrule,
      everyOf_append.mpr ⟨hus, everyOf_cons.mpr ⟨hn', hws⟩⟩⟩⟩

end Replaces

end Node

namespace Tree

/-- The tree `t'` is `t` with `v'` in one place of `v`. -/
inductive Replaces (v v' : Tree) : Tree → Tree → Prop
  | here : Replaces v v' v v'
  | child {f : Option Field} {r : Rule} {s : Span} {t t' : Tree} {us ws : List Tree}
    (h : Replaces v v' t t') :
    Replaces v v' (rule f r s (us ++ t :: ws)) (rule f r s (us ++ t' :: ws))

namespace Replaces

variable {v v' t u w : Tree}

theorem within (h : Replaces v v' t u) : v.Within t := by
  induction h with
  | here => exact .refl
  | child _ ih => exact .child (List.mem_append_right _ List.mem_cons_self) ih

/-- What is replaced is the whole tree or stands within one of the children. -/
theorem eq_or_child (h : Replaces v v' t w) : (t = v ∧ w = v') ∨ ∃ f r s us k k' ws,
    t = rule f r s (us ++ k :: ws) ∧ w = rule f r s (us ++ k' :: ws) ∧ Replaces v v' k k' := by
  cases h with
  | here => exact .inl ⟨rfl, rfl⟩
  | child h => exact .inr ⟨_, _, _, _, _, _, _, rfl, rfl, h⟩

/-- Where nothing stands in two places, there is one way to replace it. -/
theorem unique (ho : t.Ordered) (hleafy : t.Leafy) {l : Leaf} (hl : l ∈ v.fringe)
    (h : Replaces v v' t u) (h' : Replaces v v' t w) : u = w := by
  have hbelow : ∀ {k : Tree}, k ∈ v.children → ¬ v.Within k := fun hk hv => by
    have hle := hv.sizeOf_le
    have hlt := sizeOf_lt_of_mem hk
    omega
  induction h generalizing w with
  | here =>
    rcases h'.eq_or_child with ⟨-, rfl⟩ | ⟨f, r, s, us, k, k', ws, rfl, -, hk⟩
    · rfl
    · exact (hbelow (List.mem_append_right us List.mem_cons_self) hk.within).elim
  | @child f r s t t' us ws h ih =>
    have ht : t ∈ (rule f r s (us ++ t :: ws)).children :=
      List.mem_append_right us List.mem_cons_self
    rcases h'.eq_or_child with ⟨rfl, -⟩ | ⟨f', r', s', us', k, k', ws', heq, rfl, hk⟩
    · exact (hbelow ht h.within).elim
    · injection heq with hf hr hs hts
      subst hf hr hs
      have hk' : k ∈ (rule f r s (us ++ t :: ws)).children := by
        rw [children, hts]
        exact List.mem_append_right us' List.mem_cons_self
      obtain rfl := ho.child_unique ht hk' h.within hk.within hl
      have hnodup := ho.nodup_children hleafy .refl
      obtain ⟨hus, hws⟩ : t ∉ us ∧ t ∉ ws := by
        rw [children, List.nodup_append, List.nodup_cons] at hnodup
        exact ⟨fun hmem => hnodup.2.2 t hmem t List.mem_cons_self rfl, hnodup.2.1.1⟩
      obtain ⟨rfl, -, rfl⟩ := (List.append_cons_inj_of_notMem hus hws).mp hts
      have hwithin := Within.of_child ht
      rw [ih (ho.of_within hwithin) (fun p hp => hleafy p (hp.trans hwithin)) hk]

end Replaces

/-- The outline around a place in a list. -/
theorem outlineAll_around {t t' : Tree} (h : t.outline = t'.outline) (us ws : List Tree) :
    outlineAll (us ++ t :: ws) = outlineAll (us ++ t' :: ws) := by
  rw [outlineAll_append, outlineAll_append, outlineAll, outlineAll, h]

end Tree

/-! ### Trees of nodes -/

namespace Node

/-- All that a node with the same comments before it changes in the tree around it is its own
tree. -/
theorem exists_tree_append (f : Option Field) (r : Rule) (us : List (Node Lexeme))
    (n : Node Lexeme) (ws : List (Node Lexeme)) :
    ∃ before after, ∀ n' : Node Lexeme, n'.comments = n.comments →
      (rule f r (us ++ n' :: ws)).comments = (rule f r (us ++ n :: ws)).comments ∧
        ∃ s, (rule f r (us ++ n' :: ws)).tree = .rule f r s (before ++ n'.tree :: after) := by
  cases us with
  | nil =>
    refine ⟨[], trees ws, fun n' hn' => ⟨?_, _, rfl⟩⟩
    simp only [List.nil_append, comments, commentsOf, hn']
  | cons u us =>
    refine ⟨u.tree :: (trees us ++ n.comments.map .comment), trees ws, fun n' hn' => ⟨rfl, ?_⟩⟩
    have htrees : trees (us ++ n' :: ws) =
        trees us ++ n.comments.map .comment ++ n'.tree :: trees ws := by
      rw [trees_append, trees, hn', List.append_assoc]
    rw [List.cons_append, tree, htrees]
    exact ⟨_, rfl⟩

/-- With the comments before it, the new node changes nothing but its own tree. -/
theorem Replaces.tree {m m' n n' : Node Lexeme} (h : Replaces m m' n n')
    (hc : m'.comments = m.comments) {v' : Tree} (hv : v'.outline = m'.tree.outline) :
    n'.comments = n.comments ∧
      ∃ t, Tree.Replaces m.tree v' n.tree t ∧ t.outline = n'.tree.outline := by
  induction h with
  | here => exact ⟨hc, v', .here, hv⟩
  | @child f r n n' us ws _ ih =>
    obtain ⟨hcomments, t, ht, houtline⟩ := ih
    obtain ⟨before, after, haround⟩ := exists_tree_append f r us n ws
    obtain ⟨-, s, hs⟩ := haround n rfl
    obtain ⟨hc', s', hs'⟩ := haround n' hcomments
    refine ⟨hc', .rule f r s (before ++ t :: after), ?_, ?_⟩
    · rw [hs]
      exact .child ht
    · rw [hs', Tree.outline, Tree.outline, Tree.outlineAll_around houtline]

/-- What stands within the tree of a node is a comment or the tree of a node that can be
replaced. -/
theorem exists_replaces {n : Node Lexeme} {u : Tree} (h : u.Within n.tree) :
    (∃ c, u = .comment c) ∨ ∃ m : Node Lexeme, m.tree = u ∧ ∀ m', ∃ n', Replaces m m' n n' := by
  generalize ht : n.tree = t at h
  induction h generalizing n with
  | refl => exact .inr ⟨n, ht, fun m' => ⟨m', .here⟩⟩
  | @child v t hv h ih =>
    subst ht
    cases n with
    | token f t a => cases hv
    | rule f r ns =>
      rcases of_mem_children hv with ⟨c, rfl⟩ | ⟨n, hn, rfl⟩
      · exact .inl ⟨c, h.eq_of_leaf rfl⟩
      · obtain ⟨us, ws, rfl⟩ := List.append_of_mem hn
        refine (ih rfl).imp_right fun ⟨m, hm, hall⟩ => ⟨m, hm, fun m' => ?_⟩
        obtain ⟨n', hn'⟩ := hall m'
        exact ⟨_, .child hn'⟩

end Node

/-! ### Files -/

namespace SourceFile

/-- What stands within the tree of a file is the file, a comment, or the tree of a node that can be
replaced in a function. -/
theorem exists_replaces {s : SourceFile} {u : Tree} (h : u.Within s.tree) :
    u = s.tree ∨ (∃ c, u = .comment c) ∨ ∃ m : Node Lexeme, m.tree = u ∧ ∃ us n ws,
      s.functions.nodes none = us ++ n :: ws ∧ ∀ m', ∃ n', Node.Replaces m m' n n' := by
  cases h with
  | refl => exact .inl rfl
  | @child v _ hv h =>
    right
    rcases List.mem_append.mp hv with hv | hv
    · rcases Node.mem_trees hv with ⟨c, rfl⟩ | ⟨n, hn, rfl⟩
      · exact .inl ⟨c, h.eq_of_leaf rfl⟩
      · obtain ⟨us, ws, hns⟩ := List.append_of_mem hn
        exact (Node.exists_replaces h).imp_right fun ⟨m, hm, hall⟩ =>
          ⟨m, hm, us, n, ws, hns, hall⟩
    · obtain ⟨c, -, rfl⟩ := List.mem_map.mp hv
      exact .inl ⟨c, h.eq_of_leaf rfl⟩

/-- The tree of a file with these nodes and comments, wherever they stand. -/
def treeOf (ns : List (Node Lexeme)) (cs : List Comment) : Tree :=
  .rule none .sourceFile default (Node.trees ns ++ cs.map Tree.comment)

theorem outline_tree (s : SourceFile) :
    s.tree.outline = (treeOf (s.functions.nodes none) s.trailing).outline := rfl

/-- A replaced node in a function is replaced in the file, and nothing else is. -/
theorem tree_replaces {s : SourceFile} {us ws : List (Node Lexeme)} {m m' n n' : Node Lexeme}
    (hs : s.functions.nodes none = us ++ n :: ws) (h : Node.Replaces m m' n n')
    (hc : m'.comments = m.comments) {v' : Tree} (hv : v'.outline = m'.tree.outline) :
    ∃ t, Tree.Replaces m.tree v' s.tree t ∧
      t.outline = (treeOf (us ++ n' :: ws) s.trailing).outline := by
  obtain ⟨hcomments, t, ht, houtline⟩ := h.tree hc hv
  have hchildren : ∀ k : Node Lexeme, k.comments = n.comments →
      Node.trees (us ++ k :: ws) ++ s.trailing.map Tree.comment =
        (Node.trees us ++ n.comments.map .comment) ++
          k.tree :: (Node.trees ws ++ s.trailing.map Tree.comment) := by
    intro k hk
    simp only [Node.trees_append, Node.trees, hk, List.append_assoc, List.cons_append]
  have htree := hchildren n rfl
  rw [← hs] at htree
  refine ⟨.rule none .sourceFile s.tree.span ((Node.trees us ++ n.comments.map .comment) ++
    t :: (Node.trees ws ++ s.trailing.map Tree.comment)), ?_, ?_⟩
  · have hfile : s.tree = .rule none .sourceFile s.tree.span s.children := rfl
    rw [hfile, children, htree]
    exact .child ht
  · rw [treeOf, Tree.outline, Tree.outline, hchildren n' hcomments,
      Tree.outlineAll_around houtline]

end SourceFile

end RueSyntax
