import RueSyntax.Proofs.Reader.Leaves
import RueSyntax.Proofs.Tree.Under
import RueSyntax.Proofs.Grammar.Phrases

/-!
# The leaves of a tree

`Tree.fringe` lists the leaves of a tree in preorder, tokens and comments alike, and `u.Within t`
says that `u` is `t` or stands below it.  The fringe of the tree of a file is what was read of its
text (`SourceFile.fringe_tree`).  Whatever stands in such a tree is the file, a comment, or the tree
of a node that has parts (`SourceFile.of_within`).
-/

namespace RueSyntax

def Leaf.kind : Leaf → Kind
  | token t _ _ => .token t
  | comment c => .comment c.kind

namespace Tree

mutual

/-- The leaves from left to right. -/
def fringe : Tree → List Leaf
  | token _ t w s => [.token t w s]
  | comment c => [.comment c]
  | rule _ _ _ ts => fringeOf ts

def fringeOf : List Tree → List Leaf
  | [] => []
  | t :: ts => fringe t ++ fringeOf ts

end

/-- The leaf that a tree is, if it is one. -/
def leaf? : Tree → Option Leaf
  | token _ t w s => some (.token t w s)
  | comment c => some (.comment c)
  | rule _ _ _ _ => none

/-- A tree and all below it. -/
inductive Within (u : Tree) : Tree → Prop
  | refl : Within u u
  | child {v t : Tree} (hv : v ∈ t.children) (h : Within u v) : Within u t

theorem fringeOf_eq (ts : List Tree) : fringeOf ts = ts.flatMap fringe := by
  induction ts with
  | nil => rfl
  | cons t ts ih => rw [fringeOf, ih, List.flatMap_cons]

theorem fringeOf_append (ts us : List Tree) : fringeOf (ts ++ us) = fringeOf ts ++ fringeOf us := by
  simp only [fringeOf_eq, List.flatMap_append]

theorem fringeOf_comments (cs : List Comment) : fringeOf (cs.map comment) = cs.map .comment := by
  induction cs with
  | nil => rfl
  | cons c cs ih => rw [List.map_cons, fringeOf, ih, fringe, List.singleton_append, List.map_cons]

theorem fringe_of_leaf {t : Tree} {l : Leaf} (h : t.leaf? = some l) : t.fringe = [l] := by
  cases t with
  | rule f r s ts => cases h
  | _ =>
    cases h
    rfl

/-- A tree with children has the leaves of its children. -/
theorem fringe_of_children {t u : Tree} (h : u ∈ t.children) : t.fringe = fringeOf t.children := by
  cases t with
  | rule f r s ts => rfl
  | _ => cases h

theorem fringe_infix_of_mem {ts : List Tree} {u : Tree} (h : u ∈ ts) :
    u.fringe <:+: fringeOf ts := by
  obtain ⟨before, after, rfl⟩ := List.append_of_mem h
  rw [fringeOf_append, fringeOf, ← List.append_assoc]
  exact ⟨fringeOf before, fringeOf after, rfl⟩

theorem children_of_leaf {t : Tree} {l : Leaf} (h : t.leaf? = some l) : t.children = [] := by
  cases t with
  | rule f r s ts => cases h
  | _ => rfl

theorem span_of_leaf {t : Tree} {l : Leaf} (h : t.leaf? = some l) : t.span = l.span := by
  cases t with
  | rule f r s ts => cases h
  | _ =>
    cases h
    rfl

theorem kind_of_leaf {t : Tree} {l : Leaf} (h : t.leaf? = some l) : t.kind = l.kind := by
  cases t with
  | rule f r s ts => cases h
  | _ =>
    cases h
    rfl

theorem eq_of_leaf_comment {t : Tree} {c : Comment} (h : t.leaf? = some (.comment c)) :
    t = .comment c := by
  cases t with
  | comment d =>
    cases h
    rfl
  | _ => cases h

/-! ### Preorder -/

mutual

/-- The fringe is what the preorder has of leaves. -/
theorem fringe_eq_filterMap (k : Nat) : ∀ t : Tree,
    t.fringe = (t.descendants k).filterMap fun d => d.2.leaf?
  | token _ _ _ _ => rfl
  | comment _ => rfl
  | rule _ _ _ ts => fringeOf_eq_filterMap (k + 1) ts

theorem fringeOf_eq_filterMap (k : Nat) : ∀ ts : List Tree,
    fringeOf ts = (descendantsOf k ts).filterMap fun d => d.2.leaf?
  | [] => rfl
  | t :: ts => by
    rw [fringeOf, descendantsOf, List.filterMap_append, fringe_eq_filterMap k t,
      fringeOf_eq_filterMap k ts]

end

theorem mem_descendantsOf {k : Nat} {ts : List Tree} {d : Nat × Tree} :
    d ∈ descendantsOf k ts ↔ ∃ t ∈ ts, d ∈ t.descendants k := by
  induction ts with
  | nil => simp [descendantsOf]
  | cons t ts ih => simp [descendantsOf, ih]

/-- The preorder has all that stands within a tree and nothing else. -/
theorem within_iff_descendants {u t : Tree} {k : Nat} :
    u.Within t ↔ ∃ d, (d, u) ∈ t.descendants k := by
  constructor
  · intro h
    induction h generalizing k with
    | refl => cases u <;> exact ⟨k, List.mem_cons_self⟩
    | @child v t hv h ih =>
      obtain ⟨d, hd⟩ := ih (k := k + 1)
      cases t with
      | rule f r s ts =>
        exact ⟨d, List.mem_cons_of_mem _ (mem_descendantsOf.mpr ⟨v, hv, hd⟩)⟩
      | _ => cases hv
  · exact fun ⟨d, hd⟩ => within_of_mem t k hd
where
  within_of_mem : ∀ (t : Tree) (k : Nat) {d : Nat}, (d, u) ∈ t.descendants k → u.Within t
    | token f t w s, k, d, h => by
      cases List.mem_singleton.mp h
      exact .refl
    | comment c, k, d, h => by
      cases List.mem_singleton.mp h
      exact .refl
    | rule f r s ts, k, d, h => by
      rcases List.mem_cons.mp h with h | h
      · cases h
        exact .refl
      · obtain ⟨v, hv, hd⟩ := mem_descendantsOf.mp h
        exact .child hv (within_of_mem v (k + 1) hd)

/-- Whether somewhere in the tree a node and a child of it are as asked. -/
def anyChild (b : Tree → Tree → Bool) (t : Tree) : Bool :=
  (t.descendants 0).any fun d => d.2.children.any (b d.2)

theorem exists_of_anyChild {t : Tree} {b : Tree → Tree → Bool} (h : t.anyChild b = true) :
    ∃ p v : Tree, p.Within t ∧ v ∈ p.children ∧ b p v = true := by
  obtain ⟨⟨d, p⟩, hp, hany⟩ := List.any_eq_true.mp h
  obtain ⟨v, hv, hb⟩ := List.any_eq_true.mp hany
  exact ⟨p, v, within_iff_descendants.mpr ⟨d, hp⟩, hv, hb⟩

namespace Within

variable {u v t : Tree}

theorem trans (h : u.Within v) (h' : v.Within t) : u.Within t := by
  induction h' with
  | refl => exact h
  | child hv _ ih => exact .child hv ih

theorem of_child (h : u ∈ t.children) : u.Within t := .child h .refl

/-- What stands below a tree stands right below something. -/
theorem eq_or_child (h : u.Within t) : u = t ∨ ∃ p : Tree, p.Within t ∧ u ∈ p.children := by
  induction h with
  | refl => exact .inl rfl
  | @child v t hv h ih =>
    rcases ih with rfl | ⟨p, hp, hu⟩
    · exact .inr ⟨t, .refl, hv⟩
    · exact .inr ⟨p, .child hv hp, hu⟩

theorem eq_of_leaf {l : Leaf} (h : u.Within t) (hl : t.leaf? = some l) : u = t := by
  cases h with
  | refl => rfl
  | child hv =>
    rw [children_of_leaf hl] at hv
    cases hv

/-- The leaves of a tree stand together in every tree around it. -/
theorem fringe_infix (h : u.Within t) : u.fringe <:+: t.fringe := by
  induction h with
  | refl => exact List.infix_refl _
  | @child v t hv h ih =>
    rw [fringe_of_children hv]
    exact ih.trans (fringe_infix_of_mem hv)

end Within

/-- What stands in the fringe are the leaves within the tree. -/
theorem mem_fringe {t : Tree} {l : Leaf} :
    l ∈ t.fringe ↔ ∃ u : Tree, u.Within t ∧ u.leaf? = some l := by
  rw [fringe_eq_filterMap 0 t, List.mem_filterMap]
  constructor
  · rintro ⟨⟨d, u⟩, hu, hl⟩
    exact ⟨u, within_iff_descendants.mpr ⟨d, hu⟩, hl⟩
  · rintro ⟨u, hu, hl⟩
    obtain ⟨d, hd⟩ := within_iff_descendants.mp hu
    exact ⟨(d, u), hd, hl⟩

mutual

/-- The comments of a tree are those of its fringe. -/
theorem comments_eq_filterMap : ∀ t : Tree, t.comments = t.fringe.filterMap Leaf.comment?
  | token _ _ _ _ => rfl
  | comment _ => rfl
  | rule _ _ _ ts => commentsOf_eq_filterMap ts

theorem commentsOf_eq_filterMap : ∀ ts : List Tree,
    commentsOf ts = (fringeOf ts).filterMap Leaf.comment?
  | [] => rfl
  | t :: ts => by
    rw [commentsOf, fringeOf, List.filterMap_append, comments_eq_filterMap t,
      commentsOf_eq_filterMap ts]

end

end Tree

/-! ### The tree of a node -/

namespace Node

mutual

/-- The comments before the first token of a node are all that its tree does not show. -/
theorem fringe_tree : ∀ n : Node Lexeme,
    n.comments.map Leaf.comment ++ n.tree.fringe = n.leaves.flatMap Leaf.ofToken
  | token f t a => by
    rw [comments, tree, Tree.fringe, leaves, List.flatMap_singleton, Leaf.ofToken]
  | rule f r [] => rfl
  | rule f r (n :: ns) => by
    have hn := fringe_tree n
    have hns := fringeOf_trees ns
    simp only [comments, commentsOf, tree, Tree.fringe, Tree.fringeOf, leaves, leavesOf,
      List.flatMap_append, ← hn, hns, List.append_assoc]

theorem fringeOf_trees : ∀ ns : List (Node Lexeme),
    Tree.fringeOf (trees ns) = (leavesOf ns).flatMap Leaf.ofToken
  | [] => rfl
  | n :: ns => by
    have hn := fringe_tree n
    have hns := fringeOf_trees ns
    simp only [trees, Tree.fringeOf_append, Tree.fringeOf_comments, Tree.fringeOf, leavesOf,
      List.flatMap_append, ← hn, hns, List.append_assoc]

end

theorem field_tree (n : Node Lexeme) : n.tree.field = n.field := by
  cases n with
  | token f t a => rfl
  | rule f r ns => cases ns <;> rfl

theorem kind_tree (n : Node Lexeme) : n.tree.kind = n.kind := by
  cases n with
  | token f t a => rfl
  | rule f r ns => cases ns <;> rfl

theorem tree_mem_trees {n : Node Lexeme} {ns : List (Node Lexeme)} (h : n ∈ ns) :
    n.tree ∈ trees ns := by
  induction ns with
  | nil => cases h
  | cons m ns ih =>
    rw [trees, List.mem_append]
    rcases List.mem_cons.mp h with rfl | h
    · exact .inr List.mem_cons_self
    · exact .inr (List.mem_cons_of_mem _ (ih h))

theorem tree_mem_children {f : Option Field} {r : Rule} {n : Node Lexeme}
    {ns : List (Node Lexeme)} (h : n ∈ ns) : n.tree ∈ (rule f r ns).tree.children := by
  cases ns with
  | nil => cases h
  | cons m ns =>
    rcases List.mem_cons.mp h with rfl | h
    · exact List.mem_cons_self
    · exact List.mem_cons_of_mem _ (tree_mem_trees h)

theorem mem_trees {ns : List (Node Lexeme)} {u : Tree} (h : u ∈ trees ns) :
    (∃ c, u = .comment c) ∨ ∃ n ∈ ns, u = n.tree := by
  induction ns with
  | nil => cases h
  | cons n ns ih =>
    rw [trees, List.mem_append, List.mem_cons, List.mem_map] at h
    rcases h with ⟨c, -, rfl⟩ | rfl | h
    · exact .inl ⟨c, rfl⟩
    · exact .inr ⟨n, List.mem_cons_self, rfl⟩
    · rcases ih h with hc | ⟨m, hm, hu⟩
      · exact .inl hc
      · exact .inr ⟨m, List.mem_cons_of_mem n hm, hu⟩

variable {P : Node Lexeme → Prop}

/-- A child of the tree of a node is a comment or the tree of a part. -/
theorem of_mem_children {f : Option Field} {r : Rule} {ns : List (Node Lexeme)} {u : Tree}
    (h : u ∈ (rule f r ns).tree.children) : (∃ c, u = .comment c) ∨ ∃ n ∈ ns, u = n.tree := by
  cases ns with
  | nil => cases h
  | cons n ns =>
    rcases List.mem_cons.mp h with rfl | h
    · exact .inr ⟨n, List.mem_cons_self, rfl⟩
    · rcases mem_trees h with hc | ⟨m, hm, hu⟩
      · exact .inl hc
      · exact .inr ⟨m, List.mem_cons_of_mem n hm, hu⟩

/-- What stands within the tree of a node is a comment or the tree of a node. -/
theorem of_within {n : Node Lexeme} {u : Tree} (hn : n.Every P) (h : u.Within n.tree) :
    (∃ c, u = .comment c) ∨ ∃ m : Node Lexeme, m.Every P ∧ u = m.tree := by
  generalize ht : n.tree = t at h
  induction h generalizing n with
  | refl => exact .inr ⟨n, hn, ht.symm⟩
  | @child v t hv h ih =>
    subst ht
    cases n with
    | token f t a => cases hv
    | rule f r ns =>
      rcases of_mem_children hv with ⟨c, rfl⟩ | ⟨m, hm, rfl⟩
      · exact .inl ⟨c, h.eq_of_leaf rfl⟩
      · exact ih ((every_rule.mp hn).2 m hm) rfl

end Node

/-! ### The tree of a file -/

namespace SourceFile

theorem fringe_tree (s : SourceFile) : s.tree.fringe = s.leaves := by
  rw [tree, Tree.fringe, children, Tree.fringeOf_append, Tree.fringeOf_comments,
    Node.fringeOf_trees, Phrase.leaves_nodes, leaves]

/-- What stands within the tree of a file is the file, a comment, or the tree of a node. -/
theorem of_within {s : SourceFile} {P : Node Lexeme → Prop} {u : Tree}
    (hs : Node.EveryOf P (s.functions.nodes none)) (h : u.Within s.tree) :
    u = s.tree ∨ (∃ c, u = .comment c) ∨ ∃ m : Node Lexeme, m.Every P ∧ u = m.tree := by
  cases h with
  | refl => exact .inl rfl
  | @child v _ hv h =>
    right
    rcases List.mem_append.mp hv with hv | hv
    · rcases Node.mem_trees hv with ⟨c, rfl⟩ | ⟨n, hn, rfl⟩
      · exact .inl ⟨c, h.eq_of_leaf rfl⟩
      · exact Node.of_within (hs n hn) h
    · obtain ⟨c, -, rfl⟩ := List.mem_map.mp hv
      exact .inl ⟨c, h.eq_of_leaf rfl⟩

/-- What stands right below something in the tree of a file is a comment or the tree of a node. -/
theorem of_mem_children {s : SourceFile} {P : Node Lexeme → Prop} {p u : Tree}
    (hs : Node.EveryOf P (s.functions.nodes none)) (hp : p.Within s.tree) (hu : u ∈ p.children) :
    (∃ c, u = .comment c) ∨ ∃ m : Node Lexeme, m.Every P ∧ u = m.tree := by
  rcases of_within hs hp with rfl | ⟨c, rfl⟩ | ⟨n, hn, rfl⟩
  · rcases List.mem_append.mp hu with hu | hu
    · rcases Node.mem_trees hu with hc | ⟨m, hm, rfl⟩
      · exact .inl hc
      · exact .inr ⟨m, hs m hm, rfl⟩
    · obtain ⟨c, -, rfl⟩ := List.mem_map.mp hu
      exact .inl ⟨c, rfl⟩
  · cases hu
  · cases n with
    | token f t a => cases hu
    | rule f r ns =>
      rcases Node.of_mem_children hu with hc | ⟨m, hm, rfl⟩
      · exact .inl hc
      · exact .inr ⟨m, (Node.every_rule.mp hn).2 m hm, rfl⟩

end SourceFile

end RueSyntax
