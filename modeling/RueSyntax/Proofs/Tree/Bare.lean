import RueSyntax.Tree.Layout
import RueSyntax.Proofs.Reader.Parse

/-!
# What a tree shows of the text

`Tree.bare` forgets the comments and the places in a tree and keeps the kinds, fields, nesting and
texts; `Tree.leaves` and `Tree.comments` list the leaves that are tokens and those that are
comments.  The tree of a file shows its functions in the first two ways and all its comments in the
third.
-/

namespace RueSyntax

variable {α β γ : Type}

namespace Node

mutual

/-- The node with every note replaced. -/
def map (f : α → β) : Node α → Node β
  | token field t a => token field t (f a)
  | rule field r ns => rule field r (mapOf f ns)

def mapOf (f : α → β) : List (Node α) → List (Node β)
  | [] => []
  | n :: ns => map f n :: mapOf f ns

end

mutual

/-- The node with every note replaced, which may depend on the terminal. -/
def mapTokens (f : Terminal → α → β) : Node α → Node β
  | token k t a => token k t (f t a)
  | rule k r ns => rule k r (mapTokensOf f ns)

def mapTokensOf (f : Terminal → α → β) : List (Node α) → List (Node β)
  | [] => []
  | n :: ns => mapTokens f n :: mapTokensOf f ns

end

mutual

/-- The tokens of a node from left to right. -/
def leaves : Node α → List (Token α)
  | token _ t a => [(t, a)]
  | rule _ _ ns => leavesOf ns

def leavesOf : List (Node α) → List (Token α)
  | [] => []
  | n :: ns => leaves n ++ leavesOf ns

end

theorem mapOf_append (f : α → β) (ns ms : List (Node α)) :
    mapOf f (ns ++ ms) = mapOf f ns ++ mapOf f ms := by
  induction ns with
  | nil => rfl
  | cons n ns ih => simp only [List.cons_append, mapOf, ih]

theorem leavesOf_append (ns ms : List (Node α)) :
    leavesOf (ns ++ ms) = leavesOf ns ++ leavesOf ms := by
  induction ns with
  | nil => rfl
  | cons n ns ih => simp only [List.cons_append, leavesOf, ih, List.append_assoc]

/-! ### Other notes -/

theorem mapTokensOf_eq (f : Terminal → α → β) (ns : List (Node α)) :
    mapTokensOf f ns = ns.map (mapTokens f) := by
  induction ns with
  | nil => rfl
  | cons n ns ih => rw [mapTokensOf, ih, List.map_cons]

mutual

theorem mapTokens_mapTokens (f : Terminal → β → γ) (g : Terminal → α → β) : ∀ n : Node α,
    (n.mapTokens g).mapTokens f = n.mapTokens fun t a => f t (g t a)
  | token k t a => rfl
  | rule k r ns => by rw [mapTokens, mapTokens, mapTokensOf_mapTokensOf f g ns, mapTokens]

theorem mapTokensOf_mapTokensOf (f : Terminal → β → γ) (g : Terminal → α → β) :
    ∀ ns : List (Node α),
      mapTokensOf f (mapTokensOf g ns) = mapTokensOf (fun t a => f t (g t a)) ns
  | [] => rfl
  | n :: ns => by
    rw [mapTokensOf, mapTokensOf, mapTokens_mapTokens f g n, mapTokensOf_mapTokensOf f g ns,
      mapTokensOf]

end

mutual

theorem map_eq_mapTokens (f : α → β) : ∀ n : Node α, n.map f = n.mapTokens fun _ => f
  | token k t a => rfl
  | rule k r ns => by rw [map, mapOf_eq_mapTokensOf f ns, mapTokens]

theorem mapOf_eq_mapTokensOf (f : α → β) : ∀ ns : List (Node α),
    mapOf f ns = mapTokensOf (fun _ => f) ns
  | [] => rfl
  | n :: ns => by rw [mapOf, map_eq_mapTokens f n, mapOf_eq_mapTokensOf f ns, mapTokensOf]

end

mutual

theorem leaves_mapTokens (f : Terminal → α → β) : ∀ n : Node α,
    (n.mapTokens f).leaves = n.leaves.map fun a => (a.1, f a.1 a.2)
  | token _ _ _ => rfl
  | rule _ _ ns => leavesOf_mapTokensOf f ns

theorem leavesOf_mapTokensOf (f : Terminal → α → β) : ∀ ns : List (Node α),
    leavesOf (mapTokensOf f ns) = (leavesOf ns).map fun a => (a.1, f a.1 a.2)
  | [] => rfl
  | n :: ns => by
    rw [mapTokensOf, leavesOf, leaves_mapTokens f n, leavesOf_mapTokensOf f ns, leavesOf,
      List.map_append]

end

section

variable {f : Terminal → Lexeme → Lexeme} {g : Comment → Comment}

mutual

theorem comments_mapTokens (hf : ∀ t a, (f t a).comments = a.comments.map g) :
    ∀ n : Node Lexeme, (n.mapTokens f).comments = n.comments.map g
  | token _ t a => hf t a
  | rule _ _ ns => commentsOf_mapTokensOf hf ns

theorem commentsOf_mapTokensOf (hf : ∀ t a, (f t a).comments = a.comments.map g) :
    ∀ ns : List (Node Lexeme), commentsOf (mapTokensOf f ns) = (commentsOf ns).map g
  | [] => rfl
  | n :: _ => comments_mapTokens hf n

end

end

end Node

namespace Phrase

theorem nodes_map (f : α → β) {c : Category} (p : Phrase α c) (field : Option Field) :
    (p.map f).nodes field = Node.mapOf f (p.nodes field) := by
  induction p generalizing field <;>
    simp only [map, nodes, Node.mapOf, Node.map, Node.mapOf_append, *]

theorem leaves_nodes {c : Category} (p : Phrase α c) (field : Option Field) :
    Node.leavesOf (p.nodes field) = p.tokens := by
  induction p generalizing field <;>
    simp only [tokens, nodes, Node.leavesOf, Node.leaves, Node.leavesOf_append, List.append_nil,
      List.cons_append, List.nil_append, *]

end Phrase

namespace Tree

mutual

/-- The tree without comments and places; nothing is left of a comment. -/
def bare : Tree → Option (Node Bytes)
  | token f t w _ => some (.token f t w)
  | comment _ => none
  | rule f r _ ts => some (.rule f r (bares ts))

def bares : List Tree → List (Node Bytes)
  | [] => []
  | t :: ts => (bare t).toList ++ bares ts

end

mutual

/-- The leaves that are tokens, with their texts. -/
def leaves : Tree → List (Token Bytes)
  | token _ t w _ => [(t, w)]
  | comment _ => []
  | rule _ _ _ ts => leavesOf ts

def leavesOf : List Tree → List (Token Bytes)
  | [] => []
  | t :: ts => leaves t ++ leavesOf ts

end

mutual

/-- The leaves that are comments. -/
def comments : Tree → List Comment
  | token _ _ _ _ => []
  | comment c => [c]
  | rule _ _ _ ts => commentsOf ts

def commentsOf : List Tree → List Comment
  | [] => []
  | t :: ts => comments t ++ commentsOf ts

end

theorem bares_append (ts us : List Tree) : bares (ts ++ us) = bares ts ++ bares us := by
  induction ts with
  | nil => rfl
  | cons t ts ih => simp only [List.cons_append, bares, ih, List.append_assoc]

theorem bares_comments (cs : List Comment) : bares (cs.map comment) = [] := by
  induction cs with
  | nil => rfl
  | cons c cs ih => simp only [List.map_cons, bares, bare, ih, Option.toList_none, List.append_nil]

theorem commentsOf_append (ts us : List Tree) :
    commentsOf (ts ++ us) = commentsOf ts ++ commentsOf us := by
  induction ts with
  | nil => rfl
  | cons t ts ih => simp only [List.cons_append, commentsOf, ih, List.append_assoc]

theorem commentsOf_comments (cs : List Comment) : commentsOf (cs.map comment) = cs := by
  induction cs with
  | nil => rfl
  | cons c cs ih => simp only [List.map_cons, commentsOf, comments, ih, List.singleton_append]

/-! ### Leaves and bare trees -/

mutual

theorem leaves_bare : ∀ t : Tree, Node.leavesOf t.bare.toList = t.leaves
  | token f t w s => rfl
  | comment c => rfl
  | rule f r s ts => by
    have h := leavesOf_bares ts
    simp only [bare, Option.toList_some, Node.leavesOf, Node.leaves, List.append_nil, leaves, h]

theorem leavesOf_bares : ∀ ts : List Tree, Node.leavesOf (bares ts) = leavesOf ts
  | [] => rfl
  | t :: ts => by
    rw [bares, Node.leavesOf_append, leaves_bare t, leavesOf_bares ts, leavesOf]

end

end Tree

/-! ### The tree of a node -/

namespace Node

mutual

theorem bare_tree : ∀ n : Node Lexeme, n.tree.bare = some (n.map Lexeme.text)
  | token f t a => rfl
  | rule f r [] => rfl
  | rule f r (n :: ns) => by
    have hn := bare_tree n
    have hns := bares_trees ns
    simp only [tree, Tree.bare, Tree.bares, hn, hns, Option.toList_some, List.singleton_append,
      map, mapOf]

theorem bares_trees : ∀ ns : List (Node Lexeme), Tree.bares (trees ns) = mapOf Lexeme.text ns
  | [] => rfl
  | n :: ns => by
    have hn := bare_tree n
    have hns := bares_trees ns
    simp only [trees, Tree.bares_append, Tree.bares_comments, Tree.bares, hn, hns,
      Option.toList_some, List.nil_append, List.singleton_append, mapOf]

end

mutual

/-- The comments before the first token of a node are all that its tree does not show. -/
theorem comments_tree : ∀ n : Node Lexeme,
    n.comments ++ n.tree.comments = n.leaves.flatMap fun a => a.2.comments
  | token f t a => by
    simp only [comments, tree, Tree.comments, leaves, List.flatMap_singleton, List.append_nil]
  | rule f r [] => rfl
  | rule f r (n :: ns) => by
    have hn := comments_tree n
    have hns := commentsOf_trees ns
    simp only [comments, commentsOf, tree, Tree.comments, Tree.commentsOf, leaves, leavesOf,
      List.flatMap_append, ← hn, hns, List.append_assoc]

theorem commentsOf_trees : ∀ ns : List (Node Lexeme),
    Tree.commentsOf (trees ns) = (leavesOf ns).flatMap fun a => a.2.comments
  | [] => rfl
  | n :: ns => by
    have hn := comments_tree n
    have hns := commentsOf_trees ns
    simp only [trees, Tree.commentsOf_append, Tree.commentsOf_comments, Tree.commentsOf, leavesOf,
      List.flatMap_append, ← hn, hns, List.append_assoc]

end

end Node

/-! ### The tree of a file -/

namespace SourceFile

theorem bare_tree (s : SourceFile) :
    s.tree.bare = some (.rule none .sourceFile (s.texts.nodes none)) := by
  rw [texts, Phrase.nodes_map, ← Node.bares_trees]
  simp only [tree, Tree.bare, children, Tree.bares_append, Tree.bares_comments, List.append_nil]

theorem leaves_tree (s : SourceFile) : s.tree.leaves = s.texts.tokens := by
  have h := Tree.leaves_bare s.tree
  rw [bare_tree] at h
  rw [← h, ← Phrase.leaves_nodes s.texts none]
  exact List.append_nil _

theorem comments_tree (s : SourceFile) : s.tree.comments = s.comments := by
  simp only [tree, Tree.comments, children, Tree.commentsOf_append, Tree.commentsOf_comments,
    Node.commentsOf_trees, Phrase.leaves_nodes, comments]

end SourceFile

end RueSyntax
