import RueSyntax.Proofs.Reader.Renaming
import RueSyntax.Proofs.Tree.Bare

/-!
# Trees without places

`Tree.outline` forgets the places in a tree and keeps the rest: kinds, fields, nesting, texts and
comments.  `Node.shape` keeps kinds, fields and nesting alone.  A node is known by its shape and its
leaves (`Node.eq_of_shape`), and the tokens of a file with the comments before each are known by the
leaves of the file (`Leaf.collect_leaves`).
-/

namespace RueSyntax

variable {α β : Type}

/-! ### Nodes and their leaves -/

namespace Node

/-- Kinds, fields and nesting. -/
def shape (n : Node α) : Node Unit := n.mapTokens fun _ _ => ()

theorem shape_mapTokens (f : Terminal → α → β) (n : Node α) : (n.mapTokens f).shape = n.shape :=
  mapTokens_mapTokens _ f n

/-- Nodes of one shape have leaves of the same kinds. -/
theorem kinds_of_shape {n : Node α} {m : Node β} (h : n.shape = m.shape) :
    n.leaves.map Prod.fst = m.leaves.map Prod.fst := by
  have hn := leaves_mapTokens (fun _ _ => ()) n
  have hm := leaves_mapTokens (fun _ _ => ()) m
  have hleaves : n.shape.leaves.map Prod.fst = m.shape.leaves.map Prod.fst := by rw [h]
  rw [shape, hn, shape, hm, List.map_map, List.map_map] at hleaves
  exact hleaves

theorem length_leaves_of_shape {n : Node α} {m : Node β} (h : n.shape = m.shape) :
    n.leaves.length = m.leaves.length := by
  have hlength := congrArg List.length (kinds_of_shape h)
  rwa [List.length_map, List.length_map] at hlength

mutual

/-- A node is known by its shape and its leaves. -/
theorem eq_of_shape : ∀ n m : Node α, n.shape = m.shape → n.leaves = m.leaves → n = m
  | token k t a, token k' t' a', h, hl => by
    cases h
    cases hl
    rfl
  | token k t a, rule k' r' ms, h, _ => by cases h
  | rule k r ns, token k' t' a', h, _ => by cases h
  | rule k r ns, rule k' r' ms, h, hl => by
    injection h with hk hr hns
    rw [hk, hr, eqOf_of_shape ns ms hns hl]

theorem eqOf_of_shape : ∀ ns ms : List (Node α),
    mapTokensOf (fun _ _ => ()) ns = mapTokensOf (fun _ _ => ()) ms →
      leavesOf ns = leavesOf ms → ns = ms
  | [], [], _, _ => rfl
  | [], m :: ms, h, _ => by cases h
  | n :: ns, [], h, _ => by cases h
  | n :: ns, m :: ms, h, hl => by
    obtain ⟨hn, hns⟩ := List.cons.inj h
    obtain ⟨hln, hlns⟩ := List.append_inj hl (length_leaves_of_shape hn)
    rw [eq_of_shape n m hn hln, eqOf_of_shape ns ms hns hlns]

end

end Node

/-! ### Tokens and comments among leaves -/

namespace Leaf

/-- The tokens of a list of leaves, each with the comments before it, and the comments behind the
last of them; the comments `cs` stand in front. -/
def collect : List Comment → List Leaf → List (Token Lexeme) × List Comment
  | cs, [] => ([], cs)
  | cs, comment c :: ls => collect (cs ++ [c]) ls
  | cs, token t w s :: ls =>
    let r := collect [] ls
    ((t, ⟨cs, w, s⟩) :: r.1, r.2)

theorem collect_comments (cs ds : List Comment) (ls : List Leaf) :
    collect cs (ds.map comment ++ ls) = collect (cs ++ ds) ls := by
  induction ds generalizing cs with
  | nil => rw [List.map_nil, List.nil_append, List.append_nil]
  | cons d ds ih => rw [List.map_cons, List.cons_append, collect, ih, List.append_assoc,
      List.singleton_append]

/-- The tokens and comments come back from the leaves. -/
theorem collect_leaves (ts : List (Token Lexeme)) (cs : List Comment) :
    collect [] (ts.flatMap ofToken ++ cs.map comment) = (ts, cs) := by
  induction ts with
  | nil =>
    have h := collect_comments [] cs []
    rwa [List.append_nil, List.nil_append] at h
  | cons a ts ih =>
    rw [List.flatMap_cons, ofToken, List.append_assoc, List.append_assoc, collect_comments,
      List.singleton_append, collect, ih]
    rfl

end Leaf

/-- Nodes with the same leaves and comments behind them are the same if they have one shape. -/
theorem Node.eq_of_leaves {n m : Node Lexeme} {cs ds : List Comment} (hshape : n.shape = m.shape)
    (h : n.leaves.flatMap Leaf.ofToken ++ cs.map .comment =
      m.leaves.flatMap Leaf.ofToken ++ ds.map .comment) : n = m ∧ cs = ds := by
  have hcollect := congrArg (Leaf.collect []) h
  rw [Leaf.collect_leaves, Leaf.collect_leaves] at hcollect
  obtain ⟨htokens, hcomments⟩ := Prod.mk.inj hcollect
  exact ⟨Node.eq_of_shape n m hshape htokens, hcomments⟩

/-- The token without its place and those of its comments. -/
def Lexeme.unplaced (a : Lexeme) : Lexeme := ⟨a.comments.map Comment.unplaced, a.text, default⟩

/-! ### Outlines -/

namespace Tree

mutual

/-- The tree without places: kinds, fields, nesting, texts and comments. -/
def outline : Tree → Tree
  | token f t w _ => token f t w default
  | comment c => comment c.unplaced
  | rule f r _ ts => rule f r default (outlineAll ts)

def outlineAll : List Tree → List Tree
  | [] => []
  | t :: ts => outline t :: outlineAll ts

end

theorem outlineAll_eq (ts : List Tree) : outlineAll ts = ts.map outline := by
  induction ts with
  | nil => rfl
  | cons t ts ih => rw [outlineAll, ih, List.map_cons]

theorem outlineAll_append (ts us : List Tree) :
    outlineAll (ts ++ us) = outlineAll ts ++ outlineAll us := by
  simp only [outlineAll_eq, List.map_append]

theorem outlineAll_comments (cs : List Comment) :
    outlineAll (cs.map comment) = (cs.map Comment.unplaced).map comment := by
  rw [outlineAll_eq, List.map_map, List.map_map]
  rfl

end Tree

namespace Node

mutual

/-- The outline of a tree does not depend on places. -/
theorem outline_tree : ∀ n : Node Lexeme,
    n.tree.outline = (n.mapTokens fun _ => Lexeme.unplaced).tree.outline
  | token k t a => rfl
  | rule k r [] => rfl
  | rule k r (n :: ns) => by
    have hn := outline_tree n
    have hns := outlineAll_trees ns
    simp only [tree, mapTokens, mapTokensOf, Tree.outline, Tree.outlineAll, ← hn, ← hns]

theorem outlineAll_trees : ∀ ns : List (Node Lexeme), Tree.outlineAll (trees ns) =
    Tree.outlineAll (trees (mapTokensOf (fun _ => Lexeme.unplaced) ns))
  | [] => rfl
  | n :: ns => by
    have hn := outline_tree n
    have hns := outlineAll_trees ns
    have hcomments : (n.mapTokens fun _ => Lexeme.unplaced).comments =
        n.comments.map Comment.unplaced := comments_mapTokens (fun _ _ => rfl) n
    have htwice : (n.comments.map Comment.unplaced).map Comment.unplaced =
        n.comments.map Comment.unplaced := List.map_map
    rw [mapTokensOf, trees, trees, Tree.outlineAll_append, Tree.outlineAll_append,
      Tree.outlineAll_comments, Tree.outlineAll_comments, Tree.outlineAll, Tree.outlineAll, ← hn,
      ← hns, hcomments, htwice]

end

end Node

end RueSyntax
