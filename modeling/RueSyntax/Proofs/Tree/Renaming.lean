import RueSyntax.Proofs.Tree.Fringe
import RueSyntax.Proofs.Tree.Grouping
import RueSyntax.Proofs.Tree.Named
import RueSyntax.Proofs.Tree.Outline

/-!
# Names are interchangeable

A program stays one with the same tree if its identifiers get other names, any at all where a name
is introduced, and elsewhere any that is not read as a keyword there: none that begins an
expression, and not `let` where a statement or the value of a block begins
(`exists_parse_renameText`).  With a name that is read as a keyword the text may still be a program,
but its tree is another: one of the same shape has exactly the leaves with the new names
(`renamed_of_shape`), and what was read is named as it has to be (`Phrase.named_file`).
-/

namespace RueSyntax

/-- The token with the new name for its place, if it is an identifier. -/
def Lexeme.rename (ρ : Nat → Name) (t : Terminal) (a : Lexeme) : Lexeme :=
  { a with text := t.newText ρ a.text a.span }

namespace Tree

mutual

/-- The tree with the new names. -/
def rename (ρ : Nat → Name) : Tree → Tree
  | token f t w s => token f t (t.newText ρ w s) s
  | comment c => comment c
  | rule f r s ts => rule f r s (renameAll ρ ts)

def renameAll (ρ : Nat → Name) : List Tree → List Tree
  | [] => []
  | t :: ts => rename ρ t :: renameAll ρ ts

end

/-- Kinds, fields and nesting, without comments. -/
def shape (t : Tree) : Option (Node Unit) := t.bare.map Node.shape

/-- With the new names, no identifier is read as a keyword: one that is not introduced where it
stands has no spelling of a word that begins an expression, and no statement or value of a block
begins with one in the spelling of `let`. -/
def Renameable (ρ : Nat → Name) (t : Tree) : Prop := ∀ T ∈ (t.rename ρ).bare, T.Every Node.Named

instance (ρ : Nat → Name) (t : Tree) : Decidable (t.Renameable ρ) :=
  inferInstanceAs (Decidable (∀ T ∈ (t.rename ρ).bare, T.Every Node.Named))

section

variable (ρ : Nat → Name)

theorem renameAll_eq (ts : List Tree) : renameAll ρ ts = ts.map (rename ρ) := by
  induction ts with
  | nil => rfl
  | cons t ts ih => rw [renameAll, ih, List.map_cons]

theorem renameAll_append (ts us : List Tree) :
    renameAll ρ (ts ++ us) = renameAll ρ ts ++ renameAll ρ us := by
  simp only [renameAll_eq, List.map_append]

theorem renameAll_comments (cs : List Comment) :
    renameAll ρ (cs.map comment) = cs.map comment := by
  rw [renameAll_eq, List.map_map]
  rfl

theorem span_rename (t : Tree) : (t.rename ρ).span = t.span := by
  cases t <;> rfl

/-- New names do not change where trees stand. -/
theorem around_renameAll (ts : List Tree) : Span.around (renameAll ρ ts) = Span.around ts := by
  rw [renameAll_eq, Span.around_map (p := id) (span_rename ρ)]
  exact Option.map_id'

end

end Tree

/-! ### What does not depend on names -/

namespace Node

section

variable (ρ : Nat → Name)

mutual

/-- The tree of a node with new names is the tree of the node, with new names. -/
theorem tree_rename : ∀ n : Node Lexeme, (n.mapTokens (Lexeme.rename ρ)).tree = n.tree.rename ρ
  | token k t a => rfl
  | rule k r [] => rfl
  | rule k r (n :: ns) => by
    have hn := tree_rename n
    have hns := trees_rename ns
    have haround := Tree.around_renameAll ρ (n.tree :: trees ns)
    rw [Tree.renameAll] at haround
    simp only [mapTokens, mapTokensOf, tree, hn, hns, haround, Tree.rename, Tree.renameAll]

theorem trees_rename : ∀ ns : List (Node Lexeme),
    trees (mapTokensOf (Lexeme.rename ρ) ns) = Tree.renameAll ρ (trees ns)
  | [] => rfl
  | n :: ns => by
    have hn := tree_rename n
    have hns := trees_rename ns
    have hkept : ∀ t a, (Lexeme.rename ρ t a).comments = a.comments.map id :=
      fun _ a => (List.map_id a.comments).symm
    have hcomments := comments_mapTokens hkept n
    rw [List.map_id] at hcomments
    simp only [mapTokensOf, trees, hn, hns, hcomments, Tree.renameAll_append,
      Tree.renameAll_comments, Tree.renameAll]

end

end

variable {α β : Type} {f : Terminal → α → β}

theorem label_mapTokens (n : Node α) : (n.mapTokens f).label = n.label := by
  cases n <;> rfl

theorem conforms_mapTokens {n : Node α} : (n.mapTokens f).Conforms ↔ n.Conforms := by
  cases n with
  | token k t a => exact Iff.rfl
  | rule k r ns =>
    have hlabels : (mapTokensOf f ns).map label = ns.map label := by
      rw [mapTokensOf_eq, List.map_map]
      exact List.map_congr_left fun n _ => label_mapTokens n
    rw [mapTokens, Conforms, Conforms, hlabels]

/-- Three parts around an operator come from three parts around it. -/
theorem binary_of_mapTokens {n : Node α} {k g : Option Field} {o : Operator} {l m : Node β} {b : β}
    (h : n.mapTokens f = rule k .binaryExpression [l, token g (.operator o) b, m]) :
    ∃ l' a m', n = rule k .binaryExpression [l', token g (.operator o) a, m'] ∧
      l = l'.mapTokens f ∧ m = m'.mapTokens f := by
  cases n with
  | token => cases h
  | rule k' r ns =>
    injection h with hk hr hns
    subst hk hr
    rw [mapTokensOf_eq] at hns
    obtain ⟨l', ns, rfl, rfl, hs⟩ := List.map_eq_cons_iff.mp hns
    obtain ⟨s, ns, rfl, hs, hm⟩ := List.map_eq_cons_iff.mp hs
    obtain ⟨m', ns, rfl, rfl, hn⟩ := List.map_eq_cons_iff.mp hm
    obtain rfl := List.map_eq_nil_iff.mp hn
    cases s with
    | rule => cases hs
    | token g' t a =>
      cases hs
      exact ⟨l', a, m', rfl, rfl, rfl⟩

theorem rank_mapTokens (n : Node α) : (n.mapTokens f).rank? = n.rank? := by
  refine Option.ext fun i => ⟨fun h => ?_, fun h => ?_⟩
  · unfold rank? at h
    split at h
    · next hn =>
      obtain ⟨l, a, m, rfl, -⟩ := binary_of_mapTokens hn
      exact h
    · cases h
  · unfold rank? at h
    split at h
    · exact h
    · cases h

theorem grouped_mapTokens {n : Node α} : (n.mapTokens f).Grouped ↔ n.Grouped := by
  constructor
  · intro h
    unfold Grouped
    split
    · obtain ⟨hl, hr⟩ := h
      rw [rank_mapTokens] at hl hr
      exact ⟨hl, hr⟩
    · trivial
  · intro h
    unfold Grouped
    split
    · next hn =>
      obtain ⟨l, a, m, rfl, rfl, rfl⟩ := binary_of_mapTokens hn
      rw [rank_mapTokens, rank_mapTokens]
      exact h
    · trivial

mutual

theorem every_mapTokens {P : Node β → Prop} : ∀ n : Node α,
    (n.mapTokens f).Every P ↔ n.Every fun m => P (m.mapTokens f)
  | token k t a => by rw [mapTokens, every_token, every_token, mapTokens]
  | rule k r ns => by rw [mapTokens, every_rule, every_rule, everyOf_mapTokensOf ns, mapTokens]

theorem everyOf_mapTokensOf {P : Node β → Prop} : ∀ ns : List (Node α),
    EveryOf P (mapTokensOf f ns) ↔ EveryOf (fun m => P (m.mapTokens f)) ns
  | [] => by simp [mapTokensOf]
  | n :: ns => by
    rw [mapTokensOf, everyOf_cons, everyOf_cons, every_mapTokens n, everyOf_mapTokensOf ns]

end

/-- What leaves become without their places, tokens and comments become. -/
theorem map_leaves {f : Terminal → Lexeme → Lexeme} {g : Leaf → Leaf}
    (hg : ∀ c, g (.comment c) = .comment c.unplaced)
    (hf : ∀ t a, g (.token t a.text a.span) = .token t (f t a).text (f t a).span)
    (hc : ∀ t a, (f t a).comments = a.comments.map Comment.unplaced) (n : Node Lexeme)
    (cs : List Comment) : (n.leaves.flatMap Leaf.ofToken ++ cs.map Leaf.comment).map g =
      (n.mapTokens f).leaves.flatMap Leaf.ofToken ++ (cs.map Comment.unplaced).map .comment := by
  have hcomments : ∀ cs : List Comment,
      (cs.map Leaf.comment).map g = (cs.map Comment.unplaced).map .comment := fun cs => by
    rw [List.map_map, List.map_map]
    exact List.map_congr_left fun c _ => hg c
  have htoken : ∀ a : Token Lexeme, (Leaf.ofToken a).map g = Leaf.ofToken (a.1, f a.1 a.2) :=
    fun a => by
      rw [Leaf.ofToken, Leaf.ofToken, List.map_append, hcomments, hc, List.map_singleton, hf]
  rw [List.map_append, hcomments, List.map_flatMap, leaves_mapTokens, List.flatMap_map]
  simp only [htoken]

theorem map_leaves_unplaced (n : Node Lexeme) (cs : List Comment) :
    (n.leaves.flatMap Leaf.ofToken ++ cs.map Leaf.comment).map Leaf.unplaced =
      (n.mapTokens fun _ => Lexeme.unplaced).leaves.flatMap Leaf.ofToken ++
        (cs.map Comment.unplaced).map .comment :=
  map_leaves (fun _ => rfl) (fun _ _ => rfl) (fun _ _ => rfl) n cs

end Node

/-! ### Files -/

namespace SourceFile

variable {s s' : SourceFile} {ρ : Nat → Name}

/-- The file as a node. -/
def node (s : SourceFile) : Node Lexeme := .rule none .sourceFile (s.functions.nodes none)

theorem leaves_node (s : SourceFile) : s.node.leaves = s.functions.tokens :=
  s.functions.leaves_nodes none

theorem leaves_eq (s : SourceFile) :
    s.leaves = s.node.leaves.flatMap Leaf.ofToken ++ s.trailing.map .comment := by
  rw [leaves_node, leaves]

/-- The nodes of a file with their texts. -/
theorem node_texts (s : SourceFile) :
    (s.node.mapTokens fun _ => Lexeme.text) = .rule none .sourceFile (s.texts.nodes none) := by
  rw [texts, Phrase.nodes_map, Node.mapOf_eq_mapTokensOf, node, Node.mapTokens]

theorem bare_node (s : SourceFile) :
    s.tree.bare = some (s.node.mapTokens fun _ => Lexeme.text) := by
  rw [s.bare_tree, node_texts]

/-- A text that is made of the tokens of a well-formed tree is read as that tree. -/
theorem exists_parse_of_wellFormed {T : Node Bytes} (h : T.WellFormed) {mark x : Bytes}
    {ls : List Leaf} (hm : mark = [] ∨ mark = byteOrderMark)
    (hx : Tiled (Position.start.after mark) ls x) (hls : ls.filterMap Leaf.token? = T.leaves) :
    ∃ s, parse (mark ++ x) = .ok s ∧ (s.node.mapTokens fun _ => Lexeme.text) = T ∧
      s.leaves = ls := by
  obtain ⟨fs, rfl, hproper, hspelled⟩ := h.functions
  have hleaves : (Node.rule none .sourceFile (fs.nodes none)).leaves = fs.tokens :=
    fs.leaves_nodes none
  have hruns : (State.top .noFunctions).Leads (ls.filterMap Leaf.token?) (.top fs) := by
    rw [hls, hleaves]
    exact fs.runs_of_proper hproper hspelled
  obtain ⟨s, hs, rfl, rfl⟩ := parse_of_tiled hm hx hruns
  exact ⟨s, hs, s.node_texts, rfl⟩

theorem shape_tree (s : SourceFile) : s.tree.shape = some s.node.shape := by
  rw [Tree.shape, s.bare_node, Option.map_some, Node.shape_mapTokens]

theorem children_rename (ρ : Nat → Name) (s : SourceFile) :
    Tree.renameAll ρ s.children =
      Node.trees (Node.mapTokensOf (Lexeme.rename ρ) (s.functions.nodes none)) ++
        s.trailing.map Tree.comment := by
  rw [children, Tree.renameAll_append, Tree.renameAll_comments, Node.trees_rename]

theorem bare_rename (ρ : Nat → Name) (s : SourceFile) :
    (s.tree.rename ρ).bare = some (s.node.mapTokens fun t a => (a.rename ρ t).text) := by
  rw [tree, Tree.rename, children_rename, Tree.bare, Tree.bares_append, Tree.bares_comments,
    List.append_nil, Node.bares_trees, Node.mapOf_eq_mapTokensOf, Node.mapTokensOf_mapTokensOf,
    node, Node.mapTokens]

theorem map_leaves_rename (ρ : Nat → Name) (s : SourceFile) :
    s.leaves.map (fun l => (l.rename ρ).unplaced) =
      (s.node.mapTokens fun t a => (a.rename ρ t).unplaced).leaves.flatMap Leaf.ofToken ++
        (s.trailing.map Comment.unplaced).map .comment := by
  rw [leaves_eq]
  exact Node.map_leaves (f := fun t a => (a.rename ρ t).unplaced)
    (g := fun l => (l.rename ρ).unplaced) (fun _ => rfl) (fun _ _ => rfl) (fun _ _ => rfl) s.node
    s.trailing

/-- A renamed file of the same shape has the same nodes with other names, and the same comments. -/
theorem node_of_renamed (h : Renamed ρ s.leaves s'.leaves)
    (hshape : s'.node.shape = s.node.shape) :
    (s'.node.mapTokens fun _ => Lexeme.unplaced) =
        (s.node.mapTokens fun t a => (a.rename ρ t).unplaced) ∧
      s'.trailing.map Comment.unplaced = s.trailing.map Comment.unplaced := by
  have hleaves := h.trans (map_leaves_rename ρ s)
  rw [leaves_eq, Node.map_leaves_unplaced] at hleaves
  refine Node.eq_of_leaves ?_ hleaves
  rw [Node.shape_mapTokens, Node.shape_mapTokens, hshape]

/-- The outline of a renamed file of the same shape has the new names. -/
theorem outline_of_renamed (h : Renamed ρ s.leaves s'.leaves)
    (hshape : s'.node.shape = s.node.shape) :
    s'.tree.outline = (s.tree.rename ρ).outline := by
  obtain ⟨hnode, htrailing⟩ := node_of_renamed h hshape
  have hnodes : Node.mapTokensOf (fun _ => Lexeme.unplaced) (s'.functions.nodes none) =
      Node.mapTokensOf (fun _ => Lexeme.unplaced)
        (Node.mapTokensOf (Lexeme.rename ρ) (s.functions.nodes none)) := by
    rw [Node.mapTokensOf_mapTokensOf]
    exact (Node.rule.inj hnode).2.2
  rw [tree, tree, Tree.rename, Tree.outline, Tree.outline, children_rename, children,
    Tree.outlineAll_append, Tree.outlineAll_append, Tree.outlineAll_comments,
    Tree.outlineAll_comments, htrailing, Node.outlineAll_trees, hnodes, ← Node.outlineAll_trees]

theorem bare_of_renamed (h : Renamed ρ s.leaves s'.leaves)
    (hshape : s'.node.shape = s.node.shape) :
    s'.tree.bare = (s.tree.rename ρ).bare := by
  have htext := congrArg (Node.mapTokens fun _ => Lexeme.text) (node_of_renamed h hshape).1
  rw [Node.mapTokens_mapTokens, Node.mapTokens_mapTokens] at htext
  rw [bare_node, bare_rename]
  exact congrArg some htext

/-- The tokens among the leaves of a renamed file. -/
theorem tokens_of_renamed {ls : List Leaf} (h : Renamed ρ s.leaves ls) :
    ls.filterMap Leaf.token? = (s.node.mapTokens fun t a => (a.rename ρ t).text).leaves := by
  calc ls.filterMap Leaf.token?
      = (ls.map Leaf.unplaced).filterMap Leaf.token? := (Leaf.filterMap_unplaced ls).symm
    _ = (s.node.mapTokens fun t a => (a.rename ρ t).unplaced).leaves.map
          fun a => (a.1, a.2.text) := by
        rw [h.trans (map_leaves_rename ρ s), List.filterMap_append, Leaf.filterMap_comment,
          List.append_nil, Leaf.filterMap_ofToken]
    _ = _ := by
        rw [Node.leaves_mapTokens, Node.leaves_mapTokens, List.map_map]
        rfl

end SourceFile

/-! ### Texts with other names -/

section

variable {text : Bytes} {s s' : SourceFile} {ρ : Nat → Name}

/-- A program with new names is made of its leaves with new names. -/
theorem tiled_renameText (hs : parse text = .ok s) (ρ : Nat → Name) :
    ∃ mark x ls, renameText ρ s.leaves text = mark ++ x ∧ (mark = [] ∨ mark = byteOrderMark) ∧
      Tiled (Position.start.after mark) ls x ∧ Renamed ρ s.leaves ls := by
  obtain ⟨mark, x, rfl, hm, hx⟩ := tiled_of_parse hs
  obtain ⟨ls, y, hy, hls, -, htext⟩ := hx.rename ρ (Position.start.after mark)
  exact ⟨mark, y, ls, htext mark (Position.byte_start_after mark).symm, hm, hy, hls⟩

/-- The nodes of a program with new names are well formed if none is read as a keyword. -/
theorem wellFormed_rename (hs : parse text = .ok s) (h : s.tree.Renameable ρ)
    (hw : ∀ a ∈ (s.node.mapTokens fun t a => (a.rename ρ t).text).leaves, a.1.HasText a.2) :
    (s.node.mapTokens fun t a => (a.rename ρ t).text).WellFormed where
  file := ⟨_, rfl⟩
  spelled := hw
  named := h _ (s.bare_rename ρ)
  conforms :=
    (Node.every_mapTokens s.node).mpr
      (s.functions.conforms_file.imp fun _ => Node.conforms_mapTokens.mpr)
  grouped := by
    have hordered := Phrase.ordered_file (proper_of_parse hs)
    rw [SourceFile.texts, Phrase.nodes_map, Node.mapOf_eq_mapTokensOf, ← Node.mapTokens,
      Node.every_mapTokens] at hordered
    exact (Node.every_mapTokens s.node).mpr (hordered.imp fun n hn =>
      Node.grouped_mapTokens.mpr (Node.grouped_mapTokens.mp hn.grouped))

/-- If no new name is read as a keyword, the text is a program with the same tree. -/
theorem exists_parse_renameText (hs : parse text = .ok s) (h : s.tree.Renameable ρ) :
    ∃ s', parse (renameText ρ s.leaves text) = .ok s' ∧ s'.node.shape = s.node.shape ∧
      Renamed ρ s.leaves s'.leaves := by
  obtain ⟨mark, x, ls, htext, hm, hx, hls⟩ := tiled_renameText hs ρ
  have htokens := SourceFile.tokens_of_renamed hls
  have hwell := wellFormed_rename hs h fun a ha => hx.hasText a (htokens ▸ ha)
  obtain ⟨s', hs', hnode, rfl⟩ := SourceFile.exists_parse_of_wellFormed hwell hm hx htokens
  refine ⟨s', htext ▸ hs', ?_, hls⟩
  have hshape := congrArg Node.shape hnode
  rwa [Node.shape_mapTokens, Node.shape_mapTokens] at hshape

/-- A program with new names that has the same shape has the leaves with new names. -/
theorem renamed_of_shape (hs : parse text = .ok s)
    (hs' : parse (renameText ρ s.leaves text) = .ok s') (h : s'.node.shape = s.node.shape) :
    Renamed ρ s.leaves s'.leaves := by
  obtain ⟨mark, x, ls, htext, hm, hx, hls⟩ := tiled_renameText hs ρ
  obtain ⟨mark', x', htext', hm', hx'⟩ := tiled_of_parse hs'
  obtain rfl := Tiled.mark_unique hm hm' hx hx' (htext.symm.trans htext')
  obtain rfl := List.append_cancel_left (htext.symm.trans htext')
  have hkinds : (ls.filterMap Leaf.token?).map Prod.fst =
      (s'.leaves.filterMap Leaf.token?).map Prod.fst := by
    rw [SourceFile.tokens_of_renamed hls, Node.leaves_mapTokens, SourceFile.leaves,
      List.filterMap_append, Leaf.filterMap_comment, List.append_nil, Leaf.filterMap_ofToken,
      List.map_map, List.map_map, ← s'.leaves_node]
    exact (Node.kinds_of_shape h).symm
  exact hx.unique hx' hkinds ▸ hls

end

/-- Names are interchangeable: whatever names the identifiers of a program get, the text is a
program with the same kinds, fields, nesting and comments if none is read as a keyword, and
otherwise none with these kinds, fields and nesting. -/
theorem parseTree_renamed {text : Bytes} {t : Tree} (h : parseTree text = .ok t) (ρ : Nat → Name) :
    (t.Renameable ρ → ∃ u, parseTree (renameText ρ t.fringe text) = .ok u ∧
      u.outline = (t.rename ρ).outline) ∧
    (¬ t.Renameable ρ → ∀ u, parseTree (renameText ρ t.fringe text) = .ok u →
      u.shape ≠ t.shape) := by
  obtain ⟨s, hs, rfl⟩ := parse_of_parseTree h
  rw [s.fringe_tree]
  constructor
  · intro hρ
    obtain ⟨s', hs', hshape, hls⟩ := exists_parse_renameText hs hρ
    exact ⟨s'.tree, parseTree_eq_ok hs', SourceFile.outline_of_renamed hls hshape⟩
  · rintro hρ u hu hshape
    obtain ⟨s', hs', rfl⟩ := parse_of_parseTree hu
    rw [s.shape_tree, s'.shape_tree, Option.some_inj] at hshape
    have hls := renamed_of_shape hs hs' hshape
    refine hρ fun T hT => ?_
    rw [← SourceFile.bare_of_renamed hls hshape, s'.bare_tree] at hT
    cases hT
    exact Phrase.named_file (proper_of_parse hs')

/-- With `else` for every name a function has the same tree still, with `true` it has not. -/
theorem parseTree_renamed_words :
    ∃ t, parseTree (Bytes.ofString "fn f()->bool\x7blet b:bool=a;b\x7d") = .ok t ∧
      (∃ u, parseTree (Bytes.ofString "fn else()->bool\x7blet else:bool=else;else\x7d") = .ok u ∧
        u.outline = (t.rename fun _ => Keyword.elseWord.toName).outline) ∧
      ∀ u, parseTree (Bytes.ofString "fn true()->bool\x7blet true:bool=true;true\x7d") = .ok u →
        u.shape ≠ t.shape := by
  have hwords : (parseTree (Bytes.ofString "fn f()->bool\x7blet b:bool=a;b\x7d")).toOption.map
      (fun t => [Keyword.elseWord, .trueWord].map fun k =>
        (decide (t.Renameable fun _ => k.toName), renameText (fun _ => k.toName) t.fringe
          (Bytes.ofString "fn f()->bool\x7blet b:bool=a;b\x7d"))) =
      some [(true, Bytes.ofString "fn else()->bool\x7blet else:bool=else;else\x7d"),
        (false, Bytes.ofString "fn true()->bool\x7blet true:bool=true;true\x7d")] := by
    decide +kernel
  obtain ⟨t, ht, hwords⟩ := exists_parseTree_of_map hwords
  obtain ⟨helse, htrue⟩ := List.cons.inj hwords
  obtain ⟨helse, htext⟩ := Prod.mk.inj helse
  obtain ⟨htrue, htext'⟩ := Prod.mk.inj (List.cons.inj htrue).1
  refine ⟨t, ht, ?_, ?_⟩
  · rw [← htext]
    exact (parseTree_renamed ht _).1 (of_decide_eq_true helse)
  · rw [← htext']
    exact (parseTree_renamed ht _).2 (of_decide_eq_false htrue)

end RueSyntax
