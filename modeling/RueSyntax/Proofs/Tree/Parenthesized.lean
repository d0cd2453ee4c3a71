import RueSyntax.Proofs.Reader.Insertion
import RueSyntax.Proofs.Tree.Boundaries
import RueSyntax.Proofs.Tree.Enclosed
import RueSyntax.Proofs.Tree.Parts

/-!
# Parentheses around an expression

Wherever the grammar has an expression, parentheses may be written around it: the text is still a
program, and in its tree the expression stands between parentheses and everything else is as it was,
comments too (`parseTree_parenthesized`).

The comments before an expression come before the parenthesis, so the new node takes them over
(`Node.parenthesized`).  The text around the parentheses is read as before because nothing in it
goes on to them, and that this gives the expected tree follows from the tree alone: it is well formed,
so its leaves are read as it.
-/

namespace RueSyntax

open Grammar (rue)

/-! ### Where expressions stand in a tree -/

/-- The kinds of nodes that may be expressions. -/
def Kind.isExpression : Kind → Bool
  | .token .identifier | .token .integer => true
  | .rule r => [Rule.ifExpression, .whileExpression, .binaryExpression, .callExpression,
      .booleanLiteral, .unitLiteral, .parenthesizedExpression].contains r
  | _ => false

theorem Kind.isExpression_iff {k : Kind} : k.isExpression = true ↔
    k.name ∈ Grammar.expressionNames ∧ k.isNamed = true := by
  cases k with
  | comment c => cases c <;> decide
  | rule r => cases r <;> decide
  | token t =>
    cases t with
    | word w => cases w <;> decide
    | mark m => cases m <;> decide
    | operator o => cases o <;> decide
    | _ => decide

namespace Tree

/-- The rule of `p` has a place for the symbol, and there the grammar has put `v`. -/
def StandsAs (name : String) (p v : Tree) : Prop :=
  ∃ r us ws, p.kind = .rule r ∧ p.parts = us ++ v :: ws ∧
    rue.Puts name r.name (us.map label) v.label (ws.map label)

/-- The tree in another field. -/
def withField (f : Option Field) : Tree → Tree
  | token _ t w s => token f t w s
  | comment c => comment c
  | rule _ r s ts => rule f r s ts

/-- The tree between parentheses, in the same field. -/
def parenthesized (v : Tree) : Tree :=
  rule v.field .parenthesizedExpression v.span
    [token none (.mark .openParen) Mark.openParen.text default, v.withField none,
      token none (.mark .closeParen) Mark.closeParen.text default]

end Tree

theorem Node.label_tree (n : Node Lexeme) : n.tree.label = n.label := by
  cases n with
  | token f t a => rfl
  | rule f r ns => cases ns <;> rfl

namespace SourceFile

variable {s : SourceFile} {p v : Tree}

theorem conforms_of_within (hp : p.Within s.tree) : p.Conforms := by
  obtain ⟨d, hd⟩ := Tree.within_iff_descendants.mp hp
  refine Tree.conforms_descendants s.tree 0 ?_ (d, p) hd
  rw [s.bare_tree, Option.toList_some]
  exact Node.everyOf_singleton.mpr s.texts.conforms_file

/-- An expression is what looks like one and is no name, no function that is called, and not what
stands behind `else`. -/
theorem standsAs_iff (hp : p.Within s.tree) (hv : v ∈ p.children) :
    p.StandsAs "_expression" v ↔ v.kind.isExpression = true ∧ v.field ≠ some .name ∧
      v.field ≠ some .function ∧ p.kind ≠ .rule .elseClause := by
  constructor
  · rintro ⟨r, us, ws, hr, -, hputs⟩
    obtain ⟨hkind, hname, hfunction, -, helse⟩ := Grammar.puts_expression hputs
    refine ⟨Kind.isExpression_iff.mpr hkind, fun h => hname (Field.map_label_eq_some.mpr h),
      fun h => hfunction (Field.map_label_eq_some.mpr h), fun h => helse ?_⟩
    rw [hr] at h
    cases h
    rfl
  · rintro ⟨hkind, hname, hfunction, helse⟩
    obtain ⟨hk, hn⟩ := Kind.isExpression_iff.mp hkind
    have hpart : v ∈ p.parts := by
      refine List.mem_filter.mpr ⟨hv, ?_⟩
      cases v with
      | comment c => cases hkind
      | _ => rfl
    obtain ⟨us, ws, hparts⟩ := List.append_of_mem hpart
    cases p with
    | rule f r span ts =>
      have hproduces : rue.Produces r.name (us.map Tree.label ++ v.label :: ws.map Tree.label) := by
        rw [← List.map_cons, ← List.map_append, ← hparts]
        exact (conforms_of_within hp).1
      exact ⟨r, us, ws, rfl, hparts, Grammar.puts_of_produces (fun h => helse (congrArg _ h))
        hproduces hk hn (fun h => hname (Field.map_label_eq_some.mp h))
        (fun h => hfunction (Field.map_label_eq_some.mp h))⟩
    | _ => cases hv

end SourceFile

/-- The nodes whose trees they are. -/
theorem Tree.StandsAs.exists_nodes {name : String} {P : Node Lexeme} {v : Tree}
    (h : P.tree.StandsAs name v) : ∃ f r us m ws, P = .rule f r (us ++ m :: ws) ∧ m.tree = v ∧
      rue.Puts name r.name (us.map Node.label) m.label (ws.map Node.label) := by
  obtain ⟨r, us, ws, hr, hparts, hputs⟩ := h
  rw [Node.kind_tree] at hr
  cases P with
  | token f t a => cases hr
  | rule f k ns =>
    cases hr
    rw [Node.parts_tree] at hparts
    obtain ⟨us, ms, rfl, rfl, hms⟩ := List.map_eq_append_iff.mp hparts
    obtain ⟨m, ws, rfl, rfl, rfl⟩ := List.map_eq_cons_iff.mp hms
    have hlabels : ∀ ks : List (Node Lexeme),
        (ks.map Node.tree).map Tree.label = ks.map Node.label := fun ks => by
      rw [List.map_map]
      exact List.map_congr_left fun k _ => k.label_tree
    rw [hlabels, hlabels, Node.label_tree] at hputs
    exact ⟨f, r, us, m, ws, rfl, rfl, hputs⟩

/-! ### A node that leaves its comments to others -/

namespace Node

mutual

/-- The node without the comments before its first token. -/
def uncommented : Node Lexeme → Node Lexeme
  | token f t a => token f t { a with comments := [] }
  | rule f r ns => rule f r (uncommentedOf ns)

def uncommentedOf : List (Node Lexeme) → List (Node Lexeme)
  | [] => []
  | n :: ns => uncommented n :: ns

end

mutual

theorem comments_uncommented : ∀ n : Node Lexeme, n.uncommented.comments = []
  | token _ _ _ => rfl
  | rule _ _ ns => commentsOf_uncommentedOf ns

theorem commentsOf_uncommentedOf : ∀ ns : List (Node Lexeme), commentsOf (uncommentedOf ns) = []
  | [] => rfl
  | n :: _ => comments_uncommented n

end

/-- The comments before the first token are not in the tree of a node anyway. -/
theorem tree_uncommented : ∀ n : Node Lexeme, n.uncommented.tree = n.tree
  | token _ _ _ => rfl
  | rule f r ns => by
    cases ns with
    | nil => rfl
    | cons n ns =>
      have hn := tree_uncommented n
      simp only [uncommented, uncommentedOf, tree, hn]

theorem text_uncommented : ∀ n : Node Lexeme,
    (n.uncommented.mapTokens fun _ => Lexeme.text) = n.mapTokens fun _ => Lexeme.text
  | token _ _ _ => rfl
  | rule f r ns => by
    cases ns with
    | nil => rfl
    | cons n ns =>
      have hn := text_uncommented n
      simp only [uncommented, uncommentedOf, mapTokens, mapTokensOf, hn]

/-- The node between parentheses, behind the comments before it. -/
def parenthesized (n : Node Lexeme) : Node Lexeme :=
  n.uncommented.enclosed ⟨n.comments, Mark.openParen.text, default⟩
    ⟨[], Mark.closeParen.text, default⟩

theorem field_uncommented (n : Node Lexeme) : n.uncommented.field = n.field := by
  cases n <;> rfl

theorem text_parenthesized (n : Node Lexeme) :
    (n.parenthesized.mapTokens fun _ => Lexeme.text) =
      (n.mapTokens fun _ => Lexeme.text).enclosed Mark.openParen.text Mark.closeParen.text := by
  rw [parenthesized, enclosed_mapTokens, text_uncommented]

theorem tree_withField (n : Node Lexeme) (f : Option Field) :
    (n.withField f).tree = n.tree.withField f := by
  cases n with
  | token => rfl
  | rule k r ns => cases ns <;> rfl

theorem comments_withField (n : Node Lexeme) (f : Option Field) :
    (n.withField f).comments = n.comments := by
  cases n <;> rfl

theorem leaves_withField (n : Node α) (f : Option Field) : (n.withField f).leaves = n.leaves := by
  cases n <;> rfl

theorem outline_parenthesized (n : Node Lexeme) :
    n.tree.parenthesized.outline = n.parenthesized.tree.outline := by
  have hcomments : (n.uncommented.withField none).comments = [] := by
    rw [comments_withField, comments_uncommented]
  have htree : (n.uncommented.withField none).tree = n.tree.withField none := by
    rw [tree_withField, tree_uncommented]
  simp only [Tree.parenthesized, parenthesized, enclosed, tree, trees, hcomments, htree,
    field_uncommented, field_tree, Tree.outline, Tree.outlineAll, comments, List.map_nil,
    List.nil_append]

/-- The comments before the node, and then its leaves between parentheses. -/
theorem leaves_parenthesized (n : Node Lexeme) :
    (n.parenthesized.leaves.flatMap Leaf.ofToken) = n.comments.map Leaf.comment ++
      .mark .openParen :: (n.tree.fringe ++ [.mark .closeParen]) := by
  have hinner := n.uncommented.fringe_tree
  rw [comments_uncommented, tree_uncommented, List.map_nil, List.nil_append] at hinner
  simp only [parenthesized, enclosed, leaves, leavesOf, leaves_withField, List.flatMap_append,
    List.flatMap_cons, List.flatMap_nil, Leaf.ofToken, ← hinner]
  simp [Leaf.mark]

/-- The leaves around an expression are around the parentheses. -/
theorem Replaces.leaves_parenthesized {m n n' : Node Lexeme}
    (h : Replaces m m.parenthesized n n') : ∃ ls ms,
      n.leaves.flatMap Leaf.ofToken = ls ++ (m.tree.fringe ++ ms) ∧
      n'.leaves.flatMap Leaf.ofToken =
        ls ++ .mark .openParen :: (m.tree.fringe ++ .mark .closeParen :: ms) := by
  obtain ⟨before, after, hn, hn'⟩ := h.leaves
  refine ⟨before.flatMap Leaf.ofToken ++ m.comments.map .comment, after.flatMap Leaf.ofToken,
    ?_, ?_⟩
  · rw [hn]
    simp only [List.flatMap_append, ← m.fringe_tree, List.append_assoc]
  · rw [hn']
    simp only [List.flatMap_append, m.leaves_parenthesized, List.append_assoc, List.cons_append,
      List.nil_append]

/-- Nodes stay well shaped if an expression among them is put between parentheses. -/
theorem WellShaped.parenthesized {N N' m : Node Lexeme} {f : Option Field} {r : Rule}
    {us ws : List (Node Lexeme)} (h : (N.mapTokens fun _ => Lexeme.text).WellShaped)
    (hputs : rue.Puts "_expression" r.name (us.map label) m.label (ws.map label))
    (hN : Replaces (rule f r (us ++ m :: ws)) (rule f r (us ++ m.parenthesized :: ws)) N N') :
    (N'.mapTokens fun _ => Lexeme.text).WellShaped := by
  have hlabels : ∀ ns : List (Node Lexeme),
      (ns.map (mapTokens fun _ => Lexeme.text)).map label = ns.map label := fun ns => by
    rw [List.map_map]
    exact List.map_congr_left fun n _ => label_mapTokens n
  have htexts := hN.mapTokens fun _ => Lexeme.text
  simp only [mapTokens, mapTokensOf_eq, List.map_append, List.map_cons, text_parenthesized]
    at htexts
  rw [← hlabels us, ← hlabels ws, ← label_mapTokens (f := fun _ => Lexeme.text) m] at hputs
  exact h.enclosed hputs htexts

end Node

/-! ### What is read of well-shaped nodes -/

namespace SourceFile

variable {s : SourceFile} {ns : List (Node Lexeme)} {cs : List Comment}

/-- The nodes of an accepted text are well shaped. -/
theorem wellShaped {text : Bytes} (hs : parse text = .ok s) :
    (s.node.mapTokens fun _ => Lexeme.text).WellShaped := by
  rw [node_texts]
  exact ⟨s.texts.conforms_file, (Phrase.ordered_file (proper_of_parse hs)).imp fun _ hn => hn.grouped,
    Phrase.named_file (proper_of_parse hs)⟩

/-- A file has the outline of nodes of its shape if it has their leaves, wherever they stand. -/
theorem outline_of_leaves (hshape : s.node.shape = (Node.rule none .sourceFile ns).shape)
    (h : s.leaves.map Leaf.unplaced =
      ((Node.leavesOf ns).flatMap Leaf.ofToken ++ cs.map Leaf.comment).map Leaf.unplaced) :
    s.tree.outline = (treeOf ns cs).outline := by
  have hleaves := Node.map_leaves_unplaced (.rule none .sourceFile ns) cs
  rw [Node.leaves] at hleaves
  rw [leaves_eq, Node.map_leaves_unplaced, hleaves] at h
  obtain ⟨hnode, htrailing⟩ := Node.eq_of_leaves
    (by rw [Node.shape_mapTokens, Node.shape_mapTokens, hshape]) h
  have hnodes := (Node.rule.inj hnode).2.2
  rw [outline_tree, treeOf, treeOf, Tree.outline, Tree.outline, Tree.outlineAll_append,
    Tree.outlineAll_append, Tree.outlineAll_comments, Tree.outlineAll_comments, htrailing,
    Node.outlineAll_trees, hnodes, ← Node.outlineAll_trees]

/-- A text that is made of the leaves of well-shaped nodes is accepted, and its tree is theirs. -/
theorem exists_parse_of_laid {mark x : Bytes} {ls : List Leaf}
    (hm : mark = [] ∨ mark = byteOrderMark) (hx : Laid [] ls x)
    (hls : ls = (Node.leavesOf ns).flatMap Leaf.ofToken ++ cs.map .comment)
    (hns : ((Node.rule none .sourceFile ns).mapTokens fun _ => Lexeme.text).WellShaped) :
    ∃ s, parse (mark ++ x) = .ok s ∧ s.tree.outline = (treeOf ns cs).outline := by
  obtain ⟨ls', htiled, hls'⟩ := hx.tiled (Position.start.after mark)
  have htokens : ls'.filterMap Leaf.token? =
      ((Node.rule none .sourceFile ns).mapTokens fun _ => Lexeme.text).leaves := by
    rw [← Leaf.filterMap_unplaced, hls', Leaf.filterMap_unplaced, hls, List.filterMap_append,
      Leaf.filterMap_comment, List.append_nil, Leaf.filterMap_ofToken, Node.leaves_mapTokens]
    rfl
  have hwell : ((Node.rule none .sourceFile ns).mapTokens fun _ => Lexeme.text).WellFormed :=
    ⟨⟨_, rfl⟩, hns.conforms, fun a ha => htiled.hasText a (htokens ▸ ha), hns.grouped, hns.named⟩
  obtain ⟨s, hs, hnode, rfl⟩ := exists_parse_of_wellFormed hwell hm htiled htokens
  refine ⟨s, hs, outline_of_leaves ?_ (by rw [hls', hls])⟩
  have hshape := congrArg Node.shape hnode
  rwa [Node.shape_mapTokens, Node.shape_mapTokens] at hshape

end SourceFile

/-! ### Texts with parentheses -/

/-- The text with parentheses around the span. -/
def Span.enclosed (s : Span) (text : Bytes) : Bytes :=
  text.take s.start.byte ++ (Mark.openParen.text ++
    (s.slice text ++ (Mark.closeParen.text ++ text.drop s.stop.byte)))

theorem Span.enclosed_of_after {s : Span} {x y z : Bytes} (hstart : s.start = .after .start x)
    (hstop : s.stop = .after .start (x ++ y)) : s.enclosed (x ++ (y ++ z)) =
      x ++ (Mark.openParen.text ++ (y ++ (Mark.closeParen.text ++ z))) := by
  have hx : s.start.byte = x.length := by rw [hstart, Position.byte_start_after]
  have hy : s.stop.byte = (x ++ y).length := by rw [hstop, Position.byte_start_after]
  have htext : x ++ (y ++ z) = x ++ y ++ z := (List.append_assoc x y z).symm
  rw [enclosed, slice, hx, hy, List.take_left, htext, List.take_left, List.drop_left,
    List.drop_left]

namespace SourceFile

variable {text : Bytes} {s : SourceFile} {p v : Tree}

/-- The leaves of a program with parentheses before and behind what stands between two tokens. -/
theorem laid_enclosed (hs : parse text = .ok s) (hv : v.Snug) {ls ms : List Leaf}
    (hleaves : s.leaves = ls ++ (v.fringe ++ ms)) : ∃ mark x, v.span.enclosed text = mark ++ x ∧
      (mark = [] ∨ mark = byteOrderMark) ∧
      Laid [] (ls ++ .mark .openParen :: (v.fringe ++ .mark .closeParen :: ms)) x := by
  obtain ⟨⟨first, hfirst, -, hstart⟩, last, hlast, htoken, hstop⟩ := hv
  obtain ⟨mark, x, rfl, hmark, hx⟩ := tiled_of_parse hs
  rw [hleaves] at hx
  obtain ⟨y, w, z, rfl, hy, hw, hlaid⟩ := hx.enclose hfirst hlast htoken
  refine ⟨mark, _, ?_, hmark, hlaid⟩
  rw [← List.append_assoc, Span.enclosed_of_after, List.append_assoc]
  · rw [← hstart, hy, Position.after_append]
  · rw [← hstop, hw, ← Position.after_append, List.append_assoc]

/-- An expression in the tree of a file is the tree of a node in a function. -/
theorem exists_expression (hp : p.Within s.tree) (hv : p.StandsAs "_expression" v) :
    ∃ us n ws, s.functions.nodes none = us ++ n :: ws ∧ ∃ f r vs m xs, m.tree = v ∧
      rue.Puts "_expression" r.name (vs.map Node.label) m.label (xs.map Node.label) ∧
      ∃ n', Node.Replaces (.rule f r (vs ++ m :: xs)) (.rule f r (vs ++ m.parenthesized :: xs))
        n n' := by
  have ⟨_, _, _, hr, _, hputs⟩ := hv
  obtain ⟨-, -, -, hfile, -⟩ := Grammar.puts_expression hputs
  rcases exists_replaces hp with rfl | ⟨c, rfl⟩ | ⟨P, rfl, us, n, ws, hns, hall⟩
  · cases hr
    exact (hfile rfl).elim
  · cases hr
  · obtain ⟨f, r, vs, m, xs, rfl, hm, hputs⟩ := hv.exists_nodes
    exact ⟨us, n, ws, hns, f, r, vs, m, xs, hm, hputs, hall _⟩

/-- Parentheses may be written around every expression of a program. -/
theorem exists_parse_enclosed (hs : parse text = .ok s) (hp : p.Within s.tree)
    (hv : p.StandsAs "_expression" v) : ∃ s' t, Tree.Replaces v v.parenthesized s.tree t ∧
      parse (v.span.enclosed text) = .ok s' ∧ s'.tree.outline = t.outline := by
  obtain ⟨us, n, ws, hns, f, r, vs, m, xs, rfl, hputs, n', hn'⟩ := exists_expression hp hv
  have hm : Node.Replaces m m.parenthesized n n' := .trans (.child .here) hn'
  have hfile : Node.Replaces m m.parenthesized s.node (.rule none .sourceFile (us ++ n' :: ws)) := by
    rw [node, hns]
    exact .child hm
  obtain ⟨t, ht, houtline⟩ := tree_replaces hns hm rfl m.outline_parenthesized
  obtain ⟨ls, ms, hleaves, hleaves'⟩ := hfile.leaves_parenthesized
  have hsnug : m.tree.Snug := by
    have hparts := s.functions.every_hasParts none
    rw [hns, Node.everyOf_append, Node.everyOf_cons] at hparts
    exact Node.snug_tree (hm.every_left hparts.2.1)
  have hall : s.leaves = ls ++ (m.tree.fringe ++ (ms ++ s.trailing.map .comment)) := by
    rw [leaves_eq, hleaves, List.append_assoc, List.append_assoc]
  obtain ⟨mark, x, htext, hmark, hx⟩ := laid_enclosed hs hsnug hall
  have hlaid : ls ++ .mark .openParen ::
        (m.tree.fringe ++ .mark .closeParen :: (ms ++ s.trailing.map .comment)) =
      (Node.leavesOf (us ++ n' :: ws)).flatMap Leaf.ofToken ++ s.trailing.map .comment := by
    rw [Node.leaves] at hleaves'
    rw [hleaves']
    simp only [List.append_assoc, List.cons_append]
  have hshaped : ((Node.rule none .sourceFile (us ++ n' :: ws)).mapTokens
      fun _ => Lexeme.text).WellShaped := by
    refine (wellShaped hs).parenthesized (f := f) hputs ?_
    rw [node, hns]
    exact .child hn'
  obtain ⟨s', hs', houtline'⟩ := exists_parse_of_laid hmark hx hlaid hshaped
  exact ⟨s', t, ht, htext ▸ hs', houtline'.trans houtline.symm⟩

end SourceFile

/-- Parentheses around an expression change nothing else.  What the grammar has as an expression is
known by its kind, its field and its parent; with parentheses before its first byte and behind its
last the text is a program again, and its tree is the old one with the expression between
parentheses in its place. -/
theorem parseTree_parenthesized {text : Bytes} {t : Tree} (h : parseTree text = .ok t)
    {p v : Tree} (hp : p.Within t) (hv : v ∈ p.children) :
    (p.StandsAs "_expression" v ↔ v.kind.isExpression = true ∧ v.field ≠ some .name ∧
        v.field ≠ some .function ∧ p.kind ≠ .rule .elseClause) ∧
      (p.StandsAs "_expression" v → ∃ t', parseTree (v.span.enclosed text) = .ok t' ∧
        (∃ u, Tree.Replaces v v.parenthesized t u) ∧
        ∀ u, Tree.Replaces v v.parenthesized t u → t'.outline = u.outline) := by
  obtain ⟨s, hs, rfl⟩ := parse_of_parseTree h
  refine ⟨SourceFile.standsAs_iff hp hv, fun hstands => ?_⟩
  obtain ⟨s', u, hu, hs', houtline⟩ := SourceFile.exists_parse_enclosed hs hp hstands
  refine ⟨s'.tree, parseTree_eq_ok hs', ⟨u, hu⟩, fun w hw => ?_⟩
  obtain ⟨l, hl⟩ := s.leafy p hp v hv
  rw [houtline, hu.unique (lossless_of_parse_eq_ok hs).ordered s.leafy hl hw]

/-- A product on the right of a difference, behind a comment. -/
theorem parseTree_parenthesized_product :
    ∃ t, parseTree (Bytes.ofString "fn f()->i64\x7ba-/*b*/c*d\x7d") = .ok t ∧
      ∃ v : Tree, v.Within t ∧ v.kind = .rule .binaryExpression ∧ v.field = some .right ∧
        ∃ t', parseTree (Bytes.ofString "fn f()->i64\x7ba-/*b*/(c*d)\x7d") = .ok t' ∧
          (∃ u, Tree.Replaces v v.parenthesized t u) ∧
          ∀ u, Tree.Replaces v v.parenthesized t u → t'.outline = u.outline := by
  have hfound : (parseTree (Bytes.ofString "fn f()->i64\x7ba-/*b*/c*d\x7d")).toOption.map
      (Tree.anyChild fun p v => decide
        ((p.kind = .rule .binaryExpression ∧ v.kind = .rule .binaryExpression ∧
          v.field = some .right) ∧
          v.span.enclosed (Bytes.ofString "fn f()->i64\x7ba-/*b*/c*d\x7d") =
            Bytes.ofString "fn f()->i64\x7ba-/*b*/(c*d)\x7d")) = some true := by
    decide +kernel
  obtain ⟨t, ht, hany⟩ := exists_parseTree_of_map hfound
  obtain ⟨p, v, hp, hv, hdecide⟩ := Tree.exists_of_anyChild hany
  obtain ⟨⟨hkind, hvkind, hfield⟩, htext⟩ := of_decide_eq_true hdecide
  obtain ⟨hiff, hparenthesized⟩ := parseTree_parenthesized ht hp hv
  have hstands : p.StandsAs "_expression" v := by
    refine hiff.mpr ⟨?_, ?_, ?_, ?_⟩
    · rw [hvkind]
      rfl
    · rw [hfield]
      decide
    · rw [hfield]
      decide
    · rw [hkind]
      decide
  rw [htext] at hparenthesized
  exact ⟨t, ht, v, .trans (.of_child hv) hp, hvkind, hfield, hparenthesized hstands⟩

end RueSyntax
