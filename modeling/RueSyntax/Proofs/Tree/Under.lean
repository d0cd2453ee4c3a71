import RueSyntax.Proofs.Reader.Under
import RueSyntax.Proofs.Grammar.Conformance

/-!
# Files compose

Two texts with a line feed between them make a program exactly if both do, where the upper one is
known to.  The tree of the whole has the nodes and comments of the upper file as they were, and
behind them those of the lower file, moved down and otherwise the same (`parseTree_under`).
-/

namespace RueSyntax

namespace Tree

mutual

/-- The tree at the places that it has when its text stands under `text`. -/
def under (text : Bytes) : Tree → Tree
  | token f t w s => token f t w (s.under text)
  | comment c => comment (c.under text)
  | rule f r s ts => rule f r (s.under text) (allUnder text ts)

def allUnder (text : Bytes) : List Tree → List Tree
  | [] => []
  | t :: ts => under text t :: allUnder text ts

end

theorem allUnder_eq_map (text : Bytes) (ts : List Tree) :
    allUnder text ts = ts.map (under text) := by
  induction ts with
  | nil => rfl
  | cons t ts ih => rw [allUnder, List.map_cons, ih]

theorem span_under (text : Bytes) (t : Tree) : (t.under text).span = t.span.under text := by
  cases t <;> rfl

theorem map_under_comments (text : Bytes) (cs : List Comment) :
    (cs.map comment).map (under text) = (cs.map (Comment.under text)).map comment := by
  rw [List.map_map, List.map_map]
  rfl

end Tree

/-- If all trees are moved, so is the place around them. -/
theorem Span.around_map {f : Tree → Tree} {p : Position → Position}
    (h : ∀ t, (f t).span = ⟨p t.span.start, p t.span.stop⟩) (ts : List Tree) :
    Span.around (ts.map f) = (Span.around ts).map fun s => ⟨p s.start, p s.stop⟩ := by
  unfold Span.around
  rw [List.head?_map, List.getLast?_map]
  cases ts.head? with
  | none => rfl
  | some t =>
    cases ts.getLast? with
    | none => rfl
    | some u => simp only [Option.map_some, h]

theorem Span.around_under (text : Bytes) (ts : List Tree) :
    Span.around (ts.map (Tree.under text)) = (Span.around ts).map (Span.under text) :=
  Span.around_map (Tree.span_under text) ts

theorem Span.exists_around {ts : List Tree} (h : ts ≠ []) : ∃ s, Span.around ts = some s := by
  have hhead := List.head?_eq_some_head h
  have hlast := List.getLast?_eq_some_getLast h
  exact ⟨_, by rw [Span.around, hhead, hlast]⟩

namespace Node

/-- A node that a rule makes has parts, so its place is that of its parts. -/
def HasParts {α : Type} : Node α → Prop
  | token _ _ _ => True
  | rule _ _ ns => ns ≠ []

theorem trees_append (ns ms : List (Node Lexeme)) : trees (ns ++ ms) = trees ns ++ trees ms := by
  induction ns with
  | nil => rfl
  | cons n ns ih => simp only [List.cons_append, trees, ih, List.append_assoc]

/-- More comments before the first token of a node stand in front of the node. -/
theorem trees_behind (cs : List Comment) (f k : Option Field) (r : Rule) (t : Terminal)
    (a : Lexeme) (ns : List (Node Lexeme)) :
    trees [rule f r (token k t (a.behind cs) :: ns)] =
      cs.map Tree.comment ++ trees [rule f r (token k t a :: ns)] := by
  simp only [trees, tree, comments, commentsOf, Lexeme.behind, List.map_append, List.append_assoc]

theorem comments_under (text : Bytes) (n : Node Lexeme) :
    (n.map (Lexeme.under text)).comments = n.comments.map (Comment.under text) := by
  rw [map_eq_mapTokens]
  exact comments_mapTokens (fun _ _ => rfl) n

mutual

theorem tree_under (text : Bytes) : ∀ n : Node Lexeme, n.Every HasParts →
    (n.map (Lexeme.under text)).tree = n.tree.under text
  | token f t a, _ => rfl
  | rule f r [], h => ((every_rule.mp h).1 rfl).elim
  | rule f r (n :: ns), h => by
    obtain ⟨hn, hns⟩ := everyOf_cons.mp (every_rule.mp h).2
    have htree := tree_under text n hn
    have htrees := trees_under text ns hns
    obtain ⟨s, hs⟩ := Span.exists_around (List.cons_ne_nil (tree n) (trees ns))
    have haround := Span.around_under text (tree n :: trees ns)
    rw [hs, List.map_cons, Option.map_some] at haround
    simp only [map, mapOf, tree, htree, htrees, haround, hs, Option.getD_some, Tree.under,
      Tree.allUnder, Tree.allUnder_eq_map]

theorem trees_under (text : Bytes) : ∀ ns : List (Node Lexeme), EveryOf HasParts ns →
    trees (mapOf (Lexeme.under text) ns) = (trees ns).map (Tree.under text)
  | [], _ => rfl
  | n :: ns, h => by
    obtain ⟨hn, hns⟩ := everyOf_cons.mp h
    have htree := tree_under text n hn
    have htrees := trees_under text ns hns
    have hcomments := comments_under text n
    simp only [mapOf, trees, htree, htrees, hcomments, List.map_append, List.map_cons,
      Tree.map_under_comments]

end

end Node

namespace Phrase

variable {α : Type}

theorem every_hasParts {c : Category} (p : Phrase α c) (f : Option Field) :
    Node.EveryOf Node.HasParts (p.nodes f) := by
  induction p generalizing f <;>
    simp [nodes, Node.every_rule, Node.HasParts, *]

/-- Functions under others: the comments in front of them stand before the first of them, or behind
the last function if there are none. -/
theorem trees_under_functions (gs : Phrase Lexeme .functions) (cs : List Comment) :
    ∀ fs : Phrase Lexeme .functions,
      Node.trees ((fs.under gs (Lexeme.behind cs)).nodes none) ++
          (if fs.isNoFunctions then cs else []).map Tree.comment =
        Node.trees (gs.nodes none) ++ (cs.map Tree.comment ++ Node.trees (fs.nodes none))
  | noFunctions => by
    show Node.trees (gs.nodes none) ++ cs.map Tree.comment = _
    rw [nodes, Node.trees, List.append_nil]
  | moreFunctions fs (function word name ps arrow ty body) => by
    have ih := trees_under_functions gs cs fs
    show Node.trees (nodes none (moreFunctions _ _)) ++ [] = _
    rw [List.append_nil, nodes, nodes, Node.trees_append, nodes, nodes, Node.trees_append]
    by_cases hf : fs.isNoFunctions = true
    · rw [if_pos hf] at ih
      rw [headNote, if_pos hf, Node.trees_behind, ← List.append_assoc, ih]
      simp only [List.append_assoc]
    · rw [if_neg hf, List.map_nil, List.append_nil] at ih
      rw [headNote, if_neg hf, ih]
      simp only [List.append_assoc]

end Phrase

namespace SourceFile

/-- Directly under the whole stand the children of both files. -/
theorem children_under (text : Bytes) (s above : SourceFile) :
    (s.under text above).children = above.children ++ s.children.map (Tree.under text) := by
  have hfs := Phrase.trees_under_functions above.functions above.trailing
    (s.functions.map (Lexeme.under text))
  rw [Phrase.isNoFunctions_map, Phrase.nodes_map,
    Node.trees_under text _ (s.functions.every_hasParts none)] at hfs
  simp only [children, under, List.map_append, Tree.map_under_comments]
  rw [← List.append_assoc, hfs]
  simp only [List.append_assoc]

end SourceFile

theorem parseTree_eq_error {text : Bytes} {e : SyntaxError} :
    parseTree text = .error e ↔ parse text = .error e := by
  unfold parseTree
  cases parse text with
  | error e' =>
    constructor <;>
      (intro h; cases h; rfl)
  | ok s =>
    constructor <;>
      (intro h; cases h)

/-- A text under a program is accepted together with it exactly if it is accepted alone.  The tree
of both has the children of both, and where the lower text is refused behind a token or comment of
its own, so are the two, at that place. -/
theorem parseTree_under {text more : Bytes} {t : Tree} (h : parseTree text = .ok t)
    (hm : ¬ byteOrderMark.isPrefixOf more = true) :
    ((∃ v, parseTree (text ++ Byte.newline :: more) = .ok v) ↔ ∃ u, parseTree more = .ok u) ∧
      (∀ u v, parseTree more = .ok u → parseTree (text ++ Byte.newline :: more) = .ok v →
        v.children = t.children ++ u.children.map (Tree.under text)) ∧
      ∀ e, parseTree more = .error e → e.stoppedAt ≠ .start →
        parseTree (text ++ Byte.newline :: more) = .error ⟨e.stoppedAt.under text⟩ := by
  obtain ⟨above, habove, rfl⟩ := parse_of_parseTree h
  have hu := parse_under habove hm
  generalize hlow : parse more = low at hu
  generalize hboth : parse (text ++ Byte.newline :: more) = both at hu
  cases hu with
  | accepted s =>
    have hmore := parseTree_eq_ok hlow
    have hwhole := parseTree_eq_ok hboth
    refine ⟨⟨fun _ => ⟨_, hmore⟩, fun _ => ⟨_, hwhole⟩⟩, ?_, ?_⟩
    · intro u v hu hv
      rw [hmore] at hu
      rw [hwhole] at hv
      cases hu
      cases hv
      exact s.children_under text above
    · intro e he
      rw [hmore] at he
      cases he
  | @rejected e e' he =>
    have hmore := parseTree_eq_error.mpr hlow
    have hwhole := parseTree_eq_error.mpr hboth
    refine ⟨⟨fun ⟨v, hv⟩ => ?_, fun ⟨u, hu⟩ => ?_⟩, ?_, ?_⟩
    · rw [hwhole] at hv
      cases hv
    · rw [hmore] at hu
      cases hu
    · intro u v hu
      rw [hmore] at hu
      cases hu
    · intro e1 he1 hne
      rw [hmore] at he1
      cases he1
      have hstop : e'.stoppedAt = e.stoppedAt.under text := he.resolve_left hne
      rw [hwhole, ← hstop]

/-- Under a program that ends in a comment: another program, and a text that is none. -/
theorem parseTree_under_comment :
    (∃ t u v, parseTree (Bytes.ofString "fn f()->()\x7b\x7d//a") = .ok t ∧
      parseTree (Bytes.ofString "/*b*/fn g()->()\x7b\x7d") = .ok u ∧
      parseTree (Bytes.ofString "fn f()->()\x7b\x7d//a" ++
        Byte.newline :: Bytes.ofString "/*b*/fn g()->()\x7b\x7d") = .ok v ∧
      v.children = t.children ++
        u.children.map (Tree.under (Bytes.ofString "fn f()->()\x7b\x7d//a"))) ∧
      parseTree (Bytes.ofString "fn f()->()\x7b\x7d//a" ++ Byte.newline :: Bytes.ofString "fn g(") =
        .error ⟨⟨21, 1, 5⟩⟩ := by
  obtain ⟨t, ht⟩ : ∃ t, parseTree (Bytes.ofString "fn f()->()\x7b\x7d//a") = .ok t :=
    exists_parseTree (by decide +kernel)
  obtain ⟨u, hu⟩ : ∃ u, parseTree (Bytes.ofString "/*b*/fn g()->()\x7b\x7d") = .ok u :=
    exists_parseTree (by decide +kernel)
  have hbad : parseTree (Bytes.ofString "fn g(") = .error ⟨⟨5, 0, 5⟩⟩ :=
    parseTree_eq_error.mpr rfl
  have hm : ¬ byteOrderMark.isPrefixOf (Bytes.ofString "/*b*/fn g()->()\x7b\x7d") = true := by
    decide
  have hm' : ¬ byteOrderMark.isPrefixOf (Bytes.ofString "fn g(") = true := by decide
  obtain ⟨hiff, hchildren, -⟩ := parseTree_under ht hm
  obtain ⟨-, -, hstop⟩ := parseTree_under ht hm'
  obtain ⟨v, hv⟩ := hiff.mpr ⟨u, hu⟩
  exact ⟨⟨t, u, v, ht, hu, hv, hchildren u v hu hv⟩, hstop _ hbad (by decide)⟩

end RueSyntax
