import RueSyntax.Proofs.Reader.Prefix
import RueSyntax.Proofs.Tree.Grouping
import RueSyntax.Proofs.Tree.Placement

/-!
# What remains of a program that is cut

A program that is cut behind a leaf is a program again if the leaf is a comment between functions or
the brace that ends a function, and otherwise reading stops at the end of the leaf.  The parser is
between functions exactly behind such leaves: behind the first functions of the file it is, because
it has no choice, and where it is, it has read the first functions of the file and then comments.
-/

namespace RueSyntax

/-- The file `t` may end behind `x`: a comment of its own, or the brace that ends the body of a
function. -/
def Tree.Closes (t x : Tree) : Prop :=
  ((∃ c, x = .comment c) ∧ x ∈ t.children) ∨
    ∃ f b : Tree, f.Within t ∧ f.kind = .rule .functionItem ∧ b ∈ f.children ∧
      b.field = some .body ∧ x ∈ b.children ∧ x.kind = .token (.mark .closeBrace)

/-! ### The end of a function -/

namespace Phrase

variable {α : Type}

open Node

theorem Begins.nodes {gs fs : Phrase α .functions} (h : gs.Begins fs) :
    ∃ ms, fs.nodes none = gs.nodes none ++ ms := by
  induction h with
  | refl => exact ⟨[], (List.append_nil _).symm⟩
  | more f _ ih =>
    obtain ⟨ms, hms⟩ := ih
    exact ⟨ms ++ f.nodes none, by rw [Phrase.nodes, hms, List.append_assoc]⟩

/-- No statement and no expression is a closing brace. -/
theorem kind_ne_closeBrace {c : Category} (p : Phrase α c) (f : Option Field)
    (hc : c ∈ [Category.statements, .statement, .expression, .conditional]) :
    ∀ n ∈ p.nodes f, n.kind ≠ .token (.mark .closeBrace) := by
  induction p generalizing f with
  | noStatements => nofun
  | moreStatements ss s ihs ih =>
    exact List.forall_mem_append.mpr ⟨ihs none (by decide), ih none (by decide)⟩
  | ifExpression c ih => exact ih f (by decide)
  | noFunctions | moreFunctions | oneParameter | moreParameters | oneArgument
  | moreArguments => simp at hc
  | _ =>
    intro n hn
    obtain rfl := List.mem_singleton.mp hn
    exact nofun

/-- The last part of a block is its closing brace. -/
theorem exists_brace (b : Phrase α .block) (f : Option Field) :
    ∃ ms a ts, b.nodes f = [rule f .block (ms ++ [token none (.mark .closeBrace) a])] ∧
      (∀ m ∈ ms, m.kind ≠ .token (.mark .closeBrace)) ∧
      b.tokens = ts ++ [(.mark .closeBrace, a)] := by
  cases b with
  | block opening ss closing =>
    have hss := ss.kind_ne_closeBrace none (by decide)
    exact ⟨token none (.mark .openBrace) opening :: ss.nodes none, closing,
      (.mark .openBrace, opening) :: ss.tokens, rfl, List.forall_mem_cons.mpr ⟨nofun, hss⟩, rfl⟩
  | blockWithValue opening ss value closing =>
    have hss := ss.kind_ne_closeBrace none (by decide)
    have hvalue := value.kind_ne_closeBrace none (by decide)
    refine ⟨token none (.mark .openBrace) opening :: (ss.nodes none ++ value.nodes none), closing,
      (.mark .openBrace, opening) :: (ss.tokens ++ value.tokens), ?_,
      List.forall_mem_cons.mpr ⟨nofun, List.forall_mem_append.mpr ⟨hss, hvalue⟩⟩, ?_⟩
    · simp only [nodes, List.cons_append, List.append_assoc]
    · simp only [tokens, List.cons_append, List.append_assoc]

/-- The last part of a function is its body. -/
theorem exists_body (g : Phrase α .function) :
    ∃ (ns : List (Node α)) (body : Phrase α .block) (ts : List (Token α)),
      g.nodes none = [rule none .functionItem (ns ++ body.nodes (some .body))] ∧
      (∀ n ∈ ns, n.field ≠ some .body) ∧ g.tokens = ts ++ body.tokens := by
  match g with
  | function word name ps arrow ty body =>
    have hps : ∀ n ∈ ps.nodes (some .parameters), n.field ≠ some .body := fun n hn => by
      rw [ps.field_of_mem _ n hn]
      decide
    have hty : ∀ n ∈ ty.nodes (some .returnType), n.field ≠ some .body := fun n hn => by
      rw [ty.field_of_mem _ n hn]
      decide
    have hns : ∀ n ∈ token none (.word .fnWord) word :: token (some .name) .identifier name ::
        (ps.nodes (some .parameters) ++ token none (.mark .arrow) arrow ::
          ty.nodes (some .returnType)), n.field ≠ some .body :=
      List.forall_mem_cons.mpr ⟨nofun, List.forall_mem_cons.mpr ⟨nofun,
        List.forall_mem_append.mpr ⟨hps, List.forall_mem_cons.mpr ⟨nofun, hty⟩⟩⟩⟩
    refine ⟨token none (.word .fnWord) word :: token (some .name) .identifier name ::
      (ps.nodes (some .parameters) ++
        token none (.mark .arrow) arrow :: ty.nodes (some .returnType)), body,
      (.word .fnWord, word) :: (.identifier, name) ::
        (ps.tokens ++ (.mark .arrow, arrow) :: ty.tokens), ?_, hns, ?_⟩
    · simp only [nodes, List.cons_append, List.append_assoc]
    · simp only [tokens, List.cons_append, List.append_assoc]

/-- The last token of a function is the brace that ends its body. -/
theorem exists_end (g : Phrase α .function) :
    ∃ ns ms a ts, g.nodes none = [rule none .functionItem (ns ++
        [rule (some .body) .block (ms ++ [token none (.mark .closeBrace) a])])] ∧
      (∀ n ∈ ns, n.field ≠ some .body) ∧ (∀ m ∈ ms, m.kind ≠ .token (.mark .closeBrace)) ∧
      g.tokens = ts ++ [(.mark .closeBrace, a)] := by
  obtain ⟨ns, body, ts, hg, hns, htg⟩ := g.exists_body
  obtain ⟨ms, a, us, hb, hms, htb⟩ := body.exists_brace (some .body)
  exact ⟨ns, ms, a, ts ++ us, by rw [hg, hb], hns, hms, by rw [htg, htb, List.append_assoc]⟩

/-- Inside a function there is no other. -/
theorem every_inner {c : Category} (p : Phrase α c) (f : Option Field)
    (hc : c ≠ .functions ∧ c ≠ .function) :
    EveryOf (fun n => n.kind ≠ .rule .functionItem) (p.nodes f) := by
  induction p generalizing f <;>
    simp_all [nodes, every_rule, Node.kind]

/-- Every function item is the last of some functions with which the file begins. -/
theorem every_function (fs : Phrase α .functions) :
    EveryOf (fun n => n.kind = .rule .functionItem →
      ∃ gs g, Begins (.moreFunctions gs g) fs ∧ g.nodes none = [n]) (fs.nodes none) := by
  match fs with
  | noFunctions => exact everyOf_nil
  | moreFunctions fs (function word name ps arrow ty body) =>
    have ih := every_function fs
    refine everyOf_append.mpr ⟨fun n hn => (ih n hn).imp fun m hm hk => ?_, ?_⟩
    · obtain ⟨gs, g, hg, hm⟩ := hm hk
      exact ⟨gs, g, .more _ hg, hm⟩
    · have hps := ps.every_inner (some .parameters) (by decide)
      have hty := ty.every_inner (some .returnType) (by decide)
      have hbody := body.every_inner (some .body) (by decide)
      refine everyOf_singleton.mpr (every_rule.mpr ⟨fun _ => ⟨fs, _, .refl, rfl⟩, fun n hn => ?_⟩)
      have hinner : n.Every fun n => n.kind ≠ .rule .functionItem := by
        refine everyOf_cons.mpr ⟨?_, everyOf_cons.mpr ⟨?_, everyOf_append.mpr ⟨hps,
          everyOf_cons.mpr ⟨?_, everyOf_append.mpr ⟨hty, hbody⟩⟩⟩⟩⟩ n hn
        all_goals exact every_token.mpr nofun
      exact hinner.imp fun m hm hk => (hm hk).elim

end Phrase

/-! ### Leaves and tokens -/

namespace Leaf

theorem flatMap_concat (ts : List (Token Lexeme)) (t : Terminal) (a : Lexeme) :
    (ts ++ [(t, a)]).flatMap ofToken =
      (ts.flatMap ofToken ++ a.comments.map comment) ++ [token t a.text a.span] := by
  rw [List.flatMap_append, List.flatMap_singleton, ofToken, List.append_assoc]

end Leaf

theorem Phrase.tokens_texts {c : Category} (p : Phrase Lexeme c) :
    (p.map Lexeme.text).tokens = (p.tokens.flatMap Leaf.ofToken).filterMap Leaf.token? := by
  rw [Phrase.tokens_map, Leaf.filterMap_ofToken]

/-- Comments in front of all tokens stand by themselves. -/
theorem Tree.comment_mem {us : List Tree} {cs : List Comment} {c : Comment} {ms : List Leaf}
    (hus : ∀ u ∈ us, (∃ d, u = .comment d) ∨ u.Snug)
    (h : fringeOf us = cs.map Leaf.comment ++ .comment c :: ms) : .comment c ∈ us := by
  induction us generalizing cs with
  | nil => exact (List.append_ne_nil_of_right_ne_nil _ (List.cons_ne_nil _ _) h.symm).elim
  | cons u us ih =>
    obtain ⟨hu, hrest⟩ := List.forall_mem_cons.mp hus
    rcases hu with ⟨d, rfl⟩ | hu
    · cases cs with
      | nil =>
        cases h
        exact List.mem_cons_self
      | cons d' cs => exact List.mem_cons_of_mem _ (ih hrest (List.cons.inj h).2)
    · obtain ⟨a, ha, hn, -⟩ := hu.first
      obtain ⟨as, has⟩ := List.head?_eq_some_iff.mp ha
      rw [fringeOf, has] at h
      cases cs <;>
        (rw [(List.cons.inj h).1] at hn; cases hn)

namespace SourceFile

variable {s : SourceFile} {gs : Phrase Lexeme .functions} {cs : List Comment} {ls ms : List Leaf}
  {l : Leaf} {x : Tree}

theorem children_of_begins (h : gs.Begins s.functions) :
    ∃ ns, Node.EveryOf Node.HasParts ns ∧ s.children =
      Node.trees (gs.nodes none) ++ (Node.trees ns ++ s.trailing.map Tree.comment) := by
  obtain ⟨ns, hns⟩ := h.nodes
  have hparts := s.functions.every_hasParts none
  rw [hns] at hparts
  exact ⟨ns, (Node.everyOf_append.mp hparts).2, by
    rw [children, hns, Node.trees_append, List.append_assoc]⟩

/-- The last token of a function closes the file. -/
theorem closes_brace {g : Phrase Lexeme .function}
    (h : (Phrase.moreFunctions gs g).Begins s.functions) :
    ∃ (x : Tree) (t : Terminal) (a : Lexeme) (ts : List (Token Lexeme)),
      g.tokens = ts ++ [(t, a)] ∧ x.Within s.tree ∧ x.leaf? = some (.token t a.text a.span) ∧
      s.tree.Closes x := by
  obtain ⟨ps, qs, a, ts, hg, -, -, htokens⟩ := g.exists_end
  obtain ⟨ns, -, hchildren⟩ := children_of_begins h
  have hx : (Node.token none (.mark .closeBrace) a).tree ∈
      (Node.rule (some .body) .block (qs ++ [.token none (.mark .closeBrace) a])).tree.children :=
    Node.tree_mem_children (List.mem_append_right _ List.mem_cons_self)
  have hb : (Node.rule (some .body) .block (qs ++ [.token none (.mark .closeBrace) a])).tree ∈
      (Node.rule none .functionItem (ps ++
        [.rule (some .body) .block (qs ++ [.token none (.mark .closeBrace) a])])).tree.children :=
    Node.tree_mem_children (List.mem_append_right _ List.mem_cons_self)
  have hf : (Node.rule none .functionItem (ps ++
      [.rule (some .body) .block (qs ++ [.token none (.mark .closeBrace) a])])).tree ∈
        s.tree.children := by
    rw [tree, Tree.children, hchildren, Phrase.nodes, hg]
    exact List.mem_append_left _ (Node.tree_mem_trees (List.mem_append_right _ List.mem_cons_self))
  refine ⟨_, _, a, ts, htokens, .child hf (.child hb (.of_child hx)), rfl,
    .inr ⟨_, _, .of_child hf, Node.kind_tree _, hb, Node.field_tree _, hx, rfl⟩⟩

/-- A comment behind the first functions of a file is one of its own. -/
theorem comment_mem {c : Comment} (h : gs.Begins s.functions)
    (hs : s.leaves = (gs.tokens.flatMap Leaf.ofToken ++ cs.map Leaf.comment) ++ .comment c :: ms) :
    .comment c ∈ s.tree.children := by
  obtain ⟨ns, hns, hchildren⟩ := children_of_begins h
  have hparts : ∀ u ∈ Node.trees ns ++ s.trailing.map Tree.comment,
      (∃ d, u = .comment d) ∨ u.Snug := by
    intro u hu
    rcases List.mem_append.mp hu with hu | hu
    · rcases Node.mem_trees hu with hc | ⟨n, hn, rfl⟩
      · exact .inl hc
      · exact .inr (Node.snug_tree (hns n hn))
    · obtain ⟨d, -, rfl⟩ := List.mem_map.mp hu
      exact .inl ⟨d, rfl⟩
  have hfringe : Tree.fringeOf (Node.trees ns ++ s.trailing.map Tree.comment) =
      cs.map Leaf.comment ++ .comment c :: ms := by
    rw [← s.fringe_tree, tree, Tree.fringe, hchildren, Tree.fringeOf_append, Node.fringeOf_trees,
      Phrase.leaves_nodes, List.append_assoc] at hs
    exact List.append_cancel_left hs
  rw [tree, Tree.children, hchildren]
  exact List.mem_append_right _ (Tree.comment_mem hparts hfringe)

/-- Behind the first functions of a file and some comments, the file may end. -/
theorem closes_of_begins (h : gs.Begins s.functions)
    (hread : gs.tokens.flatMap Leaf.ofToken ++ cs.map Leaf.comment = ls ++ [l])
    (hs : s.leaves = ls ++ l :: ms) :
    ∃ x : Tree, x.Within s.tree ∧ x.leaf? = some l ∧ s.tree.Closes x := by
  rcases List.eq_nil_or_concat cs with rfl | ⟨cs, c, rfl⟩
  · rw [List.map_nil, List.append_nil] at hread
    match gs with
    | .noFunctions =>
      exact (List.append_ne_nil_of_right_ne_nil _ (List.cons_ne_nil _ _) hread.symm).elim
    | .moreFunctions gs g =>
      obtain ⟨x, t, a, ts, htokens, hx, hleaf, hcloses⟩ := closes_brace h
      rw [Phrase.tokens, htokens, ← List.append_assoc, Leaf.flatMap_concat] at hread
      obtain ⟨-, hl⟩ := List.append_inj' hread rfl
      exact ⟨x, hx, (List.cons.inj hl).1 ▸ hleaf, hcloses⟩
  · rw [List.concat_eq_append, List.map_append, ← List.append_assoc] at hread
    obtain ⟨rfl, hl⟩ := List.append_inj' hread rfl
    obtain rfl := (List.cons.inj hl).1
    have hmem := comment_mem h hs
    exact ⟨.comment c, .of_child hmem, rfl, .inl ⟨⟨c, rfl⟩, hmem⟩⟩

/-! ### Where the file may end, functions have been read -/

/-- In front of a comment of its own a file has its first functions. -/
theorem begins_of_comment {c : Comment} : ∀ (fs : Phrase Lexeme .functions) (cs : List Comment),
    .comment c ∈ Node.trees (fs.nodes none) ++ cs.map Tree.comment →
      ∃ (gs : Phrase Lexeme .functions) (ls ms : List Leaf), gs.Begins fs ∧
        fs.tokens.flatMap Leaf.ofToken ++ cs.map Leaf.comment = ls ++ .comment c :: ms ∧
        ls.filterMap Leaf.token? = (gs.map Lexeme.text).tokens
  | .noFunctions, cs, h => by
    have hc : c ∈ cs := by simpa [Phrase.nodes, Node.trees] using h
    obtain ⟨before, after, rfl⟩ := List.append_of_mem hc
    refine ⟨.noFunctions, before.map .comment, after.map .comment, .refl, ?_,
      Leaf.filterMap_comment before⟩
    rw [Phrase.tokens, List.flatMap_nil, List.nil_append, List.map_append, List.map_cons]
  | .moreFunctions fs g, cs, h => by
    obtain ⟨n, hn⟩ : ∃ n, g.nodes none = [n] := by
      cases g
      exact ⟨_, rfl⟩
    have hg : g.tokens.flatMap Leaf.ofToken = n.comments.map Leaf.comment ++ n.tree.fringe := by
      rw [Node.fringe_tree, Phrase.leaves_of_nodes hn]
    rw [Phrase.nodes, hn, Node.trees_append, Node.trees, Node.trees, ← List.append_assoc,
      List.append_assoc, List.mem_append] at h
    rcases h with h | h
    · obtain ⟨gs, ls, ms, hgs, hls, htokens⟩ := begins_of_comment fs n.comments h
      refine ⟨gs, ls, ms ++ (n.tree.fringe ++ cs.map .comment), .more g hgs, ?_, htokens⟩
      rw [Phrase.tokens, List.flatMap_append, hg, ← List.append_assoc, hls]
      simp only [List.append_assoc, List.cons_append]
    · rcases List.mem_cons.mp h with h | h
      · exact (n.tree_ne_comment c h.symm).elim
      · have hc : c ∈ cs := by simpa using h
        obtain ⟨before, after, rfl⟩ := List.append_of_mem hc
        refine ⟨.moreFunctions fs g, (fs.moreFunctions g).tokens.flatMap Leaf.ofToken ++
          before.map .comment, after.map .comment, .refl, ?_, ?_⟩
        · rw [List.map_append, List.map_cons, List.append_assoc]
        · rw [List.filterMap_append, Leaf.filterMap_comment, List.append_nil, Phrase.tokens_texts]

/-- At the brace that ends a function a file has its first functions. -/
theorem begins_of_brace {f b : Tree} (hf : f.Within s.tree) (hkind : f.kind = .rule .functionItem)
    (hb : b ∈ f.children) (hbody : b.field = some .body) (hx : x ∈ b.children)
    (hbrace : x.kind = .token (.mark .closeBrace)) (hl : x.leaf? = some l) :
    ∃ (gs : Phrase Lexeme .functions) (ls : List Leaf), gs.Begins s.functions ∧
      gs.tokens.flatMap Leaf.ofToken = ls ++ [l] := by
  rcases of_within s.functions.every_function hf with rfl | ⟨c, rfl⟩ | ⟨n, hn, rfl⟩
  · cases hkind
  · cases hkind
  · rw [Node.kind_tree] at hkind
    obtain ⟨gs, g, hgs, hg⟩ := hn.self hkind
    obtain ⟨ns, ms, a, ts, hnodes, hns, hms, htokens⟩ := g.exists_end
    obtain rfl := (List.cons.inj (hg.symm.trans hnodes)).1
    -- The body is the last part of the function, and the brace the last part of the body.
    rcases Node.of_mem_children hb with ⟨c, rfl⟩ | ⟨m, hm, rfl⟩
    · cases hbody
    rw [Node.field_tree] at hbody
    obtain rfl := List.mem_singleton.mp
      ((List.mem_append.mp hm).resolve_left fun hm => hns m hm hbody)
    rcases Node.of_mem_children hx with ⟨c, rfl⟩ | ⟨k, hk, rfl⟩
    · cases hbrace
    rw [Node.kind_tree] at hbrace
    obtain rfl := List.mem_singleton.mp
      ((List.mem_append.mp hk).resolve_left fun hk => hms k hk hbrace)
    obtain rfl := Option.some.inj hl
    exact ⟨_, _, hgs, by rw [Phrase.tokens, htokens, ← List.append_assoc, Leaf.flatMap_concat]⟩

/-- Where a file may end, it has its first functions. -/
theorem begins_of_closes (hl : x.leaf? = some l) (h : s.tree.Closes x) :
    ∃ (gs : Phrase Lexeme .functions) (ls ms : List Leaf), gs.Begins s.functions ∧
      s.leaves = ls ++ l :: ms ∧
      (ls ++ [l]).filterMap Leaf.token? = (gs.map Lexeme.text).tokens := by
  rcases h with ⟨⟨c, rfl⟩, hc⟩ | ⟨f, b, hf, hkind, hb, hbody, hx, hbrace⟩
  · obtain rfl := Option.some.inj hl
    obtain ⟨gs, ls, ms, hgs, hls, htokens⟩ := begins_of_comment s.functions s.trailing hc
    refine ⟨gs, ls, ms, hgs, hls, ?_⟩
    rw [List.filterMap_append, htokens]
    exact List.append_nil _
  · obtain ⟨gs, ls, hgs, hread⟩ := begins_of_brace hf hkind hb hbody hx hbrace hl
    obtain ⟨us, hus⟩ := hgs.tokens
    refine ⟨gs, ls, us.flatMap Leaf.ofToken ++ s.trailing.map Leaf.comment, hgs, ?_, ?_⟩
    · rw [leaves, ← hus, List.flatMap_append, hread, List.append_assoc, List.append_assoc]
      rfl
    · rw [Phrase.tokens_texts, hread]

end SourceFile

/-- A program that is cut behind a leaf is accepted if the file may end there, and otherwise reading
stops at the end of the leaf. -/
theorem parseTree_cut {text : Bytes} {t x : Tree} {l : Leaf} (h : parseTree text = .ok t)
    (hx : x.Within t) (hl : x.leaf? = some l) :
    (t.Closes x → ∃ u, parseTree (text.take x.span.stop.byte) = .ok u) ∧
      (¬ t.Closes x → parseTree (text.take x.span.stop.byte) = .error ⟨x.span.stop⟩) := by
  obtain ⟨s, hs, rfl⟩ := parse_of_parseTree h
  rw [Tree.span_of_leaf hl]
  constructor
  · intro hcloses
    obtain ⟨gs, ls, ms, hgs, hleaves, htokens⟩ := SourceFile.begins_of_closes hl hcloses
    obtain ⟨r, hparse, -, -, -, hleads⟩ := parse_upTo hs hleaves
    -- The parser has no choice but to be behind the functions `gs`.
    have hgs' : (gs.map Lexeme.text).Begins s.texts := hgs.map Lexeme.text
    have hspelled : (gs.map Lexeme.text).Spelled := fun a ha =>
      (leads_of_parse hs).spelled a (hgs'.tokens.subset ha)
    have hruns : (State.top .noFunctions).Leads (gs.map Lexeme.text).tokens
        (.top (gs.map Lexeme.text)) :=
      (gs.map Lexeme.text).runs_of_proper (hgs'.proper (proper_of_parse hs)) hspelled
    rw [htokens] at hleads
    obtain ⟨s', hf, -⟩ := Reader.finish_of_texts (hleads.unique hruns)
    exact ⟨s'.tree, parseTree_eq_ok (hparse.trans hf)⟩
  · intro hcloses
    have hmem : l ∈ s.leaves := s.fringe_tree ▸ Tree.mem_fringe.mpr ⟨x, hx, hl⟩
    obtain ⟨ls, ms, hleaves⟩ := List.append_of_mem hmem
    obtain ⟨r, hparse, hconsumed, hread, hgs, -⟩ := parse_upTo hs hleaves
    rw [parseTree_eq_error, hparse, ← hconsumed]
    obtain ⟨state, comments, consumed, here⟩ := r
    cases state with
    | top gs =>
      obtain ⟨y, hy, hyl, hyc⟩ := SourceFile.closes_of_begins hgs hread hleaves
      obtain ⟨mark, z, rfl, hm, hz⟩ := tiled_of_parse hs
      rw [← s.fringe_tree] at hz
      have ho : s.tree.Ordered := ⟨hz.start_lt_stop, hz.increasing⟩
      exact (hcloses (ho.eq_of_leaf hx hy hl hyl ▸ hyc)).elim
    | _ => rfl

/-- A function and a comment, cut behind the comment and behind the first brace. -/
theorem parseTree_cut_empty :
    (∃ u, parseTree (Bytes.ofString "fn f()->()\x7b\x7d//b") = .ok u) ∧
      parseTree (Bytes.ofString "fn f()->()\x7b") = .error ⟨⟨11, 0, 11⟩⟩ := by
  have hleaves : (parseTree (Bytes.ofString "fn f()->()\x7b\x7d//b\n")).toOption.map
      (fun t => (t.children.map Tree.leaf?, t.fringe[6]?)) =
        some ([none, some (.comment ⟨.line, [47, 47, 98], ⟨⟨12, 0, 12⟩, ⟨15, 0, 15⟩⟩⟩)],
          some (.token (.mark .openBrace) [123] ⟨⟨10, 0, 10⟩, ⟨11, 0, 11⟩⟩)) := by
    decide +kernel
  obtain ⟨t, hp, hfound⟩ := exists_parseTree_of_map hleaves
  obtain ⟨hchildren, hfringe⟩ := Prod.mk.inj hfound
  have hcomment : some (.comment ⟨.line, [47, 47, 98], ⟨⟨12, 0, 12⟩, ⟨15, 0, 15⟩⟩⟩) ∈
      t.children.map Tree.leaf? := hchildren ▸ List.mem_cons_of_mem _ List.mem_cons_self
  constructor
  · obtain ⟨x, hx, hl⟩ := List.mem_map.mp hcomment
    have hcut := (parseTree_cut hp (.of_child hx) hl).1
    rw [Tree.span_of_leaf hl] at hcut
    exact hcut (.inl ⟨⟨_, Tree.eq_of_leaf_comment hl⟩, hx⟩)
  · obtain ⟨x, hx, hl⟩ := Tree.mem_fringe.mp (List.mem_of_getElem? hfringe)
    have hcut := (parseTree_cut hp hx hl).2
    rw [Tree.span_of_leaf hl] at hcut
    refine hcut ?_
    have hkind : x.kind = .token (.mark .openBrace) := Tree.kind_of_leaf hl
    rintro (⟨⟨c, rfl⟩, -⟩ | ⟨f, b, -, -, -, -, -, hk⟩)
    · cases hkind
    · cases hkind.symm.trans hk

end RueSyntax
