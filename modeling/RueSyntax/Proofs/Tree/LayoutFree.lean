import RueSyntax.Proofs.Tree.Bare

/-!
# The layout does not matter

Two texts with the same tokens have the same tree, but for comments and places.  One text is any
program; the other has its tokens in any layout, down to the one without any padding that words do
not need.
-/

namespace RueSyntax

theorem parse_of_parseTree {text : Bytes} {t : Tree} (h : parseTree text = .ok t) :
    ∃ s, parse text = .ok s ∧ t = s.tree := by
  unfold parseTree at h
  cases hp : parse text with
  | error e =>
    rw [hp] at h
    cases h
  | ok s =>
    rw [hp] at h
    cases h
    exact ⟨s, rfl, rfl⟩

theorem parseTree_eq_ok {text : Bytes} {s : SourceFile} (h : parse text = .ok s) :
    parseTree text = .ok s.tree := by
  rw [parseTree, h]
  rfl

/-- Whether a text is accepted can be computed. -/
theorem exists_parseTree {text : Bytes} (h : (parseTree text).isOk = true) :
    ∃ t, parseTree text = .ok t := by
  cases hp : parseTree text with
  | error e =>
    rw [hp] at h
    cases h
  | ok t => exact ⟨t, rfl⟩

/-- What has been computed of the tree of a text holds of that tree. -/
theorem exists_parseTree_of_map {γ : Type} {text : Bytes} {f : Tree → γ} {c : γ}
    (h : (parseTree text).toOption.map f = some c) : ∃ t, parseTree text = .ok t ∧ f t = c := by
  cases hp : parseTree text with
  | error e =>
    rw [hp] at h
    cases h
  | ok t =>
    rw [hp] at h
    exact ⟨t, rfl, Option.some.inj h⟩

/-- Every layout of the leaves of an accepted text is accepted; its tree is the same but for the
comments, which are those of the layout. -/
theorem parseTree_layout {text mark x : Bytes} {t : Tree} {cs : List (CommentKind × Bytes)}
    (h : parseTree text = .ok t) (hx : Layout t.leaves cs x)
    (hm : mark = [] ∨ mark = byteOrderMark) :
    ∃ t', parseTree (mark ++ x) = .ok t' ∧ t'.bare = t.bare ∧
      t'.comments.map Comment.bare = cs := by
  obtain ⟨s, hs, rfl⟩ := parse_of_parseTree h
  rw [s.leaves_tree] at hx
  obtain ⟨s', hs', ht, hc⟩ := parse_of_leads (leads_of_parse hs) hx hm
  refine ⟨s'.tree, parseTree_eq_ok hs', ?_, ?_⟩
  · rw [s'.bare_tree, s.bare_tree, ht]
  · rw [s'.comments_tree, hc]

/-- A function with nothing in it, in one layout and in another. -/
theorem parseTree_layout_unit :
    ∃ t, parseTree (Bytes.ofString "fn f()->()\x7b\x7d") = .ok t ∧
      ∃ t', parseTree (byteOrderMark ++ Bytes.ofString "//a\nfn /*b*/f( )->()\x7b\x7d //c") =
          .ok t' ∧ t'.bare = t.bare ∧
        t'.comments.map Comment.bare = [(.line, Bytes.ofString "//a"),
          (.block, Bytes.ofString "/*b*/"), (.line, Bytes.ofString "//c")] := by
  have hleaves : (parseTree (Bytes.ofString "fn f()->()\x7b\x7d")).toOption.map Tree.leaves =
      some [(.word .fnWord, [102, 110]), (.identifier, [102]), (.mark .openParen, [40]),
        (.mark .closeParen, [41]), (.mark .arrow, [45, 62]), (.unitType, [40, 41]),
        (.mark .openBrace, [123]), (.mark .closeBrace, [125])] := by
    decide +kernel
  have hspace : BlankFirst [32] := by decide
  have ha : CommentKind.line.HasText [47, 47, 97] := ⟨[97], rfl, by decide⟩
  have hb : CommentKind.block.HasText [47, 42, 98, 42, 47] := ⟨[98], rfl, by decide⟩
  have hc : CommentKind.line.HasText [47, 47, 99] := ⟨[99], rfl, by decide⟩
  have hend : LastPadding [(.line, [47, 47, 99])] [32, 47, 47, 99] :=
    .comment (.blank (b := 32) rfl .nil) hc
  obtain ⟨t, hp, ht⟩ := exists_parseTree_of_map hleaves
  refine ⟨t, hp, parseTree_layout hp ?_ (.inr rfl)⟩
  rw [ht]
  refine .tokens (.line ha .nil) ?_
  refine .cons (.blank (b := 32) rfl (.block hb .nil)) (by decide) (by decide) ?_
  refine .cons .nil (by decide) (by decide) ?_
  refine .cons (.blank (b := 32) rfl .nil) hspace (by decide) ?_
  refine .cons .nil (by decide) (by decide) ?_
  refine .cons .nil (by decide) (by decide) ?_
  refine .cons .nil (by decide) (by decide) ?_
  refine .cons .nil (by decide) (by decide) ?_
  exact .last hend (by decide)

end RueSyntax
