import RueSyntax.Proofs.Highlight.Patterns

/-!
# Every byte of a program is captured, and by one pattern as far as can be

A leaf is captured itself or, if it is the word for a type or a truth value, with the node around
it.  So what is not captured belongs to no leaf.  Two captures share bytes only where the query
means them to: a name may be captured twice, as a name and for its part, and so may what is in a
unit literal.
-/

namespace RueSyntax

/-! ### Captured leaves -/

/-- The words that have a node to themselves. -/
def Keyword.alone : List Keyword := [trueWord, falseWord, i32, i64, bool]

/-- All other tokens have a pattern. -/
theorem Terminal.word_of_number {t : Terminal} (h : (Kind.token t).number = none) :
    ∃ w ∈ Keyword.alone, t = .word w := by
  revert h
  cases t with
  | word w => cases w <;> decide +kernel
  | mark m => cases m <;> decide +kernel
  | operator o => cases o <;> decide +kernel
  | _ => decide +kernel

theorem CommentKind.number_isSome (k : CommentKind) :
    (Kind.comment k).number.isSome = true := by
  cases k <;> decide +kernel

theorem Rule.isWord_of_takes {r : Rule} : ∀ w ∈ Keyword.alone,
    r.takes (.token (.word w)) = true → r.isWord = true := by
  cases r <;> decide

/-- A node with a pattern is captured by it. -/
theorem Query.exists_capture {t u : Tree} (hu : u.Within t) (h : u.kind.number.isSome = true) :
    ∃ x ∈ Query.rue.highlights t, x.node = u := by
  obtain ⟨n, hn⟩ := Option.isSome_iff_exists.mp h
  obtain ⟨hlt, hfits, -⟩ := List.findIdx?_eq_some_iff_getElem.mp hn
  have hp : Query.rue.patterns[n]? = some Query.rue.patterns[n] := List.getElem?_eq_getElem hlt
  refine ⟨⟨n, Query.rue.patterns[n].capture, u⟩, mem_highlights.mpr ⟨_, hp, rfl, ?_⟩, rfl⟩
  generalize Query.rue.patterns[n] = p at hfits
  cases p with
  | part r f k c => cases hfits
  | _ => exact ⟨hu, hfits⟩

namespace SourceFile

variable {s : SourceFile} {u : Tree} {l : Leaf}

/-- A leaf lies in a captured node. -/
theorem exists_capture_of_leaf (ho : s.tree.Ordered) (hu : u.Within s.tree)
    (hl : u.leaf? = some l) : ∃ x ∈ Query.rue.highlights s.tree,
      x.node.span.start.byte ≤ u.span.start.byte ∧ u.span.stop.byte ≤ x.node.span.stop.byte := by
  by_cases hnumber : u.kind.number.isSome = true
  · obtain ⟨x, hx, rfl⟩ := Query.exists_capture hu hnumber
    exact ⟨x, hx, Nat.le_refl _, Nat.le_refl _⟩
  · cases u with
    | rule f r span ts => cases hl
    | comment c => exact (hnumber c.kind.number_isSome).elim
    | token f t w span =>
      obtain ⟨i, hi, rfl⟩ := Terminal.word_of_number (Option.not_isSome_iff_eq_none.mp hnumber)
      rcases hu.eq_or_child with heq | ⟨p, hp, hup⟩
      · cases heq
      · cases p with
        | rule g r span' us =>
          have htakes : r.takes (.token (.word i)) = true := takes_of_mem hp hup rfl
          have hword : r.isWord = true := Rule.isWord_of_takes i hi htakes
          have hroot : Tree.rule g r span' us ≠ s.tree := by
            intro heq
            cases heq
            cases hword
          obtain ⟨x, hx, hnode⟩ := Query.exists_capture hp (Rule.number_of_takes hword _ htakes).2
          have haround : Span.around us = some x.node.span := by
            rw [hnode]
            exact around_children hp hroot rfl
          exact ⟨x, hx, inside_children ho hp haround hup⟩
        | _ => cases hup

end SourceFile

/-! ### Captures that share bytes -/

namespace Highlight

variable {x y : Highlight}

/-- Both are of one identifier: `x` for its part in its parent, `y` as a name. -/
structure OfName (x y : Highlight) : Prop where
  node : x.node = y.node
  identifier : y.node.Is "identifier"
  part : x.pattern ∈ [5, 6, 7]
  name : y.pattern = 14

/-- What `y` captures is a unit literal, and `x` one of its two brackets or a comment in it. -/
structure OfUnit (x y : Highlight) : Prop where
  literal : y.pattern = 10 ∧ y.node.Is "unit_literal"
  child : x.node ∈ y.node.children
  part : x.pattern = 0 ∧ x.node.Is "line_comment" ∨ x.pattern = 1 ∧ x.node.Is "block_comment" ∨
    x.pattern = 12 ∧ x.node.IsOneOf ["(", ")"]

/-- The ways in which two captures may share bytes. -/
def Shares (x y : Highlight) : Prop := x.OfName y ∨ x.OfUnit y

theorem ofUnit_of_inUnit {t : Tree} (h : x.node.InUnit y.node)
    (hx : t.Numbered x.node x.pattern) (hy : t.Numbered y.node y.pattern) : x.OfUnit y where
  literal := ⟨h.pattern_literal hy, Tree.is_rule_iff.mpr h.unit⟩
  child := h.child
  part := by
    have hbracket : x.node.kind = .token (.mark .openParen) ∨
        x.node.kind = .token (.mark .closeParen) → x.node.IsOneOf ["(", ")"] := by
      intro hk
      have hbrackets : ∀ s ∈ [Terminal.mark .openParen, .mark .closeParen],
          s.isNamed = false := by
        decide
      refine (Tree.isOneOf_iff hbrackets).mpr ?_
      rcases hk with hk | hk
      · exact ⟨_, List.mem_cons_self, hk⟩
      · exact ⟨_, List.mem_cons_of_mem _ List.mem_cons_self, hk⟩
    rcases h.pattern_part hx with ⟨hn, hk⟩ | ⟨hn, hk⟩ | ⟨hn, hk⟩
    · exact .inl ⟨hn, (Tree.is_iff (k := .comment .line) rfl).mpr hk⟩
    · exact .inr (.inl ⟨hn, (Tree.is_iff (k := .comment .block) rfl).mpr hk⟩)
    · exact .inr (.inr ⟨hn, hbracket hk⟩)

end Highlight

/-- Captures in the tree of a file that share bytes are two of one name, or one of a unit literal
and one of what is in it. -/
theorem SourceFile.pairwise_shares {s : SourceFile} (ho : s.tree.Ordered) :
    (Query.rue.highlights s.tree).Pairwise fun x y =>
      x.node.span.Overlaps y.node.span → x.Shares y ∨ y.Shares x := by
  refine (pairwise_strictlyBefore ho).imp_of_mem fun {x y} hx hy hbefore hoverlap => ?_
  obtain ⟨hxt, hnx⟩ := Highlight.numbered_of_mem hx
  obtain ⟨hyt, hny⟩ := Highlight.numbered_of_mem hy
  rcases eq_or_inUnit ho hxt hyt hnx.isSome hny.isSome hoverlap with hnode | hunit | hunit
  · rw [hnode] at hnx
    rcases hnx.eq_or ho s.leafy hny with heq | ⟨hk, ⟨hpart, hfull⟩ | ⟨hpart, hfull⟩⟩
    · -- one pattern captures a node once
      rcases hbefore with hlt | ⟨-, hlt⟩
      · rw [hnode] at hlt
        exact (Nat.lt_irrefl _ hlt).elim
      · exact (Nat.ne_of_lt hlt heq).elim
    · exact .inl (.inl ⟨hnode, Tree.is_identifier_iff.mpr hk, hpart, hfull⟩)
    · exact .inr (.inl ⟨hnode.symm, hnode ▸ Tree.is_identifier_iff.mpr hk, hpart, hfull⟩)
  · exact .inl (.inr (Highlight.ofUnit_of_inUnit hunit hnx hny))
  · exact .inr (.inr (Highlight.ofUnit_of_inUnit hunit hny hnx))

/-! ### The captures of a program -/

/-- Every byte of a program is captured, but for white space outside of comments and a byte order
mark; and two captures share bytes only if they are of one name, for its part and as a name, or of
a unit literal and something in it. -/
theorem parseTree_captured {text : Bytes} {t : Tree} (h : parseTree text = .ok t) :
    (∀ i b, text[i]? = some b → (∃ x ∈ Query.rue.highlights t, x.node.span.Covers i) ∨
      (Byte.isBlank b = true ∧ ∀ c ∈ t.comments, ¬ c.span.Covers i) ∨
      i < 3 ∧ byteOrderMark.isPrefixOf text = true) ∧
    (Query.rue.highlights t).Pairwise fun x y =>
      x.node.span.Overlaps y.node.span → x.Shares y ∨ y.Shares x := by
  obtain ⟨s, hs, rfl⟩ := parse_of_parseTree h
  have hlossless := lossless_of_parse_eq_ok hs
  have ho : s.tree.Ordered := hlossless.ordered
  refine ⟨fun i b hb => ?_, SourceFile.pairwise_shares ho⟩
  by_cases hcover : ∃ l ∈ s.tree.fringe, l.Covers i
  · obtain ⟨l, hl, hstart, hstop⟩ := hcover
    obtain ⟨u, hu, hul⟩ := Tree.mem_fringe.mp hl
    obtain ⟨x, hx, hxstart, hxstop⟩ := SourceFile.exists_capture_of_leaf ho hu hul
    rw [Tree.span_of_leaf hul] at hxstart hxstop
    exact .inl ⟨x, hx, by omega, by omega⟩
  · have hnone : ∀ l ∈ s.tree.fringe, ¬ l.Covers i := fun l hl hi => hcover ⟨l, hl, hi⟩
    refine .inr ((hlossless.between i b hb hnone).imp_left fun hblank => ⟨hblank, fun c hc => ?_⟩)
    rw [Tree.comments_eq_filterMap, List.mem_filterMap] at hc
    obtain ⟨l, hl, hlc⟩ := hc
    cases l with
    | token t w span => cases hlc
    | comment d =>
      cases hlc
      exact hnone _ hl

/-- A name that is called, types and truth values, and a comment in a unit literal. -/
def capturedText : Bytes := Bytes.ofString "fn f(a:i32)->bool\x7bg(true,a,(/* c*/ ))\x7d"

/-- Two of its bytes are not captured, which are spaces outside the comment. -/
theorem parseTree_captured_unit :
    ∃ t, parseTree capturedText = .ok t ∧
      (∀ i < capturedText.length, i ≠ 2 → i ≠ 34 →
        ∃ x ∈ Query.rue.highlights t, x.node.span.Covers i) ∧
      (Query.rue.highlights t).Pairwise fun x y =>
        x.node.span.Overlaps y.node.span → x.Shares y ∨ y.Shares x := by
  have hcomments : (parseTree capturedText).toOption.map (fun t => t.comments.map Comment.span) =
      some [⟨⟨28, 0, 28⟩, ⟨34, 0, 34⟩⟩] := by
    decide +kernel
  have hblanks : ∀ i < capturedText.length, capturedText[i]?.any Byte.isBlank = true →
      i = 2 ∨ i = 30 ∨ i = 34 := by
    decide +kernel
  obtain ⟨t, ht, hspans⟩ := exists_parseTree_of_map hcomments
  obtain ⟨hcovers, hshares⟩ := parseTree_captured ht
  refine ⟨t, ht, fun i hi hfirst hlast => ?_, hshares⟩
  have hb := List.getElem?_eq_getElem hi
  rcases hcovers i _ hb with hcaptured | ⟨hblank, hnone⟩ | ⟨-, hmark⟩
  · exact hcaptured
  · -- the third space is in the comment
    obtain rfl : i = 30 := by
      have hplaces := hblanks i hi (by rw [hb]; exact hblank)
      omega
    obtain ⟨c, hc, hspan⟩ : ∃ c ∈ t.comments, c.span = ⟨⟨28, 0, 28⟩, ⟨34, 0, 34⟩⟩ :=
      List.mem_map.mp (hspans ▸ List.mem_singleton_self _)
    have hin : c.span.Covers 30 := by
      rw [hspan]
      exact ⟨by decide, by decide⟩
    exact (hnone c hc hin).elim
  · exact absurd hmark (by decide)

end RueSyntax
