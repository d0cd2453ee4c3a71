import RueSyntax.Proofs.Highlight.Captures
import RueSyntax.Proofs.Text.Boundary
import RueSyntax.Proofs.Tree.Geometry
import RueSyntax.Proofs.Tree.Under

/-!
# Nodes and characters

Outside of comments only ASCII is accepted, and comments begin and end with it, except that a line
comment may end before a line feed or with its text.  So every token and comment of a text in UTF-8
begins and ends between characters (`seam`), and with them every node, every capture and the place
where a refused text is given up.
-/

namespace RueSyntax

open Utf8

/-! ### Where tokens and comments begin and end -/

theorem Terminal.lt_of_mem {t : Terminal} {w : Bytes} (h : t.HasText w) : ∀ b ∈ w, b < 128 := by
  have hall : ∀ v : Bytes, (v.all fun b => decide (b < 128)) = true → ∀ b ∈ v, b < 128 :=
    fun v hv b hb => of_decide_eq_true (List.all_eq_true.mp hv b hb)
  cases t with
  | word k =>
    subst h
    exact hall _ (by cases k <;> decide)
  | mark m =>
    subst h
    exact hall _ (by cases m <;> decide)
  | operator o =>
    subst h
    exact hall _ (by cases o <;> decide)
  | unitType =>
    subst h
    exact hall _ (by decide)
  | identifier => exact fun b hb => Byte.lt_of_isWord (h.2 b hb)
  | integer => exact fun b hb => Byte.lt_of_isWord (Byte.isWord_of_isDigit (h.2 b hb))

theorem Terminal.seam {t : Terminal} {w : Bytes} (h : t.HasText w) (y : Bytes) : Seam w y := by
  obtain ⟨b, w', rfl, -⟩ := Terminal.head_of_hasText h
  have hlast := List.getLast?_eq_some_getLast (List.cons_ne_nil b w')
  exact .inr (.inl ⟨_, hlast, t.lt_of_mem h _ (List.getLast_mem _)⟩)

theorem CommentKind.seam {k : CommentKind} {w y : Bytes} (h : k.HasText w) (hy : k.EndsBefore y) :
    Seam w y := by
  cases k with
  | line =>
    cases y with
    | nil => exact .inl rfl
    | cons b y =>
      refine .inr (.inr ⟨b, rfl, ?_⟩)
      rcases hy b rfl with rfl | rfl <;> decide
  | block =>
    obtain ⟨body, rfl, -⟩ := h
    have hclose : 47 :: 42 :: (body ++ [42, 47]) = 47 :: 42 :: (body ++ [42]) ++ [47] := by simp
    rw [hclose]
    exact .inr (.inl ⟨47, List.getLast?_concat, by decide⟩)

namespace Leaf

variable {l : Leaf} {y text : Bytes}

theorem lt_of_head (h : l.Spelled) : ∃ b ∈ l.text.head?, b < 128 := by
  cases l with
  | token t w s =>
    obtain ⟨b, w', hw, -, hlt, -⟩ := Terminal.head_of_hasText h
    exact ⟨b, congrArg List.head? hw, hlt⟩
  | comment c =>
    obtain ⟨w', hw⟩ := Reader.head_of_comment h
    exact ⟨47, congrArg List.head? hw, by decide⟩

theorem seam (h : l.Spelled) (hy : ∀ b ∈ y.head?, l.EndsAt b) : Seam l.text y := by
  cases l with
  | token t w s => exact Terminal.seam h y
  | comment c => exact CommentKind.seam h (CommentKind.endsBefore_of_endsAt hy)

/-- A leaf of a text in UTF-8 reaches from one boundary to another. -/
theorem StandsIn.boundaries (h : l.StandsIn text) (hl : l.Spelled) (hv : IsValid text) :
    IsBoundary text l.span.start.byte ∧ IsBoundary text l.span.stop.byte := by
  obtain ⟨before, after, rfl, hspan, hafter⟩ := h
  have hstart : l.span.start.byte = before.length := by
    rw [hspan]
    exact Position.byte_start_after before
  have hstop : l.span.stop.byte = (before ++ l.text).length := by
    rw [← Position.byte_start_after (before ++ l.text), Position.after_append, hspan]
    rfl
  obtain ⟨b, hb, hlt⟩ := lt_of_head hl
  have hfirst : Seam before (l.text ++ after) := by
    refine .inr (.inr ⟨b, ?_, hlt⟩)
    rw [List.head?_append, Option.mem_def.mp hb]
    rfl
  rw [hstart, hstop]
  refine ⟨isBoundary_of_seam hv hfirst, ?_⟩
  rw [← List.append_assoc] at hv ⊢
  exact isBoundary_of_seam hv ((seam hl hafter).append_left before)

end Leaf

/-! ### Where a refused text is given up -/

/-- A reader has consumed a text up to the end of a token or a comment. -/
theorem Reader.Reads.seam {r r' : Reader} {x y : Bytes} (h : Reads r x y r') :
    r'.consumed = r.consumed ∨
      ∃ x' z, x = x' ++ z ∧ r'.consumed = r.here.after x' ∧ Seam x' (z ++ y) := by
  induction h with
  | nil => exact .inl rfl
  | @cons r r1 r2 w x y h hs ih =>
    have hhere := h.here
    rcases ih with hco | ⟨x', z, rfl, hco, hseam⟩
    · cases h with
      | blank => exact .inl hco
      | comment hw hy => exact .inr ⟨w, x, rfl, hco, CommentKind.seam hw hy⟩
      | token hw _ ht _ =>
        obtain ⟨s, -, rfl⟩ := take_eq_some_iff.mp ht
        exact .inr ⟨w, x, rfl, hco, Terminal.seam hw _⟩
    · refine .inr ⟨w ++ x', z, (List.append_assoc w x' z).symm, ?_, hseam.append_left w⟩
      rw [hco, hhere, Position.after_append]

theorem isBoundary_stoppedAt {text : Bytes} {e : SyntaxError} (hv : IsValid text)
    (h : parse text = .error e) : IsBoundary text e.stoppedAt.byte := by
  obtain ⟨mark, x, y, r, rfl, -, hr, hstop⟩ := stop_of_parse h
  rcases hr.seam with hco | ⟨x', z, rfl, hco, hseam⟩
  · have hstart : e.stoppedAt = .start := hstop.trans hco
    rw [hstart]
    exact isBoundary_zero hv
  · have hbyte : e.stoppedAt.byte = (mark ++ x').length := by
      rw [← Position.byte_start_after (mark ++ x'), Position.after_append, hstop, hco]
      rfl
    have hsplit : mark ++ (x' ++ z ++ y) = mark ++ x' ++ (z ++ y) := by
      simp only [List.append_assoc]
    rw [hbyte, hsplit]
    rw [hsplit] at hv
    exact isBoundary_of_seam hv (hseam.append_left mark)

/-! ### Nodes -/

/-- What holds of the ends of all leaves, and of the end of the file, holds of the ends of all
nodes. -/
theorem SourceFile.ends_of_leaves {s : SourceFile} {P : Position → Prop}
    (hs : ∀ l ∈ s.tree.fringe, P l.span.start ∧ P l.span.stop) (hstop : P s.tree.span.stop)
    {u : Tree} (hu : u.Within s.tree) : P u.span.start ∧ P u.span.stop := by
  have hchild : ∀ {p v : Tree}, p.Within s.tree → v ∈ p.children →
      P v.span.start ∧ P v.span.stop := by
    intro p v hp hv
    have hwithin : v.Within s.tree := .trans (.of_child hv) hp
    have hfringe := hwithin.fringe_infix.subset
    obtain ⟨⟨l, hl, hls⟩, ⟨m, hm, hms⟩⟩ := tight_of_mem hp hv
    rw [← hls, ← hms]
    exact ⟨(hs l (hfringe (List.mem_of_mem_head? hl))).1,
      (hs m (hfringe (List.mem_of_mem_getLast? hm))).2⟩
  rcases hu.eq_or_child with rfl | ⟨p, hp, hup⟩
  · refine ⟨?_, hstop⟩
    cases hchildren : s.tree.children with
    | nil =>
      rw [start_of_nil hchildren]
      exact hstop
    | cons v vs =>
      rw [start_of_head (by rw [hchildren]; rfl)]
      exact (hchild .refl (hchildren ▸ List.mem_cons_self)).1
  · exact hchild hp hup

/-- The part of a text that a span takes. -/
def Span.slice (s : Span) (text : Bytes) : Bytes := (text.take s.stop.byte).drop s.start.byte

theorem SourceFile.boundaries {text : Bytes} {s : SourceFile} (hv : IsValid text)
    (h : parse text = .ok s) {u : Tree} (hu : u.Within s.tree) :
    IsBoundary text u.span.start.byte ∧ IsBoundary text u.span.stop.byte := by
  have hlossless := lossless_of_parse_eq_ok h
  refine ends_of_leaves (P := fun p => IsBoundary text p.byte)
    (fun l hl => (hlossless.longest l hl).boundaries (hlossless.spelled l hl) hv) ?_ hu
  rw [stop_of_parse_eq_ok h, Position.byte_start_after]
  exact isBoundary_length hv

/-- In a text in UTF-8 every node begins and ends between two characters, so that its text and the
text of every capture are in UTF-8 as well.  A refused text is given up between characters too. -/
theorem parseTree_boundaries {text : Bytes} (hv : IsValid text) :
    (∀ t, parseTree text = .ok t →
      (∀ u : Tree, u.Within t → IsBoundary text u.span.start.byte ∧
        IsBoundary text u.span.stop.byte ∧ IsValid (u.span.slice text)) ∧
      ∀ (q : Query), ∀ x ∈ q.highlights t, IsValid (x.node.span.slice text)) ∧
    ∀ e, parseTree text = .error e → IsBoundary text e.stoppedAt.byte := by
  constructor
  · intro t ht
    obtain ⟨s, hs, rfl⟩ := parse_of_parseTree ht
    have hvalid : ∀ u : Tree, u.Within s.tree → IsValid (u.span.slice text) := fun u hu =>
      (SourceFile.boundaries hv hs hu).1.between (SourceFile.boundaries hv hs hu).2
    refine ⟨fun u hu => ?_, fun q x hx => ?_⟩
    · obtain ⟨hstart, hstop⟩ := SourceFile.boundaries hv hs hu
      exact ⟨hstart, hstop, hvalid u hu⟩
    · obtain ⟨p, -, -, hmatch⟩ := Query.mem_highlights.mp hx
      exact hvalid x.node hmatch.within
  · intro e he
    exact isBoundary_stoppedAt hv (parseTree_eq_error.mp he)

/-- A comment with two bytes to a character, and a text that is refused behind one. -/
theorem parseTree_boundaries_umlaut :
    (∃ t, parseTree (Bytes.ofString "fn f()->()\x7b/*ä*/\x7d") = .ok t ∧
      ∀ u : Tree, u.Within t →
        IsValid (u.span.slice (Bytes.ofString "fn f()->()\x7b/*ä*/\x7d"))) ∧
      parseTree (Bytes.ofString "//ä\nä") = .error ⟨⟨4, 0, 4⟩⟩ ∧
      IsBoundary (Bytes.ofString "//ä\nä") 4 := by
  obtain ⟨t, ht⟩ : ∃ t, parseTree (Bytes.ofString "fn f()->()\x7b/*ä*/\x7d") = .ok t :=
    exists_parseTree (by decide +kernel)
  have herror : parseTree (Bytes.ofString "//ä\nä") = .error ⟨⟨4, 0, 4⟩⟩ := rfl
  exact ⟨⟨t, ht, fun u hu => ((parseTree_boundaries ⟨_, rfl⟩).1 t ht).1 u hu |>.2.2⟩, herror,
    (parseTree_boundaries ⟨_, rfl⟩).2 _ herror⟩

end RueSyntax
