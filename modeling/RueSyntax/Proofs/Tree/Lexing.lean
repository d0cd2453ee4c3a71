import RueSyntax.Proofs.Tree.Fringe

/-!
# Lossless lexing with longest match

The leaves of the tree of a program stand one behind the other in its text, each where its span
says and with a text of its kind.  Between them are blanks, and a byte order mark at most in front
of them all.  No leaf could be longer: the byte behind it does not go on with a text of its kind.
-/

namespace RueSyntax

/-- A leaf without a name of its own is known by its text. -/
theorem Leaf.text_of_anonymous {l : Leaf} (h : l.Spelled) (hn : l.kind.isNamed = false) :
    l.text = Bytes.ofString l.kind.name := by
  cases l with
  | comment c => cases hn
  | token t w s =>
    cases t with
    | word k => exact h
    | mark m => exact h
    | operator o => exact h
    | _ => cases hn

/-- The leaf `l` stands in the text where its span says, and it could not be longer. -/
def Leaf.StandsIn (l : Leaf) (text : Bytes) : Prop :=
  ∃ before after, text = before ++ (l.text ++ after) ∧
    l.span = Span.of (Position.start.after before) l.text ∧ ∀ b ∈ after.head?, l.EndsAt b

/-- The byte at the index `i` belongs to the leaf. -/
def Leaf.Covers (l : Leaf) (i : Nat) : Prop := l.span.start.byte ≤ i ∧ i < l.span.stop.byte

/-- The leaves take the text apart. -/
structure Lossless (text : Bytes) (ls : List Leaf) : Prop where
  nonempty : ∀ l ∈ ls, l.span.start.byte < l.span.stop.byte
  increasing : ls.Pairwise fun l m => l.span.stop.byte ≤ m.span.start.byte
  between : ∀ i b, text[i]? = some b → (∀ l ∈ ls, ¬ l.Covers i) →
    Byte.isBlank b = true ∨ i < 3 ∧ byteOrderMark.isPrefixOf text = true
  spelled : ∀ l ∈ ls, l.Spelled
  anonymous : ∀ l ∈ ls, l.kind.isNamed = false → l.text = Bytes.ofString l.kind.name
  longest : ∀ l ∈ ls, l.StandsIn text

namespace Tiled

variable {p : Position} {ls : List Leaf} {x : Bytes}

/-- Each leaf has its place in the text. -/
theorem exists_split (h : Tiled p ls x) : ∀ l ∈ ls, ∃ y z, x = y ++ (l.text ++ z) ∧
    l.span = Span.of (p.after y) l.text ∧ ∀ b ∈ z.head?, l.EndsAt b := by
  induction h with
  | nil => nofun
  | @blank p b ls x hb h ih =>
    intro l hl
    obtain ⟨y, z, rfl, hspan, hz⟩ := ih l hl
    exact ⟨b :: y, z, rfl, hspan, hz⟩
  | @leaf p k ls x hp hw hx h ih =>
    refine List.forall_mem_cons.mpr ⟨⟨[], x, rfl, hp, hx⟩, fun l hl => ?_⟩
    obtain ⟨y, z, rfl, hspan, hz⟩ := ih l hl
    refine ⟨k.text ++ y, z, (List.append_assoc k.text y _).symm, ?_, hz⟩
    rw [hspan, Position.after_append]

theorem start_le (h : Tiled p ls x) : ∀ l ∈ ls, p.byte ≤ l.span.start.byte := by
  intro l hl
  obtain ⟨y, z, -, hspan, -⟩ := h.exists_split l hl
  have hstart : l.span.start.byte = p.byte + y.length := by
    rw [hspan, ← Position.byte_after]
    rfl
  omega

theorem start_lt_stop (h : Tiled p ls x) : ∀ l ∈ ls, l.span.start.byte < l.span.stop.byte := by
  intro l hl
  obtain ⟨y, z, -, hspan, -⟩ := h.exists_split l hl
  have hlength : 0 < l.text.length := List.length_pos_iff.mpr (h.spelled l hl).ne_nil
  have hstop : l.span.stop.byte = l.span.start.byte + l.text.length := by
    rw [hspan]
    exact Position.byte_after _ _
  omega

theorem increasing (h : Tiled p ls x) :
    ls.Pairwise fun l m => l.span.stop.byte ≤ m.span.start.byte := by
  induction h with
  | nil => exact .nil
  | blank _ _ ih => exact ih
  | @leaf p l ls x hp hw hx h ih =>
    refine List.pairwise_cons.mpr ⟨fun m hm => ?_, ih⟩
    rw [hp]
    exact h.start_le m hm

/-- What belongs to no leaf is blank. -/
theorem isBlank_of_not_covers (h : Tiled p ls x) : ∀ {i : Nat} {b : UInt8}, x[i]? = some b →
    (∀ l ∈ ls, ¬ l.Covers (p.byte + i)) → Byte.isBlank b = true := by
  induction h with
  | nil => nofun
  | @blank p c ls x hc h ih =>
    intro i b hi hcover
    cases i with
    | zero =>
      cases hi
      exact hc
    | succ i =>
      refine ih hi fun l hl => ?_
      rw [Position.byte_next, Nat.add_assoc, Nat.add_comm 1 i]
      exact hcover l hl
  | @leaf p l ls x hp hw hx h ih =>
    intro i b hi hcover
    have hstop : l.span.stop.byte = p.byte + l.text.length := by
      rw [hp]
      exact Position.byte_after _ _
    have hstart : l.span.start = p := by rw [hp]; rfl
    have hle : l.text.length ≤ i := by
      refine Nat.le_of_not_lt fun hlt => hcover l List.mem_cons_self ⟨?_, ?_⟩
      · rw [hstart]
        omega
      · omega
    rw [List.getElem?_append_right hle] at hi
    refine ih hi fun m hm => ?_
    have hsum : (p.after l.text).byte + (i - l.text.length) = p.byte + i := by
      rw [Position.byte_after]
      omega
    rw [hsum]
    exact hcover m (List.mem_cons_of_mem l hm)

end Tiled

/-- A text behind a byte order mark or none is taken apart by its leaves. -/
theorem lossless_of_tiled {mark x : Bytes} {ls : List Leaf}
    (hm : mark = [] ∨ mark = byteOrderMark) (h : Tiled (Position.start.after mark) ls x) :
    Lossless (mark ++ x) ls where
  nonempty := h.start_lt_stop
  increasing := h.increasing
  spelled := h.spelled
  anonymous l hl := Leaf.text_of_anonymous (h.spelled l hl)
  longest l hl := by
    obtain ⟨y, z, rfl, hspan, hz⟩ := h.exists_split l hl
    refine ⟨mark ++ y, z, (List.append_assoc mark y _).symm, ?_, hz⟩
    rw [hspan, Position.after_append]
  between i b hi hcover := by
    by_cases hlt : i < mark.length
    · right
      rcases hm with rfl | rfl
      · cases hlt
      · exact ⟨hlt, List.isPrefixOf_iff_prefix.mpr (List.prefix_append _ x)⟩
    · left
      have hle : mark.length ≤ i := Nat.le_of_not_lt hlt
      rw [List.getElem?_append_right hle] at hi
      refine h.isBlank_of_not_covers hi ?_
      rwa [Position.byte_start_after, Nat.add_sub_cancel' hle]

/-- What is made by a rule has children, but for a file without any. -/
theorem SourceFile.exists_leaf {s : SourceFile} {u : Tree} (h : u.Within s.tree)
    (hc : u.children = []) : u = s.tree ∨ ∃ l, u.leaf? = some l := by
  rcases SourceFile.of_within (s.functions.every_hasParts none) h with rfl | ⟨c, rfl⟩ | ⟨n, hn, rfl⟩
  · exact .inl rfl
  · exact .inr ⟨.comment c, rfl⟩
  · cases n with
    | token f t a => exact .inr ⟨.token t a.text a.span, rfl⟩
    | rule f r ns =>
      cases ns with
      | nil => exact ((Node.every_rule.mp hn).1 rfl).elim
      | cons n ns => cases hc

/-- The leaves of the tree of a program take its text apart, and what has no children in it is one
of them, but for a file without any. -/
theorem parseTree_lossless {text : Bytes} {t : Tree} (h : parseTree text = .ok t) :
    Lossless text t.fringe ∧
      ∀ u : Tree, u.Within t → u.children = [] → u = t ∨ ∃ l, u.leaf? = some l := by
  obtain ⟨s, hs, rfl⟩ := parse_of_parseTree h
  obtain ⟨mark, x, rfl, hm, hx⟩ := tiled_of_parse hs
  rw [s.fringe_tree]
  exact ⟨lossless_of_tiled hm hx, fun u hu hc => SourceFile.exists_leaf hu hc⟩

/-- A mark, comments of both kinds, and operators that begin longer ones. -/
theorem parseTree_lossless_marked :
    ∃ t, parseTree (byteOrderMark ++ Bytes.ofString "fn f()->i32\x7b1-2</*a*/3//b\n\x7d") = .ok t ∧
      Lossless (byteOrderMark ++ Bytes.ofString "fn f()->i32\x7b1-2</*a*/3//b\n\x7d") t.fringe := by
  obtain ⟨t, ht⟩ : ∃ t, parseTree (byteOrderMark ++
      Bytes.ofString "fn f()->i32\x7b1-2</*a*/3//b\n\x7d") = .ok t :=
    exists_parseTree (by decide +kernel)
  exact ⟨t, ht, (parseTree_lossless ht).1⟩

end RueSyntax
