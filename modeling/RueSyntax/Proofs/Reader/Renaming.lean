import RueSyntax.Proofs.Reader.Leaves

/-!
# A text with other names in it

A renaming gives a new name for each identifier, by the byte at which it begins.  If the text of
each identifier is replaced, what comes of it is again made of leaves, which are the old ones but
for the names and the places (`Tiled.rename`): a name ends before the same bytes as another, and
what ends before a name ends before all of them.  A text is made of leaves in one way only if the
kinds of the tokens are known (`Tiled.unique`).
-/

namespace RueSyntax

/-- A text of the shape of a name. -/
structure Name where
  text : Bytes
  isName : Terminal.IsName text

/-- Every keyword has the shape of a name. -/
def Keyword.toName (k : Keyword) : Name := ⟨Bytes.ofString k.spelling, by cases k <;> decide⟩

/-- The text of a token, or the new name for its place if the token is an identifier. -/
def Terminal.newText (ρ : Nat → Name) (t : Terminal) (w : Bytes) (s : Span) : Bytes :=
  if t = .identifier then (ρ s.start.byte).text else w

/-- The comment without its place. -/
def Comment.unplaced (c : Comment) : Comment := { c with span := default }

namespace Leaf

/-- The leaf without its place. -/
def unplaced : Leaf → Leaf
  | token t w _ => token t w default
  | comment c => comment c.unplaced

/-- The leaf at the place where its text begins at `p`. -/
def place (p : Position) : Leaf → Leaf
  | token t w _ => token t w (Span.of p w)
  | comment c => comment { c with span := Span.of p c.text }

theorem text_place (p : Position) (l : Leaf) : (l.place p).text = l.text := by
  cases l <;> rfl

theorem span_place (p : Position) (l : Leaf) : (l.place p).span = Span.of p l.text := by
  cases l <;> rfl

theorem spelled_place {p : Position} {l : Leaf} : (l.place p).Spelled ↔ l.Spelled := by
  cases l <;> exact Iff.rfl

theorem endsAt_place {p : Position} {l : Leaf} {b : UInt8} : (l.place p).EndsAt b ↔ l.EndsAt b := by
  cases l <;> exact Iff.rfl

theorem unplaced_place (p : Position) (l : Leaf) : (l.place p).unplaced = l.unplaced := by
  cases l <;> rfl

/-- The tokens among leaves have their texts at any place. -/
theorem filterMap_unplaced (ls : List Leaf) :
    (ls.map unplaced).filterMap token? = ls.filterMap token? := by
  have htoken : ∀ l : Leaf, l.unplaced.token? = l.token? := fun l => by cases l <;> rfl
  rw [List.filterMap_map]
  exact congrArg (List.filterMap · ls) (funext htoken)

section

variable (ρ : Nat → Name)

/-- The leaf with the new name for its place, if it is an identifier. -/
def rename : Leaf → Leaf
  | token t w s => token t (t.newText ρ w s) s
  | comment c => comment c

/-- The text `x` with the new name in the place of the leaf. -/
def replace (l : Leaf) (x : Bytes) : Bytes :=
  x.take l.span.start.byte ++ ((l.rename ρ).text ++ x.drop l.span.stop.byte)

end

variable {ρ : Nat → Name} {l : Leaf} {b c : UInt8}

/-- A leaf keeps its text or is a name. -/
theorem text_rename (ρ : Nat → Name) (l : Leaf) : (l.rename ρ).text = l.text ∨
    ∃ w s, l = token .identifier w s ∧ (l.rename ρ).text = (ρ s.start.byte).text := by
  cases l with
  | comment c => exact .inl rfl
  | token t w s =>
    by_cases ht : t = .identifier
    · exact .inr ⟨w, s, by rw [ht], if_pos ht⟩
    · exact .inl (if_neg ht)

theorem spelled_rename (h : l.Spelled) : (l.rename ρ).Spelled := by
  cases l with
  | comment c => exact h
  | token t w s =>
    show t.HasText (t.newText ρ w s)
    unfold Terminal.newText
    split
    · next ht =>
      subst ht
      exact (ρ s.start.byte).isName
    · exact h

/-- What may stand behind a name may stand behind another. -/
theorem endsAt_rename (h : l.EndsAt b) : (l.rename ρ).EndsAt b := by
  cases l <;> exact h

/-- What may stand before a name may stand before another. -/
theorem EndsAt.of_isLetter (h : l.EndsAt b) (hb : Byte.isLetter b = true)
    (hc : Byte.isLetter c = true) : l.EndsAt c := by
  have hne : ∀ d, Byte.isLetter d = false → c ≠ d := by
    rintro d hd rfl
    cases hd.symm.trans hc
  have hword : Byte.isWord b ≠ false := by
    rw [Byte.isWord_of_isLetter hb]
    decide
  cases l with
  | comment d =>
    obtain ⟨kind, w, s⟩ := d
    cases kind with
    | line =>
      obtain rfl : b = Byte.newline := h
      cases hb
    | block => trivial
  | token t w s =>
    cases t with
    | word k => exact (hword h).elim
    | identifier => exact (hword h).elim
    | integer =>
      show Byte.isDigit c = false
      cases hd : Byte.isDigit c with
      | false => rfl
      | true => cases (Byte.isLetter_of_isDigit hd).symm.trans hc
    | unitType => trivial
    | mark m =>
      cases m with
      | equals => exact hne 61 rfl
      | _ => trivial
    | operator o =>
      cases o with
      | less => exact hne 61 rfl
      | greater => exact hne 61 rfl
      | minus => exact hne 62 rfl
      | divide => exact ⟨hne 47 rfl, hne 42 rfl⟩
      | _ => trivial

/-- Whatever ends before a leaf ends before it when it is renamed. -/
theorem endsAt_head_rename {k : Leaf} {x y : Bytes} (hl : l.Spelled)
    (h : ∀ b ∈ (l.text ++ x).head?, k.EndsAt b) :
    ∀ b ∈ ((l.rename ρ).text ++ y).head?, k.EndsAt b := by
  rcases text_rename ρ l with htext | ⟨w, s, rfl, htext⟩
  · obtain ⟨b, w, hw⟩ := List.exists_cons_of_ne_nil hl.ne_nil
    rw [htext, hw]
    rw [hw] at h
    exact h
  · obtain ⟨⟨b, hb, hletter⟩, -⟩ : Terminal.IsName w := hl
    obtain ⟨⟨c, hc, hletter'⟩, -⟩ := (ρ s.start.byte).isName
    obtain ⟨w', rfl⟩ := List.head?_eq_some_iff.mp hb
    obtain ⟨v, hv⟩ := List.head?_eq_some_iff.mp hc
    have hk : k.EndsAt c := (h b rfl).of_isLetter hletter hletter'
    rw [htext, hv]
    rintro d ⟨⟩
    exact hk

theorem replace_of_place {p : Position} {w x : Bytes} (hl : l.span = Span.of p l.text)
    (hw : w.length = p.byte) :
    l.replace ρ ((w ++ l.text) ++ x) = w ++ ((l.rename ρ).text ++ x) := by
  have hstart : l.span.start.byte = w.length := by rw [hl, hw]; rfl
  have hstop : l.span.stop.byte = (w ++ l.text).length := by
    rw [hl, List.length_append, hw]
    exact Position.byte_after p l.text
  rw [replace, hstop, List.drop_left, hstart, List.append_assoc, List.take_left]

end Leaf

/-- The leaves `ls'` are `ls` with new names, at places of their own. -/
def Renamed (ρ : Nat → Name) (ls ls' : List Leaf) : Prop :=
  ls'.map Leaf.unplaced = ls.map fun l => (l.rename ρ).unplaced

/-- The text with all names replaced. -/
def renameText (ρ : Nat → Name) (ls : List Leaf) (text : Bytes) : Bytes :=
  ls.foldr (Leaf.replace ρ) text

namespace Tiled

/-- If the names in a text are replaced, it is made of the leaves with other names. -/
theorem rename (ρ : Nat → Name) {p : Position} {ls : List Leaf} {x : Bytes} (h : Tiled p ls x)
    (q : Position) : ∃ ls' x', Tiled q ls' x' ∧ Renamed ρ ls ls' ∧
      (∀ k : Leaf, (∀ b ∈ x.head?, k.EndsAt b) → ∀ b ∈ x'.head?, k.EndsAt b) ∧
      ∀ w : Bytes, w.length = p.byte → renameText ρ ls (w ++ x) = w ++ x' := by
  induction h generalizing q with
  | nil => exact ⟨[], [], .nil q, rfl, fun k h => h, fun w _ => rfl⟩
  | @blank p b ls x hb h ih =>
    obtain ⟨ls', x', htiled, hls, -, htext⟩ := ih (q.next b)
    refine ⟨ls', b :: x', .blank hb htiled, hls, fun k h => h, fun w hw => ?_⟩
    have hlength : (w ++ [b]).length = (p.next b).byte := by
      rw [Position.byte_next, ← hw]
      simp
    rw [List.append_cons, htext (w ++ [b]) hlength, ← List.append_cons]
  | @leaf p l ls x hspan hl hx h ih =>
    obtain ⟨ls', x', htiled, hls, hhead, htext⟩ := ih (q.after (l.rename ρ).text)
    have hplace : Tiled q ((l.rename ρ).place q :: ls') (((l.rename ρ).place q).text ++ x') := by
      refine .leaf ?_ (Leaf.spelled_place.mpr (Leaf.spelled_rename hl)) (fun b hb => ?_) ?_
      · rw [Leaf.span_place, Leaf.text_place]
      · exact Leaf.endsAt_place.mpr (Leaf.endsAt_rename (hhead l hx b hb))
      · rwa [Leaf.text_place]
    rw [Leaf.text_place] at hplace
    refine ⟨_, _, hplace, ?_, fun k hk => Leaf.endsAt_head_rename hl hk, fun w hw => ?_⟩
    · rw [Renamed, List.map_cons, List.map_cons, hls, Leaf.unplaced_place]
    · have hlength : (w ++ l.text).length = (p.after l.text).byte := by
        rw [Position.byte_after, ← hw, List.length_append]
      rw [renameText, List.foldr_cons, ← List.append_assoc, ← renameText, htext _ hlength,
        Leaf.replace_of_place hspan hw]

end Tiled

/-! ### One way only -/

namespace Leaf

variable {l l' : Leaf} {x x' : Bytes}

theorem Spelled.exists_head (h : l.Spelled) :
    ∃ b w, l.text = b :: w ∧ b < 128 ∧ Byte.isBlank b = false := by
  cases l with
  | token t w s =>
    obtain ⟨b, w', hw, -, hb⟩ := Terminal.head_of_hasText h
    exact ⟨b, w', hw, hb⟩
  | comment c =>
    obtain ⟨w', hw⟩ := Reader.head_of_comment h
    exact ⟨47, w', hw, by decide⟩

end Leaf

/-- A text of a terminal that cannot be longer is the only one. -/
theorem Terminal.text_unique {t : Terminal} {w w' x x' : Bytes} (hw : t.HasText w)
    (hw' : t.HasText w') (hx : ∀ b ∈ x.head?, t.EndsAt b) (hx' : ∀ b ∈ x'.head?, t.EndsAt b)
    (h : w ++ x = w' ++ x') : w = w' := by
  cases t with
  | identifier =>
    rw [← takeWhile_append_of_all hw.2 hx, h, takeWhile_append_of_all hw'.2 hx']
  | integer =>
    rw [← takeWhile_append_of_all hw.2 hx, h, takeWhile_append_of_all hw'.2 hx']
  | _ => exact Eq.trans hw hw'.symm

/-- Of two leaves at the head of a text, both are comments or both are tokens; comments are the
same, and so are tokens of one kind. -/
theorem Leaf.text_unique {l l' : Leaf} {x x' : Bytes} (hl : l.Spelled) (hl' : l'.Spelled)
    (hx : ∀ b ∈ x.head?, l.EndsAt b) (hx' : ∀ b ∈ x'.head?, l'.EndsAt b)
    (h : l.text ++ x = l'.text ++ x') :
    (∃ c c', l = .comment c ∧ l' = .comment c' ∧ c.kind = c'.kind ∧ c.text = c'.text) ∨
      ∃ t w s t' w' s', l = .token t w s ∧ l' = .token t' w' s' ∧ (t = t' → w = w') := by
  cases l with
  | comment c =>
    have hopen := Comment.opening_of_hasText hl (CommentKind.endsBefore_of_endsAt hx)
    cases l' with
    | comment c' =>
      have hopen' := Comment.opening_of_hasText hl' (CommentKind.endsBefore_of_endsAt hx')
      simp only [text] at h
      rw [h, hopen'] at hopen
      obtain ⟨hkind, hlength⟩ := Prod.mk.inj (Option.some.inj hopen)
      exact .inl ⟨c, c', rfl, rfl, hkind.symm, (List.append_inj h hlength.symm).1⟩
    | token t' w' s' =>
      have hnone := Reader.opening_of_token hl' (Terminal.endsBefore_of_endsAt hx')
      simp only [text] at h
      rw [h, hnone] at hopen
      cases hopen
  | token t w s =>
    cases l' with
    | comment c' =>
      have hopen := Comment.opening_of_hasText hl' (CommentKind.endsBefore_of_endsAt hx')
      have hnone := Reader.opening_of_token hl (Terminal.endsBefore_of_endsAt hx)
      simp only [text] at h
      rw [h, hopen] at hnone
      cases hnone
    | token t' w' s' =>
      refine .inr ⟨t, w, s, t', w', s', rfl, rfl, ?_⟩
      rintro rfl
      exact Terminal.text_unique hl hl' hx hx' h

namespace Tiled

variable {p p' : Position} {ls ls' : List Leaf} {x x' : Bytes}

theorem head_lt (h : Tiled p ls x) : ∀ b ∈ x.head?, b < 128 := by
  cases h with
  | nil => nofun
  | blank hb =>
    rintro b ⟨⟩
    exact Byte.lt_of_isBlank hb
  | leaf _ hw =>
    obtain ⟨b, w, hbw, hlt, -⟩ := hw.exists_head
    rw [hbw]
    rintro c ⟨⟩
    exact hlt

theorem of_nil (h : Tiled p ls []) : ls = [] := by
  generalize hx : [] = x at h
  cases h with
  | nil => rfl
  | blank => cases hx
  | leaf _ hw => exact (hw.ne_nil (List.append_eq_nil_iff.mp hx.symm).1).elim

theorem of_blank {b : UInt8} (h : Tiled p ls (b :: x)) (hb : Byte.isBlank b = true) :
    Tiled (p.next b) ls x := by
  generalize hx : b :: x = y at h
  cases h with
  | nil => cases hx
  | blank _ h =>
    cases hx
    exact h
  | leaf _ hw =>
    obtain ⟨c, w, hcw, -, hc⟩ := hw.exists_head
    rw [hcw] at hx
    obtain rfl := (List.cons.inj hx).1
    cases hb.symm.trans hc

/-- What begins with a leaf begins with a leaf in every way. -/
theorem of_leaf {l : Leaf} (hl : l.Spelled) (h : Tiled p ls (l.text ++ x)) :
    ∃ k ks y, ls = k :: ks ∧ l.text ++ x = k.text ++ y ∧ k.span = Span.of p k.text ∧ k.Spelled ∧
      (∀ b ∈ y.head?, k.EndsAt b) ∧ Tiled (p.after k.text) ks y := by
  obtain ⟨b, w, hbw, -, hb⟩ := hl.exists_head
  rw [hbw] at h ⊢
  generalize hx : b :: w ++ x = z at h ⊢
  cases h with
  | nil => cases hx
  | blank hb' =>
    cases hx
    cases hb'.symm.trans hb
  | @leaf _ k ks y hspan hk hy h => exact ⟨k, ks, y, rfl, rfl, hspan, hk, hy, h⟩

/-- The kinds of the tokens determine the leaves. -/
theorem unique (h : Tiled p ls x) (h' : Tiled p ls' x)
    (hk : (ls.filterMap Leaf.token?).map Prod.fst = (ls'.filterMap Leaf.token?).map Prod.fst) :
    ls = ls' := by
  induction h generalizing ls' with
  | nil => exact h'.of_nil.symm
  | blank hb _ ih => exact ih (h'.of_blank hb) hk
  | @leaf p l ls x hspan hl hx h ih =>
    obtain ⟨k, ks, y, rfl, htext, hspan', hk', hy, h'⟩ := h'.of_leaf hl
    rcases Leaf.text_unique hl hk' hx hy htext with ⟨c, c', rfl, rfl, hkind, hw⟩ |
      ⟨t, w, s, t', w', s', rfl, rfl, hw⟩
    · obtain ⟨kind, w, s⟩ := c
      obtain ⟨kind', w', s'⟩ := c'
      obtain rfl : kind = kind' := hkind
      obtain rfl : w = w' := hw
      obtain rfl : s = s' := hspan.trans hspan'.symm
      obtain rfl := List.append_cancel_left htext
      rw [ih h' hk]
    · obtain ⟨ht, hks⟩ := List.cons.inj hk
      obtain rfl : t = t' := ht
      obtain rfl : w = w' := hw rfl
      obtain rfl : s = s' := hspan.trans hspan'.symm
      obtain rfl := List.append_cancel_left htext
      rw [ih h' hks]

/-- Leaves do not begin with a byte order mark. -/
theorem mark_unique {mark mark' : Bytes} (hm : mark = [] ∨ mark = byteOrderMark)
    (hm' : mark' = [] ∨ mark' = byteOrderMark) (h : Tiled p ls x) (h' : Tiled p' ls' x')
    (heq : mark ++ x = mark' ++ x') : mark = mark' := by
  have hnot : ∀ {q : Position} {ks : List Leaf} {y z : Bytes}, Tiled q ks y →
      y ≠ byteOrderMark ++ z := by
    rintro q ks y z hy rfl
    exact absurd (hy.head_lt 0xEF rfl) (by decide)
  rcases hm with rfl | rfl <;> rcases hm' with rfl | rfl
  · rfl
  · exact (hnot h heq).elim
  · exact (hnot h' heq.symm).elim
  · rfl

end Tiled

end RueSyntax
