import RueSyntax.Proofs.Reader.Renaming

/-!
# A text with parentheses in it

`Laid y ls x` says that the text `x`, behind which `y` follows, consists of the leaves `ls` with
blanks between them, wherever it stands.  What is laid out so may be taken apart at a leaf
(`Tiled.split`) and put together again around something else (`Laid.append`), as long as no leaf
goes on there.  A parenthesis may be put before any leaf and behind any token, because no token goes
on with one and no line comment ends before a leaf (`Tiled.enclose`).
-/

namespace RueSyntax

/-- The text of a mark. -/
def Mark.text (m : Mark) : Bytes := Bytes.ofString m.spelling

/-- A mark by itself. -/
def Leaf.mark (m : Mark) : Leaf := token (.mark m) m.text default

/-- What ends before the text `x` ends before `y` as well. -/
def EndsAlike (x y : Bytes) : Prop :=
  ∀ k : Leaf, (∀ b ∈ x.head?, k.EndsAt b) → ∀ b ∈ y.head?, k.EndsAt b

/-- The text consists of the leaves and of blanks, and no leaf could be longer before `y`. -/
inductive Laid (y : Bytes) : List Leaf → Bytes → Prop
  | nil : Laid y [] []
  | blank {b : UInt8} {ls : List Leaf} {x : Bytes} (hb : Byte.isBlank b = true)
    (h : Laid y ls x) : Laid y ls (b :: x)
  | leaf {l : Leaf} {ls : List Leaf} {x : Bytes} (hw : l.Spelled)
    (hx : ∀ b ∈ (x ++ y).head?, l.EndsAt b) (h : Laid y ls x) : Laid y (l :: ls) (l.text ++ x)

namespace Terminal

/-- No text of a token goes on with a parenthesis. -/
theorem endsAt_paren (t : Terminal) : t.EndsAt 40 ∧ t.EndsAt 41 := by
  cases t with
  | mark m => cases m <;> simp [EndsAt]
  | operator o => cases o <;> simp [EndsAt]
  | _ => simp +decide [EndsAt]

end Terminal

theorem Leaf.endsAt_closeParen {l : Leaf} (h : l.comment? = none) : l.EndsAt 41 := by
  cases l with
  | token t w s => exact t.endsAt_paren.2
  | comment c => cases h

namespace EndsAlike

variable {x y z : Bytes} {l : Leaf}

/-- Before a leaf there is no line comment that goes on to it, so a parenthesis may stand there. -/
theorem openParen (hl : l.Spelled) : EndsAlike (l.text ++ x) (Mark.openParen.text ++ y) := by
  rintro k h b ⟨⟩
  cases k with
  | token t w s => exact t.endsAt_paren.1
  | comment c =>
    obtain ⟨kind, w, s⟩ := c
    cases kind with
    | block => trivial
    | line =>
      obtain ⟨a, v, hv, -, hblank⟩ := hl.exists_head
      rw [hv] at h
      obtain rfl : a = Byte.newline := h a rfl
      cases hblank

theorem of_leaf (hl : l.Spelled) : EndsAlike (l.text ++ x) (l.text ++ y) := by
  obtain ⟨a, v, hv, -⟩ := hl.exists_head
  rw [hv]
  exact fun k h => h

/-- The same text in front of both decides, unless it is empty. -/
theorem append_left (h : EndsAlike x y) (z : Bytes) : EndsAlike (z ++ x) (z ++ y) := by
  cases z with
  | nil => exact h
  | cons a z => exact fun k h => h

end EndsAlike

namespace Laid

variable {y z : Bytes} {ls ms : List Leaf} {x : Bytes}

/-- The leaves may stand before another text if they end there. -/
theorem alike (h : Laid y ls x) (hy : EndsAlike y z) : Laid z ls x := by
  induction h with
  | nil => exact .nil
  | blank hb _ ih => exact .blank hb ih
  | @leaf l ls x hw hx _ ih => exact .leaf hw (hy.append_left x l hx) ih

theorem append (h : Laid (x ++ y) ls z) (hx : Laid y ms x) : Laid y (ls ++ ms) (z ++ x) := by
  induction h with
  | nil => exact hx
  | blank hb _ ih => exact .blank hb ih
  | @leaf l ls z hw hz _ ih =>
    rw [List.append_assoc]
    refine .leaf hw ?_ ih
    rwa [List.append_assoc]

/-- What is laid out may stand at any place. -/
theorem tiled (h : Laid [] ls x) (p : Position) :
    ∃ ls', Tiled p ls' x ∧ ls'.map Leaf.unplaced = ls.map Leaf.unplaced := by
  induction h generalizing p with
  | nil => exact ⟨[], .nil p, rfl⟩
  | @blank b ls x hb _ ih =>
    obtain ⟨ls', htiled, hls⟩ := ih (p.next b)
    exact ⟨ls', .blank hb htiled, hls⟩
  | @leaf l ls x hw hx _ ih =>
    obtain ⟨ls', htiled, hls⟩ := ih (p.after l.text)
    rw [List.append_nil] at hx
    have hplace : Tiled p (l.place p :: ls') ((l.place p).text ++ x) := by
      refine .leaf ?_ (Leaf.spelled_place.mpr hw)
        (fun b hb => Leaf.endsAt_place.mpr (hx b hb)) ?_
      · rw [Leaf.span_place, Leaf.text_place]
      · rwa [Leaf.text_place]
    rw [Leaf.text_place] at hplace
    exact ⟨_, hplace, by rw [List.map_cons, List.map_cons, hls, Leaf.unplaced_place]⟩

end Laid

namespace Tiled

variable {p : Position} {ls ms : List Leaf} {l first last : Leaf} {x : Bytes}

theorem laid (h : Tiled p ls x) : Laid [] ls x := by
  induction h with
  | nil => exact .nil
  | blank hb _ ih => exact .blank hb ih
  | @leaf p l ls x _ hw hx _ ih => exact .leaf hw (by rwa [List.append_nil]) ih

/-- A text is taken apart at one of its leaves. -/
theorem split (h : Tiled p (ls ++ l :: ms) x) : ∃ y z, x = y ++ (l.text ++ z) ∧
    Laid (l.text ++ z) ls y ∧ l.Spelled ∧ l.span = Span.of (p.after y) l.text ∧
    Tiled (p.after y) (l :: ms) (l.text ++ z) ∧ Laid [] ms z := by
  generalize hks : ls ++ l :: ms = ks at h
  induction h generalizing ls with
  | nil => cases ls <;> cases hks
  | @blank p b ks x hb h ih =>
    obtain ⟨y, z, rfl, hy, hl, hspan, htiled, hz⟩ := ih hks
    exact ⟨b :: y, z, rfl, .blank hb hy, hl, hspan, htiled, hz⟩
  | @leaf p k ks x hp hw hx h ih =>
    cases ls with
    | nil =>
      obtain ⟨rfl, rfl⟩ := List.cons.inj hks
      exact ⟨[], x, rfl, .nil, hw, hp, .leaf hp hw hx h, h.laid⟩
    | cons a ls =>
      obtain ⟨rfl, htail⟩ := List.cons.inj hks
      obtain ⟨y, z, rfl, hy, hl, hspan, htiled, hz⟩ := ih htail
      refine ⟨a.text ++ y, z, (List.append_assoc _ _ _).symm, .leaf hw hx hy, hl, ?_, ?_, hz⟩
      · rw [hspan, Position.after_append]
      · rwa [Position.after_append]

/-- Parentheses may be put before a leaf and behind a token. -/
theorem enclose {ks : List Leaf} (h : Tiled p (ls ++ (ks ++ ms)) x) (hfirst : first ∈ ks.head?)
    (hlast : last ∈ ks.getLast?) (htoken : last.comment? = none) :
    ∃ y w z, x = y ++ (w ++ z) ∧ first.span.start = p.after y ∧
      last.span.stop = p.after (y ++ w) ∧
      Laid [] (ls ++ .mark .openParen :: (ks ++ .mark .closeParen :: ms))
        (y ++ (Mark.openParen.text ++ (w ++ (Mark.closeParen.text ++ z)))) := by
  obtain ⟨rest, hrest⟩ := List.head?_eq_some_iff.mp hfirst
  obtain ⟨init, hinit⟩ := List.getLast?_eq_some_iff.mp hlast
  have hks : first :: (rest ++ ms) = init ++ last :: ms := by
    rw [← List.cons_append, ← hrest, hinit, List.append_assoc, List.singleton_append]
  rw [hrest, List.cons_append] at h
  obtain ⟨y, v, rfl, hy, hspelled, hspan, htiled, -⟩ := h.split
  rw [hks] at htiled
  obtain ⟨u, z, hv, hu, hspelled', hspan', -, hz⟩ := htiled.split
  have hclose : Laid [] (.mark .closeParen :: ms) (Mark.closeParen.text ++ z) :=
    .leaf (l := .mark .closeParen) rfl (fun _ _ => trivial) hz
  have hend : Laid [] (last :: .mark .closeParen :: ms)
      (last.text ++ (Mark.closeParen.text ++ z)) := by
    refine .leaf hspelled' ?_ hclose
    rintro b ⟨⟩
    exact Leaf.endsAt_closeParen htoken
  have hinner : Laid [] (ks ++ .mark .closeParen :: ms)
      (u ++ (last.text ++ (Mark.closeParen.text ++ z))) := by
    rw [hinit, List.append_assoc]
    refine .append (hu.alike ?_) hend
    rw [List.append_nil]
    exact .of_leaf hspelled'
  have hopen : Laid [] (.mark .openParen :: (ks ++ .mark .closeParen :: ms))
      (Mark.openParen.text ++ (u ++ (last.text ++ (Mark.closeParen.text ++ z)))) :=
    .leaf (l := .mark .openParen) rfl (fun _ _ => trivial) hinner
  refine ⟨y, u ++ last.text, z, ?_, ?_, ?_, ?_⟩
  · rw [hv, List.append_assoc]
  · rw [hspan]
    rfl
  · rw [hspan', Position.after_append, Position.after_append]
    rfl
  · rw [List.append_assoc]
    refine .append (hy.alike ?_) hopen
    rw [List.append_nil]
    exact .openParen hspelled

end Tiled

end RueSyntax
