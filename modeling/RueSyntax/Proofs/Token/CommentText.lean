import RueSyntax.Token.Comment

/-!
# The texts of comments

`k.HasText w` says that `w` is a comment of the kind `k`, and `k.EndsBefore y` that it ends where
`y` follows.  Together they are what `Comment.opening` looks for (`opening_of_hasText`,
`hasText_of_opening`).
-/

namespace RueSyntax

namespace Comment

/-- What may stand between the two ends of a block comment: no NUL, and nothing that ends it. -/
def IsBlockBody (body : Bytes) : Prop := 0 ∉ body ∧ ¬ [42, 47] <:+: body ++ [42]

/-- What may stand behind the two slashes of a line comment. -/
def IsLineBody (body : Bytes) : Prop := 0 ∉ body ∧ Byte.newline ∉ body

instance : DecidablePred IsBlockBody := fun body =>
  inferInstanceAs (Decidable (0 ∉ body ∧ ¬ [42, 47] <:+: body ++ [42]))

instance : DecidablePred IsLineBody := fun body =>
  inferInstanceAs (Decidable (0 ∉ body ∧ Byte.newline ∉ body))

end Comment

namespace CommentKind

/-- The texts of a kind of comment. -/
def HasText : CommentKind → Bytes → Prop
  | line, w => ∃ body, w = 47 :: 47 :: body ∧ Comment.IsLineBody body
  | block, w => ∃ body, w = 47 :: 42 :: (body ++ [42, 47]) ∧ Comment.IsBlockBody body

/-- A line comment runs up to a line feed, a NUL or the end of the text. -/
def EndsBefore : CommentKind → Bytes → Prop
  | line, y => ∀ b ∈ y.head?, b = Byte.newline ∨ b = 0
  | block, _ => True

end CommentKind

namespace Comment

theorem lineLength_append {body y : Bytes} (hb : IsLineBody body)
    (hy : CommentKind.line.EndsBefore y) (n : Nat) :
    lineLength n (body ++ y) = n + body.length := by
  induction body generalizing n with
  | nil =>
    cases y with
    | nil => rfl
    | cons b y =>
      have hb : (b == Byte.newline || b == 0) = true := by
        rcases hy b rfl with rfl | rfl <;> rfl
      rw [List.nil_append, lineLength, if_pos hb]
      rfl
  | cons b body ih =>
    obtain ⟨h0, hn⟩ := hb
    have hb0 : b ≠ 0 := fun h => h0 (by simp [h])
    have hbn : b ≠ Byte.newline := fun h => hn (by simp [h])
    have hb : ¬ (b == Byte.newline || b == 0) = true := by simp [hb0, hbn]
    have hbody : IsLineBody body :=
      ⟨fun h => h0 (List.mem_cons_of_mem b h), fun h => hn (List.mem_cons_of_mem b h)⟩
    rw [List.cons_append, lineLength, if_neg hb, ih hbody, List.length_cons]
    omega

theorem lineLength_split (n : Nat) (bs : Bytes) :
    ∃ body y, bs = body ++ y ∧ lineLength n bs = n + body.length ∧ IsLineBody body ∧
      CommentKind.line.EndsBefore y := by
  induction bs generalizing n with
  | nil => exact ⟨[], [], rfl, rfl, ⟨by simp, by simp⟩, nofun⟩
  | cons b bs ih =>
    by_cases hb : (b == Byte.newline || b == 0) = true
    · refine ⟨[], b :: bs, rfl, ?_, ⟨by simp, by simp⟩, ?_⟩
      · rw [lineLength, if_pos hb]
        rfl
      · intro c hc
        cases hc
        simpa using hb
    · obtain ⟨body, y, rfl, hl, ⟨h0, hn⟩, hy⟩ := ih (n + 1)
      have hb' : b ≠ Byte.newline ∧ b ≠ 0 := by simpa using hb
      refine ⟨b :: body, y, rfl, ?_, ⟨?_, ?_⟩, hy⟩
      · rw [lineLength, if_neg hb, hl, List.length_cons]
        omega
      · simpa [hb'.2.symm] using h0
      · simpa [hb'.1.symm] using hn

/-- One byte of a block comment that does not close it. -/
theorem blockLength_cons {b : UInt8} {bs : Bytes} (h : ∀ y, b :: bs ≠ 42 :: 47 :: y) (n : Nat) :
    blockLength n (b :: bs) = if b == 0 then none else blockLength (n + 1) bs := by
  rw [blockLength]
  intro y hb hy
  exact h y (by rw [hb, hy])

theorem blockLength_append {body : Bytes} (hb : IsBlockBody body) (y : Bytes) (n : Nat) :
    blockLength n (body ++ 42 :: 47 :: y) = some (n + body.length + 2) := by
  induction body generalizing n with
  | nil => rfl
  | cons b body ih =>
    obtain ⟨h0, hi⟩ := hb
    have hb0 : b ≠ 0 := fun h => h0 (by simp [h])
    have hbody : IsBlockBody body :=
      ⟨fun h => h0 (List.mem_cons_of_mem b h), fun h => hi (h.trans (List.suffix_cons b _).isInfix)⟩
    have hne : ∀ z, b :: (body ++ 42 :: 47 :: y) ≠ 42 :: 47 :: z := by
      intro z hz
      obtain ⟨rfl, hz⟩ := List.cons.inj hz
      cases body with
      | nil => simp at hz
      | cons c body =>
        rw [List.cons_append] at hz
        obtain ⟨-, hz⟩ := List.cons.inj hz
        obtain ⟨hc, -⟩ := List.cons.inj hz
        exact hi ⟨[], body ++ [42], by simp [hc]⟩
    rw [List.cons_append, blockLength_cons hne, if_neg (by simp [hb0]), ih hbody, List.length_cons]
    congr 1
    omega

theorem blockLength_split {n m : Nat} {bs : Bytes} (h : blockLength n bs = some m) :
    ∃ body y, bs = body ++ 42 :: 47 :: y ∧ m = n + body.length + 2 ∧ IsBlockBody body := by
  induction bs generalizing n with
  | nil => simp [blockLength] at h
  | cons b bs ih =>
    by_cases hc : ∃ y, b :: bs = 42 :: 47 :: y
    · obtain ⟨y, hy⟩ := hc
      rw [hy, blockLength] at h
      refine ⟨[], y, hy, by simpa using h.symm, ⟨by simp, ?_⟩⟩
      intro hi
      have := hi.length_le
      simp at this
    · have hne : ∀ y, b :: bs ≠ 42 :: 47 :: y := fun y hy => hc ⟨y, hy⟩
      rw [blockLength_cons hne] at h
      by_cases hb : (b == 0) = true
      · rw [if_pos hb] at h
        cases h
      · rw [if_neg hb] at h
        obtain ⟨body, y, rfl, hm, h0, hi⟩ := ih h
        refine ⟨b :: body, y, rfl, ?_, ?_, ?_⟩
        · rw [hm, List.length_cons]
          omega
        · have hb0 : b ≠ 0 := by simpa using hb
          simpa [hb0.symm] using h0
        · rw [List.cons_append, List.infix_cons_iff]
          rintro (hp | hs)
          · cases body with
            | nil =>
              obtain ⟨z, hz⟩ := hp
              simp at hz
            | cons c body =>
              obtain ⟨z, hz⟩ := hp
              obtain ⟨hb, hz⟩ := List.cons.inj hz
              obtain ⟨hc, -⟩ := List.cons.inj hz
              exact hne _ (by rw [← hb, List.cons_append, ← hc])
          · exact hi hs

theorem opening_of_hasText {k : CommentKind} {w y : Bytes} (hw : k.HasText w)
    (hy : k.EndsBefore y) : opening (w ++ y) = some (k, w.length) := by
  cases k with
  | line =>
    obtain ⟨body, rfl, hb⟩ := hw
    have h := lineLength_append hb hy 2
    simp only [List.cons_append, opening, h, List.length_cons]
    congr 2
    omega
  | block =>
    obtain ⟨body, rfl, hb⟩ := hw
    have h := blockLength_append hb y 2
    simp only [List.cons_append, List.append_assoc, List.nil_append, opening, h,
      Option.map_some, List.length_cons, List.length_append, List.length_nil]
    congr 2
    omega

theorem hasText_of_opening {bs : Bytes} {k : CommentKind} {n : Nat}
    (h : opening bs = some (k, n)) :
    ∃ w y, bs = w ++ y ∧ w.length = n ∧ k.HasText w ∧ k.EndsBefore y := by
  unfold opening at h
  split at h
  · next bs =>
    obtain ⟨body, y, rfl, hl, hb, hy⟩ := lineLength_split 2 bs
    rw [hl] at h
    cases h
    refine ⟨47 :: 47 :: body, y, rfl, ?_, ⟨body, rfl, hb⟩, hy⟩
    rw [List.length_cons, List.length_cons]
    omega
  · next bs =>
    obtain ⟨m, hm, h⟩ := Option.map_eq_some_iff.mp h
    cases h
    obtain ⟨body, y, rfl, rfl, hb⟩ := blockLength_split hm
    refine ⟨47 :: 42 :: (body ++ [42, 47]), y, by simp, ?_, ⟨body, rfl, hb⟩, trivial⟩
    simp only [List.length_cons, List.length_append, List.length_nil]
    omega
  · cases h

end Comment

end RueSyntax
