import RueSyntax.Proofs.Reader.Stop

/-!
# What is refused stays refused

A text is read up to a place where no piece begins, and then it makes no difference what stands
behind the text, as long as a line feed is between: every piece of the text ends where it did, and
the longer text has no piece at that place either (`Refuses.above_line`).  The one thing that could
still be completed from behind is the opening of a block comment, so the text must have none.

Only where the text is over and not yet a program can reading go on.  Then all that stands behind
the last token or comment is blank (`Reads.blank_behind`).
-/

namespace RueSyntax

/-- The two bytes that open a block comment stand nowhere in the text. -/
def NoBlock (text : Bytes) : Prop := ¬ Bytes.ofString "/*" <:+: text

instance : DecidablePred NoBlock := fun text =>
  inferInstanceAs (Decidable (¬ Bytes.ofString "/*" <:+: text))

namespace NoBlock

variable {x y : Bytes}

theorem right (h : NoBlock (x ++ y)) : NoBlock y :=
  fun ho => h (ho.trans (List.suffix_append x y).isInfix)

theorem star_ne (h : NoBlock (47 :: y)) : y.head? ≠ some 42 := by
  intro hy
  obtain ⟨y, rfl⟩ := List.head?_eq_some_iff.mp hy
  exact h ⟨[], y, rfl⟩

end NoBlock

/-! ### What ends before a line -/

/-- No text of a terminal has a line feed in it. -/
theorem Terminal.newline_not_mem {t : Terminal} {w : Bytes} (h : t.HasText w) :
    Byte.newline ∉ w := by
  have hword : (∀ b ∈ w, Byte.isWord b = true) → Byte.newline ∉ w :=
    fun hall hn => absurd (hall Byte.newline hn) (by decide)
  cases t with
  | word k => exact hword (isName_of_word h).2
  | identifier => exact hword h.2
  | integer => exact hword fun b hb => Byte.isWord_of_isDigit (h.2 b hb)
  | mark m =>
    subst h
    cases m <;> decide
  | operator o =>
    subst h
    cases o <;> decide
  | unitType =>
    subst h
    decide

/-- Behind a slash the next byte decides, as long as it is no star. -/
theorem Comment.opening_slash_iff {b : UInt8} {z : Bytes} (hb : b ≠ 42) :
    opening (47 :: b :: z) = none ↔ b ≠ 47 := by
  constructor
  · rintro h rfl
    cases h
  · intro hslash
    exact opening_slash (fun h => hslash (Option.some.inj h)) fun h => hb (Option.some.inj h)

/-- A text of a terminal that opens no comment ends above a line where it ends at all. -/
theorem Terminal.endsBefore_above_line {t : Terminal} {w y : Bytes} (hw : t.HasText w)
    (ho : NoBlock (w ++ y)) (c : Bytes) :
    t.EndsBefore (y ++ Byte.newline :: c) ↔ t.EndsBefore y := by
  cases y with
  | nil =>
    have hline : t.EndsBefore (Byte.newline :: c) := endsBefore_of_blank fun b hb => by
      cases hb
      rfl
    exact iff_of_true hline (endsBefore_of_blank nofun)
  | cons b y =>
    by_cases hd : t = .operator .divide
    · subst hd
      obtain rfl : w = [47] := hw
      have hstar : b ≠ 42 := fun hb => ho.star_ne (congrArg some hb)
      exact (Comment.opening_slash_iff hstar).trans (Comment.opening_slash_iff hstar).symm
    · exact ⟨fun h => h.of_head hd rfl, fun h => h.of_head hd rfl⟩

theorem CommentKind.endsBefore_above_line {k : CommentKind} {y : Bytes} (c : Bytes) :
    k.EndsBefore (y ++ Byte.newline :: c) ↔ k.EndsBefore y := by
  cases k with
  | line =>
    cases y with
    | nil =>
      have hline : CommentKind.line.EndsBefore (Byte.newline :: c) :=
        fun b hb => .inl (Option.some.inj hb).symm
      exact iff_of_true hline nofun
    | cons b y => exact Iff.rfl
  | block => exact Iff.rfl

/-- What has no line feed and stands in a text above a line stands in the text. -/
theorem prefix_of_above_line {w y z c : Bytes} (hw : Byte.newline ∉ w)
    (h : y ++ Byte.newline :: c = w ++ z) : ∃ v, y = w ++ v ∧ z = v ++ Byte.newline :: c := by
  rcases List.append_eq_append_iff.mp h with ⟨v, rfl, hv⟩ | ⟨v, rfl, hv⟩
  · cases v with
    | nil => exact ⟨[], by simp, by simpa using hv.symm⟩
    | cons b v =>
      obtain ⟨hb, -⟩ := List.cons.inj hv
      have hmem : Byte.newline ∈ y ++ b :: v := by simp [hb]
      exact (hw hmem).elim
  · exact ⟨v, rfl, hv⟩

namespace Reader

variable {r r' : Reader} {w x y : Bytes}

/-! ### Pieces above a line -/

/-- A piece of a text is a piece of it above any line. -/
theorem Piece.above_line (h : Piece r w y r') (ho : NoBlock (w ++ y)) (c : Bytes) :
    Piece r w (y ++ Byte.newline :: c) r' := by
  cases h with
  | blank hb => exact .blank hb
  | comment hw hy => exact .comment hw ((CommentKind.endsBefore_above_line c).mpr hy)
  | token hw hy ht hk => exact .token hw ((Terminal.endsBefore_above_line hw ho c).mpr hy) ht hk

/-- A piece at the head of a text above a line is a piece of the text. -/
theorem Piece.of_above_line {z c : Bytes} (h : Piece r w z r') (hy : y ≠ []) (ho : NoBlock y)
    (hz : y ++ Byte.newline :: c = w ++ z) : ∃ v, y = w ++ v ∧ Piece r w v r' := by
  cases h with
  | @blank b z hb =>
    obtain ⟨b', y, rfl⟩ := List.exists_cons_of_ne_nil hy
    obtain ⟨rfl, -⟩ := List.cons.inj hz
    exact ⟨y, rfl, .blank hb⟩
  | @comment kind w z hw hend =>
    have hline : Byte.newline ∉ w := by
      cases kind with
      | line =>
        obtain ⟨body, rfl, -, hn⟩ := hw
        simpa [Byte.newline] using hn
      | block =>
        -- the first two bytes would open a comment in the text itself
        obtain ⟨body, rfl, -⟩ := hw
        match y with
        | [] => exact (hy rfl).elim
        | [b] =>
          obtain ⟨-, hb⟩ := List.cons.inj hz
          cases (List.cons.inj hb).1
        | b :: b' :: y =>
          obtain ⟨rfl, hb⟩ := List.cons.inj hz
          obtain ⟨rfl, -⟩ := List.cons.inj hb
          exact (ho.star_ne rfl).elim
    obtain ⟨v, rfl, rfl⟩ := prefix_of_above_line hline hz
    exact ⟨v, rfl, .comment hw ((CommentKind.endsBefore_above_line c).mp hend)⟩
  | @token r1 t w z hw hend ht hk =>
    obtain ⟨v, rfl, rfl⟩ := prefix_of_above_line (Terminal.newline_not_mem hw) hz
    exact ⟨v, rfl, .token hw ((Terminal.endsBefore_above_line hw ho c).mp hend) ht hk⟩

theorem Reads.above_line (h : Reads r x y r') (ho : NoBlock (x ++ y)) (c : Bytes) :
    Reads r x (y ++ Byte.newline :: c) r' := by
  induction h with
  | nil => exact .nil _ _
  | @cons r r1 r2 w x y h hs ih =>
    rw [List.append_assoc] at ho
    have hpiece := h.above_line ho c
    rw [List.append_assoc] at hpiece
    exact .cons hpiece (ih ho.right)

/-! ### Where no piece begins -/

theorem Refuses.not_piece {z : Bytes} (h : r.Refuses (w ++ z)) : ¬ Piece r w z r' := by
  intro hp
  obtain ⟨b, bs, hbs, hb, hc⟩ := h
  cases hp with
  | blank hblank =>
    obtain ⟨rfl, -⟩ := List.cons.inj hbs
    rw [hblank] at hb
    cases hb
  | comment hw hy =>
    rw [consume_comment hw hy] at hc
    cases hc
  | token hw hy ht hk =>
    rw [consume_token hw hy ht hk] at hc
    cases hc

/-- A place where no piece begins is one above any line. -/
theorem Refuses.above_line (h : r.Refuses y) (ho : NoBlock y) (c : Bytes) :
    r.Refuses (y ++ Byte.newline :: c) := by
  have hy : y ≠ [] := by
    obtain ⟨b, bs, rfl, -⟩ := h
    exact List.cons_ne_nil b bs
  have hne : y ++ Byte.newline :: c ≠ [] := List.append_ne_nil_of_left_ne_nil hy _
  rcases exists_piece r hne with ⟨w, z, r', hz, hp⟩ | hrefuses
  · obtain ⟨v, rfl, hv⟩ := hp.of_above_line hy ho hz
    exact (h.not_piece hv).elim
  · exact hrefuses

/-! ### Behind the last token or comment -/

/-- A text that is read ends in the last token or comment or in blanks behind it. -/
theorem Reads.blank_behind (h : Reads r x y r') :
    ∃ v z, x = v ++ z ∧ (∀ b ∈ z, Byte.isBlank b = true) ∧
      (v = [] ∧ r'.consumed = r.consumed ∨ r'.consumed = r.here.after v) := by
  induction h with
  | nil => exact ⟨[], [], rfl, nofun, .inl ⟨rfl, rfl⟩⟩
  | @cons r r1 r2 w x y h hs ih =>
    obtain ⟨v, z, rfl, hz, hv⟩ := ih
    have hbehind : r2.consumed = r1.here.after v → r2.consumed = r.here.after (w ++ v) := by
      intro hco
      rw [hco, h.here, Position.after_append]
    rcases hv with ⟨rfl, hco⟩ | hco
    · -- only blanks behind this piece
      cases h with
      | @blank b _ hb => exact ⟨[], b :: z, rfl, List.forall_mem_cons.mpr ⟨hb, hz⟩, .inl ⟨rfl, hco⟩⟩
      | comment hw hy => exact ⟨w, z, rfl, hz, .inr hco⟩
      | token hw hy ht hk =>
        obtain ⟨s, -, rfl⟩ := take_eq_some_iff.mp ht
        exact ⟨w, z, rfl, hz, .inr hco⟩
    · exact ⟨w ++ v, z, (List.append_assoc w v z).symm, hz, .inr (hbehind hco)⟩

end Reader

/-! ### Rejected texts -/

/-- A text and the same text above a line are read from the same place. -/
theorem parse_above_line (text c : Bytes) :
    ∃ mark bs, text = mark ++ bs ∧ (mark = [] ∨ mark = byteOrderMark) ∧
      parse text = (Reader.start (Position.start.after mark)).run 0 bs ∧
      parse (text ++ Byte.newline :: c) =
        (Reader.start (Position.start.after mark)).run 0 (bs ++ Byte.newline :: c) := by
  by_cases hm : byteOrderMark.isPrefixOf text = true
  · obtain ⟨bs, rfl⟩ := List.isPrefixOf_iff_prefix.mp hm
    refine ⟨byteOrderMark, bs, rfl, .inr rfl, parse_marked bs, ?_⟩
    rw [List.append_assoc, parse_marked]
  · have hm' : ¬ byteOrderMark.isPrefixOf (text ++ Byte.newline :: c) = true := by
      intro hlong
      obtain ⟨z, hz⟩ := List.isPrefixOf_iff_prefix.mp hlong
      obtain ⟨v, rfl, -⟩ := prefix_of_above_line (w := byteOrderMark) (by decide) hz.symm
      exact hm (List.isPrefixOf_iff_prefix.mpr (List.prefix_append _ v))
    exact ⟨[], text, rfl, .inl rfl, parse_unmarked hm, parse_unmarked hm'⟩

/-- A text that is rejected before its end, that is with more than blanks behind the place where
reading stopped, is rejected at that place whatever lines follow it. -/
theorem parse_unrepairable {text : Bytes} {e : SyntaxError} (h : parse text = .error e)
    (ho : NoBlock text) (hrest : ∃ i b, e.stoppedAt.byte ≤ i ∧ text[i]? = some b ∧
      Byte.isBlank b = false ∧ ¬ (i < 3 ∧ byteOrderMark.isPrefixOf text = true)) (more : Bytes) :
    parse (text ++ Byte.newline :: more) = .error e := by
  obtain ⟨mark, bs, rfl, hm, hrun, hlong⟩ := parse_above_line text more
  obtain ⟨x, y, r, rfl, hr, hy⟩ := Reader.exists_reads (Reader.start (Position.start.after mark)) bs
  rw [hrun, Reader.run_reads hr] at h
  rcases hy with rfl | hy
  · -- the text is over: behind the last token or comment there are only blanks
    exfalso
    obtain ⟨i, b, hi, hb, hblank, hmark⟩ := hrest
    obtain ⟨v, z, rfl, hz, hv⟩ := hr.blank_behind
    have hstop : e.stoppedAt = r.consumed := Reader.consumed_of_finish h
    have hbehind : (mark ++ v).length ≤ i := by
      rcases hv with ⟨rfl, -⟩ | hco
      · rw [List.append_nil]
        rcases hm with rfl | rfl
        · exact Nat.zero_le i
        · have hprefix : byteOrderMark.isPrefixOf (byteOrderMark ++ ([] ++ z ++ [])) = true :=
            List.isPrefixOf_iff_prefix.mpr (List.prefix_append _ _)
          exact Nat.le_of_not_lt fun hlt => hmark ⟨hlt, hprefix⟩
      · have hat : e.stoppedAt = Position.start.after (mark ++ v) := by
          rw [hstop, hco, Position.after_append]
          rfl
        rw [hat, Position.byte_start_after] at hi
        exact hi
    rw [List.append_nil, ← List.append_assoc, List.getElem?_append_right hbehind] at hb
    rw [hz b (List.mem_of_getElem? hb)] at hblank
    cases hblank
  · have hreads := hr.above_line ho.right more
    have hrefuses := hy.above_line ho.right.right more
    rw [hlong, List.append_assoc, Reader.run_reads hreads, Reader.run_of_refuses hrefuses]
    rw [Reader.run_of_refuses hy] at h
    exact h

/-- A stray mark at the end of a text is not read together with what stands below it. -/
theorem parse_unrepairable_mark :
    parse (Bytes.ofString "fn f()->()\x7b1 !") = .error ⟨⟨12, 0, 12⟩⟩ ∧
      parse (Bytes.ofString "fn f()->()\x7b1 !" ++ Byte.newline :: Bytes.ofString "=2\x7d") =
        .error ⟨⟨12, 0, 12⟩⟩ := by
  have h : parse (Bytes.ofString "fn f()->()\x7b1 !") = .error ⟨⟨12, 0, 12⟩⟩ := rfl
  have hrest : ∃ i b, 12 ≤ i ∧ (Bytes.ofString "fn f()->()\x7b1 !")[i]? = some b ∧
      Byte.isBlank b = false ∧
      ¬ (i < 3 ∧ byteOrderMark.isPrefixOf (Bytes.ofString "fn f()->()\x7b1 !") = true) :=
    ⟨13, 33, by decide, rfl, rfl, by decide⟩
  exact ⟨h, parse_unrepairable h (by decide) hrest (Bytes.ofString "=2\x7d")⟩

end RueSyntax
