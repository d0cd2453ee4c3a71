import RueSyntax.Proofs.Reader.Parse
import RueSyntax.Proofs.State.Completion

/-!
# Where reading stops

A rejected text was read up to `stoppedAt`, the end of the last token or comment.  Cut there and
followed by a line feed instead, the same pieces are read again (`Reads.cut`): most tokens and all
comments end before a line feed, whatever followed them.  The parser is then in the state that it
was in, and that state can be completed.
-/

namespace RueSyntax

namespace Reader

/-- Behind an operator, no piece begins with a star. -/
theorem Reads.head_ne_star {r r' : Reader} {x y : Bytes} (h : Reads r x y r')
    (hr : ∃ ps k, r.texts = .operand ps k) : x.head? ≠ some 42 :=
  fun hx => absurd (h.head_of_operand hr 42 hx) (by decide)

/-- A token ends where it did if the next piece is still there. -/
theorem endsBefore_cut {r r1 r2 : Reader} {t : Terminal} {w x z y c : Bytes}
    (ht : r.take t w = some r1) (hy : t.EndsBefore (x ++ z ++ y)) (hx : x ≠ [])
    (h : Reads (r1.passAll w) x c r2) : t.EndsBefore (x ++ c) := by
  obtain ⟨b, x, rfl⟩ := List.exists_cons_of_ne_nil hx
  by_cases hd : t = .operator .divide
  · subst hd
    have hop : ∃ ps k, (r1.passAll w).texts = .operand ps k :=
      (State.transition_of_step (take_texts ht)).operand_of_operator
    have hslash : b ≠ 47 := by
      rintro rfl
      cases hy
    have hstar : b ≠ 42 := fun hb => h.head_ne_star hop (congrArg some hb)
    exact Comment.opening_slash (fun hb => hslash (Option.some.inj hb))
      (fun hb => hstar (Option.some.inj hb))
  · exact hy.of_head hd rfl

theorem Piece.here {r r' : Reader} {w y : Bytes} (h : Piece r w y r') :
    r'.here = r.here.after w := by
  cases h with
  | blank => rfl
  | comment => rfl
  | token hw hy ht hk =>
    obtain ⟨s, -, rfl⟩ := take_eq_some_iff.mp ht
    rfl

/-- A line feed ends no piece too soon. -/
theorem Piece.before_line {r r' : Reader} {w y : Bytes} (h : Piece r w y r') (c : Bytes) :
    Piece r w (Byte.newline :: c) r' := by
  cases h with
  | blank hb => exact .blank hb
  | @comment kind w y hw hy =>
    refine .comment hw ?_
    cases kind with
    | line => exact fun b hb => .inl (Option.some.inj hb).symm
    | block => trivial
  | token hw hy ht hk =>
    refine .token hw ?_ ht hk
    refine Terminal.endsBefore_of_blank fun b hb => ?_
    cases hb
    rfl

/-- A piece leaves what was consumed as it is, or is consumed, and then before any line. -/
theorem Piece.consumes {r r' : Reader} {w y : Bytes} (h : Piece r w y r') :
    (r'.state = r.state ∧ r'.consumed = r.consumed) ∨
      (r'.consumed = r.here.after w ∧ ∀ c, Piece r w (Byte.newline :: c) r') := by
  have hline := h.before_line
  cases h with
  | blank => exact .inl ⟨rfl, rfl⟩
  | comment => exact .inr ⟨rfl, hline⟩
  | token hw hy ht hk =>
    obtain ⟨s, -, hr1⟩ := take_eq_some_iff.mp ht
    exact .inr ⟨by rw [hr1]; rfl, hline⟩

/-- A piece is read again if the next one is still there. -/
theorem Piece.cut {r r1 r2 : Reader} {w x z y c : Bytes} (h : Piece r w (x ++ z ++ y) r1)
    (hx : x ≠ []) (hr : Reads r1 x c r2) : Piece r w (x ++ c) r1 := by
  cases h with
  | blank hb => exact .blank hb
  | @comment kind w y hw hy =>
    refine .comment hw ?_
    obtain ⟨b, x, rfl⟩ := List.exists_cons_of_ne_nil hx
    cases kind with
    | line => exact hy
    | block => trivial
  | token hw hy ht hk => exact .token hw (endsBefore_cut ht hy hx hr) ht hk

/-- The text `x`, which takes the reader from `r` to `r'`, can be cut behind its last token or
comment: either it has none, or the part up to there is read in the same way before any line. -/
theorem Reads.cut {r r' : Reader} {x y : Bytes} (h : Reads r x y r') :
    (r'.state = r.state ∧ r'.consumed = r.consumed) ∨
      ∃ x' z r'', x = x' ++ z ∧ x' ≠ [] ∧ r''.state = r'.state ∧
        r'.consumed = r.here.after x' ∧ ∀ c, Reads r x' (Byte.newline :: c) r'' := by
  induction h with
  | nil => exact .inl ⟨rfl, rfl⟩
  | @cons r r1 r2 w x y h hs ih =>
    rcases ih with ⟨hst, hco⟩ | ⟨x', z, r3, rfl, hx, hst, hco, hr⟩
    · rcases h.consumes with ⟨hst1, hco1⟩ | ⟨hco1, hw⟩
      · exact .inl ⟨hst.trans hst1, hco.trans hco1⟩
      · exact .inr ⟨w, x, r1, rfl, h.ne_nil, hst.symm, hco.trans hco1, fun c => (hw c).reads⟩
    · refine .inr ⟨w ++ x', z, r3, (List.append_assoc w x' z).symm, ?_, hst, ?_, fun c => ?_⟩
      · exact fun hn => hx (List.append_eq_nil_iff.mp hn).2
      · rw [hco, h.here, Position.after_append]
      · exact .cons (h.cut hx (hr c)) (hr c)

/-- Every reader can be led to the end of a text, behind a line feed. -/
theorem exists_completion (r : Reader) :
    ∃ c s, Reader.run 0 r (Byte.newline :: c) = .ok s := by
  obtain ⟨ts, fs, hts⟩ := State.completable (r.pass Byte.newline).texts
  obtain ⟨r', hr, ht, -⟩ := reads_layout (layout_spaced ts) hts
  obtain ⟨s, hs, -⟩ := finish_of_texts ht
  have hblank : Piece r [Byte.newline] (spaced ts ++ []) (r.pass Byte.newline) := .blank rfl
  have hrun := run_reads (.cons hblank hr)
  refine ⟨spaced ts, s, ?_⟩
  rw [List.append_nil] at hrun
  rw [← hs]
  exact hrun

end Reader

theorem stop_of_parse {text : Bytes} {e : SyntaxError} (h : parse text = .error e) :
    ∃ mark x y r, text = mark ++ (x ++ y) ∧ (mark = [] ∨ mark = byteOrderMark) ∧
      (Reader.start (Position.start.after mark)).Reads x y r ∧ e.stoppedAt = r.consumed := by
  obtain ⟨mark, bs, rfl, hm, hrun⟩ := parse_eq_run text
  obtain ⟨x, y, r, rfl, hr, hy⟩ := Reader.exists_reads (Reader.start (Position.start.after mark)) bs
  rw [hrun, Reader.run_reads hr] at h
  refine ⟨mark, x, y, r, rfl, hm, hr, ?_⟩
  rcases hy with rfl | hy
  · exact Reader.consumed_of_finish h
  · rw [Reader.run_of_refuses hy] at h
    cases h
    rfl

/-- What was consumed of a rejected text can be completed to a program. -/
theorem parse_completable {text : Bytes} {e : SyntaxError} (h : parse text = .error e) :
    e.stoppedAt = Position.start.after (text.take e.stoppedAt.byte) ∧
      ∃ c s, parse (text.take e.stoppedAt.byte ++ Byte.newline :: c) = .ok s := by
  obtain ⟨mark, x, y, r, rfl, hm, hr, hstop⟩ := stop_of_parse h
  rcases hr.cut with ⟨-, hco⟩ | ⟨x', z, r', rfl, hx, -, hco, hr'⟩
  · -- nothing was consumed
    have hstart : e.stoppedAt = .start := hstop.trans hco
    rw [hstart]
    refine ⟨rfl, ?_⟩
    obtain ⟨c, s, hs⟩ := (Reader.start .start).exists_completion
    refine ⟨c, s, ?_⟩
    rw [← hs]
    exact parse_unmarked (not_marked_of_head_lt fun b hb => by cases hb; decide)
  · have hat : e.stoppedAt = Position.start.after (mark ++ x') := by
      rw [hstop, hco, Position.after_append]
      rfl
    have hbyte : e.stoppedAt.byte = (mark ++ x').length := by
      rw [hat, Position.byte_start_after]
    have htake : (mark ++ (x' ++ z ++ y)).take e.stoppedAt.byte = mark ++ x' := by
      rw [hbyte, ← List.append_assoc, ← List.append_assoc, List.append_assoc, List.take_left]
    rw [htake]
    refine ⟨hat, ?_⟩
    obtain ⟨c, s, hs⟩ := r'.exists_completion
    refine ⟨c, s, ?_⟩
    rw [List.append_assoc, parse_reads hm (.inl hx) (hr' c), hs]

/-- A slash was consumed that would have opened a comment, had the comment been closed. -/
theorem parse_completable_slash :
    parse (Bytes.ofString "fn f()->()\x7b1/*") = .error ⟨⟨13, 0, 13⟩⟩ ∧
      ∃ c s, parse (Bytes.ofString "fn f()->()\x7b1/" ++ Byte.newline :: c) = .ok s := by
  have h : parse (Bytes.ofString "fn f()->()\x7b1/*") = .error ⟨⟨13, 0, 13⟩⟩ := rfl
  exact ⟨h, (parse_completable h).2⟩

end RueSyntax
