import RueSyntax.Proofs.State.Under
import RueSyntax.Proofs.Reader.Stop

/-!
# Reading a text under another

A text stands under another if a line feed is between them.  The upper text is read as if nothing
followed (`Reads.before_line`).  If it is a program, the parser is then between functions again, and
the reader of the lower text does what it would do alone, except that it remembers the functions and
the last comments of the upper text and that all its places lie further down (`Reader.Under`).  So
the two texts are read as one program exactly if the lower one is a program (`parse_under`).
-/

namespace RueSyntax

/-! ### Places further down -/

namespace Position

/-- A place in a text that stands under `text`. -/
def under (text : Bytes) (p : Position) : Position :=
  ⟨p.byte + (text.length + 1), p.row + (text.count Byte.newline + 1), p.column⟩

theorem row_after (p : Position) (t : Bytes) :
    (p.after t).row = p.row + t.count Byte.newline := by
  induction t generalizing p with
  | nil => rfl
  | cons b t ih =>
    rw [after_cons, ih, List.count_cons]
    unfold next
    by_cases hb : (b == Byte.newline) = true
    · rw [if_pos hb, if_pos hb]
      show p.row + 1 + t.count Byte.newline = p.row + (t.count Byte.newline + 1)
      omega
    · rw [if_neg hb, if_neg hb]
      rfl

/-- The text under `text` begins behind the line feed that ends it. -/
theorem start_under (text : Bytes) : start.under text = (start.after text).next Byte.newline := by
  have hbyte : (start.after text).byte = 0 + text.length := byte_after start text
  have hrow : (start.after text).row = 0 + text.count Byte.newline := row_after start text
  show (⟨0 + (text.length + 1), 0 + (text.count Byte.newline + 1), 0⟩ : Position) =
    ⟨(start.after text).byte + 1, (start.after text).row + 1, 0⟩
  rw [hbyte, hrow]
  rfl

theorem next_under (text : Bytes) (p : Position) (b : UInt8) :
    (p.next b).under text = (p.under text).next b := by
  unfold next
  by_cases hb : (b == Byte.newline) = true
  · rw [if_pos hb, if_pos hb]
    simp only [under, mk.injEq, and_true]
    omega
  · rw [if_neg hb, if_neg hb]
    simp only [under, mk.injEq, and_true]
    omega

theorem after_under (text : Bytes) (p : Position) (w : Bytes) :
    (p.after w).under text = (p.under text).after w := by
  induction w generalizing p with
  | nil => rfl
  | cons b w ih => rw [after_cons, after_cons, ih, next_under]

end Position

def Span.under (text : Bytes) (s : Span) : Span := ⟨s.start.under text, s.stop.under text⟩

theorem Span.of_under (text : Bytes) (p : Position) (w : Bytes) :
    (Span.of p w).under text = Span.of (p.under text) w := by
  unfold Span.of
  rw [← Position.after_under]
  rfl

def Comment.under (text : Bytes) (c : Comment) : Comment := { c with span := c.span.under text }

namespace Lexeme

def under (text : Bytes) (a : Lexeme) : Lexeme :=
  ⟨a.comments.map (Comment.under text), a.text, a.span.under text⟩

/-- The token with more comments before it. -/
def behind (cs : List Comment) (a : Lexeme) : Lexeme := { a with comments := cs ++ a.comments }

end Lexeme

/-- A file that stands under the file `above`, which has the text `text`. -/
def SourceFile.under (text : Bytes) (s above : SourceFile) : SourceFile where
  functions :=
    (s.functions.map (Lexeme.under text)).under above.functions (Lexeme.behind above.trailing)
  trailing := (if s.functions.isNoFunctions then above.trailing else []) ++
    s.trailing.map (Comment.under text)
  stop := s.stop.under text

/-! ### Two readers of one text -/

namespace Reader

variable {text : Bytes} {above : SourceFile} {r r' : Reader}

/-- The reader `r` has only the lower text, `r'` has read `above` before it. -/
structure Under (text : Bytes) (above : SourceFile) (r r' : Reader) : Prop where
  state : r'.state =
    (r.state.map (Lexeme.under text)).under above.functions (Lexeme.behind above.trailing)
  comments : r'.comments = (if r.state.isFresh then above.trailing else []) ++
    r.comments.map (Comment.under text)
  /-- What was consumed before the lower text may lie anywhere. -/
  consumed : r.consumed = .start ∨ r'.consumed = r.consumed.under text
  here : r'.here = r.here.under text

theorem Under.pass (h : Under text above r r') (b : UInt8) :
    Under text above (r.pass b) (r'.pass b) where
  state := h.state
  comments := h.comments
  consumed := h.consumed
  here := by
    simp only [Reader.pass, h.here]
    rw [Position.next_under]

theorem Under.aside (h : Under text above r r') (kind : CommentKind) (w : Bytes) :
    Under text above (r.aside kind w) (r'.aside kind w) where
  state := h.state
  comments := by
    have hspan := Span.of_under text r.here w
    simp only [Reader.aside, h.comments, h.here, List.map_append, List.map_cons, List.map_nil,
      Comment.under, hspan, List.append_assoc]
    rfl
  consumed := by
    right
    simp only [Reader.aside, h.here]
    exact (Position.after_under text r.here w).symm
  here := h.here

/-- Both readers take a token, or neither does. -/
theorem Under.take (h : Under text above r r') (t : Terminal) (w : Bytes) :
    Option.Rel (Under text above) (r.take t w) (r'.take t w) := by
  have hstep := State.step_under above.functions (Lexeme.behind above.trailing)
    (r.state.map (Lexeme.under text)) t (Lexeme.under text ⟨r.comments, w, Span.of r.here w⟩)
  rw [State.step_map, State.isFresh_map, ← h.state] at hstep
  -- The note of the second reader has the comments of the upper text if no token is between.
  have hnote : (if r.state.isFresh then
      Lexeme.behind above.trailing (Lexeme.under text ⟨r.comments, w, Span.of r.here w⟩)
      else Lexeme.under text ⟨r.comments, w, Span.of r.here w⟩) =
        ⟨r'.comments, w, Span.of r'.here w⟩ := by
    rw [h.comments, h.here, ← Span.of_under]
    by_cases hf : r.state.isFresh = true
    · rw [if_pos hf, if_pos hf]
      rfl
    · rw [if_neg hf, if_neg hf]
      rfl
  rw [hnote] at hstep
  cases hs : r.state.step t ⟨r.comments, w, Span.of r.here w⟩ with
  | none =>
    rw [hs] at hstep
    simp only [Reader.take, hs, hstep, Option.map_none]
    exact .none
  | some s =>
    rw [hs] at hstep
    simp only [Reader.take, hs, hstep, Option.map_some]
    have hfresh : s.isFresh = false := State.isFresh_of_step hs
    have hstop := Position.after_under text r.here w
    refine .some ⟨rfl, ?_, .inr ?_, h.here⟩
    · simp [hfresh]
    · rw [h.here]
      exact hstop.symm

theorem Under.takeFirst (h : Under text above r r') (bs : Bytes) (ps : List Reading) :
    Option.Rel (fun p p' => Under text above p.1 p'.1 ∧ p'.2 = p.2)
      (r.takeFirst bs ps) (r'.takeFirst bs ps) := by
  induction ps with
  | nil => exact .none
  | cons p ps ih =>
    have ht := h.take p.1 (bs.take p.2)
    unfold Reader.takeFirst
    revert ht
    generalize r.take p.1 (bs.take p.2) = q
    generalize r'.take p.1 (bs.take p.2) = q'
    intro ht
    cases ht with
    | none => exact ih
    | some hu => exact .some ⟨hu, rfl⟩

theorem Under.consume (h : Under text above r r') (bs : Bytes) :
    Option.Rel (fun p p' => Under text above p.1 p'.1 ∧ p'.2 = p.2)
      (r.consume bs) (r'.consume bs) := by
  unfold Reader.consume
  cases Comment.opening bs with
  | none => exact h.takeFirst bs (Reading.all bs)
  | some c => exact .some ⟨h.aside c.1 (bs.take c.2), rfl⟩

/-- What comes of a text alone, and what comes of it under `above`. -/
inductive ResultUnder (text : Bytes) (above : SourceFile) :
    Except SyntaxError SourceFile → Except SyntaxError SourceFile → Prop
  | accepted (s : SourceFile) : ResultUnder text above (.ok s) (.ok (s.under text above))
  | rejected {e e' : SyntaxError}
    (h : e.stoppedAt = .start ∨ e'.stoppedAt = e.stoppedAt.under text) :
    ResultUnder text above (.error e) (.error e')

theorem Under.finish (h : Under text above r r') :
    ResultUnder text above r.finish r'.finish := by
  obtain ⟨hstate, hcomments, hconsumed, hhere⟩ := h
  obtain ⟨state, comments, consumed, here⟩ := r
  obtain ⟨state', comments', consumed', here'⟩ := r'
  simp only at hstate hcomments hconsumed hhere
  subst hstate hcomments hhere
  cases state with
  | top fs => exact .accepted ⟨fs, comments, here⟩
  | _ => exact .rejected hconsumed

theorem Under.run (h : Under text above r r') (n : Nat) (bs : Bytes) :
    ResultUnder text above (Reader.run n r bs) (Reader.run n r' bs) := by
  induction bs generalizing r r' n with
  | nil =>
    cases n <;> exact h.finish
  | cons b bs ih =>
    cases n with
    | succ n => exact ih (h.pass b) n
    | zero =>
      unfold Reader.run
      by_cases hb : Byte.isBlank b = true
      · rw [if_pos hb, if_pos hb]
        exact ih (h.pass b) 0
      · rw [if_neg hb, if_neg hb]
        have hc := h.consume (b :: bs)
        revert hc
        generalize r.consume (b :: bs) = q
        generalize r'.consume (b :: bs) = q'
        intro hc
        cases hc with
        | none => exact .rejected h.consumed
        | @some p p' hu =>
          simp only [hu.2]
          exact ih (hu.1.pass b) (p.2 - 1)

/-! ### The upper text -/

/-- A whole text is read as well when a line feed and more text follow. -/
theorem Reads.before_line {x : Bytes} (h : Reads r x [] r') (c : Bytes) :
    Reads r x (Byte.newline :: c) r' := by
  generalize hy : ([] : Bytes) = y at h
  induction h with
  | nil => exact .nil _ _
  | @cons r r1 r2 w x y h hs ih =>
    subst hy
    have hs' := ih rfl
    refine .cons ?_ hs'
    by_cases hx : x = []
    · subst hx
      exact h.before_line c
    · have h' : Piece r w (x ++ [] ++ []) r1 := by
        rw [List.append_nil]
        exact h
      exact h'.cut hx hs'

theorem Reads.here {x y : Bytes} (h : Reads r x y r') : r'.here = r.here.after x := by
  induction h with
  | nil => rfl
  | cons h _ ih => rw [ih, h.here, Position.after_append]

end Reader

/-! ### Both texts -/

/-- Behind a program and a line feed, a text is read as it is read alone. -/
theorem parse_under {text more : Bytes} {s : SourceFile} (h : parse text = .ok s)
    (hm : ¬ byteOrderMark.isPrefixOf more = true) :
    Reader.ResultUnder text s (parse more) (parse (text ++ Byte.newline :: more)) := by
  obtain ⟨mark, x, r, rfl, hmark, hr, hf⟩ := reads_of_parse h
  have hhere : r.here = Position.start.after (mark ++ x) := by
    rw [hr.here, Position.after_append]
    rfl
  have hwhole : parse (mark ++ (x ++ Byte.newline :: more)) =
      Reader.run 0 r (Byte.newline :: more) :=
    parse_reads hmark (.inr fun b hb => by cases hb; decide) (hr.before_line more)
  have hline : Reader.run 0 r (Byte.newline :: more) =
      Reader.run 0 (r.pass Byte.newline) more := rfl
  rw [List.append_assoc, hwhole, hline, parse_unmarked hm]
  refine Reader.Under.run ?_ 0 more
  obtain ⟨state, comments, consumed, here⟩ := r
  cases state with
  | top fs =>
    cases hf
    refine ⟨rfl, (List.append_nil _).symm, .inl rfl, ?_⟩
    rw [Reader.pass, hhere]
    exact (Position.start_under _).symm
  | _ => cases hf

end RueSyntax
