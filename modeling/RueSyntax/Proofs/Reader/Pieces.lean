import RueSyntax.Parser.Reader
import RueSyntax.Proofs.State.Map
import RueSyntax.Proofs.State.Leads
import RueSyntax.Proofs.Token.CommentText

/-!
# Reading piece by piece

A reader that is not inside a token or comment goes on by one piece: a blank, a comment or a token.
`Piece r w y r'` says that the piece `w` takes the reader from `r` to `r'` where `y` follows, and
`Reads r x y r'` says the same of a text `x` of any number of pieces.  A run agrees with them
(`run_piece`, `run_reads`), and it has no other way to go on (`exists_piece`, `exists_reads`): it
reads pieces up to the end of the text or up to a place where no piece begins.
-/

namespace RueSyntax

namespace State

variable {α : Type}

/-- Whether a token is refused does not depend on the note on it. -/
theorem step_eq_none_of_step_eq_none {s : State α} {t : Terminal} {a : α} (b : α)
    (h : s.step t a = none) : s.step t b = none := by
  have ha := step_map_eq_none_iff (fun _ => ()) s t a
  have hb := step_map_eq_none_iff (fun _ => ()) s t b
  exact hb.mp (ha.mpr h)

end State

namespace Reader

/-- Passes over a text. -/
def passAll (r : Reader) (w : Bytes) : Reader := { r with here := r.here.after w }

/-- The three kinds of piece. -/
inductive Piece : Reader → Bytes → Bytes → Reader → Prop
  | blank {r : Reader} {b : UInt8} {y : Bytes} (hb : Byte.isBlank b = true) :
    Piece r [b] y (r.pass b)
  | comment {r : Reader} {kind : CommentKind} {w y : Bytes} (hw : kind.HasText w)
    (hy : kind.EndsBefore y) : Piece r w y ((r.aside kind w).passAll w)
  | token {r r' : Reader} {t : Terminal} {w y : Bytes} (hw : t.HasText w) (hy : t.EndsBefore y)
    (h : r.take t w = some r')
    (hk : t = .identifier → ∀ k, Keyword.ofBytes? w = some k → r.take (.word k) w = none) :
    Piece r w y (r'.passAll w)

/-- Any number of pieces. -/
inductive Reads : Reader → Bytes → Bytes → Reader → Prop
  | nil (r : Reader) (y : Bytes) : Reads r [] y r
  | cons {r r' r'' : Reader} {w x y : Bytes} (h : Piece r w (x ++ y) r') (hs : Reads r' x y r'') :
    Reads r (w ++ x) y r''

/-! ### Where a piece begins -/

/-- Only the sign of division begins with a slash. -/
theorem divide_of_slash {t : Terminal} {w : Bytes} (h : t.HasText (47 :: w)) :
    t = .operator .divide ∧ w = [] := by
  obtain ⟨b, w', hw, hb, -⟩ := Terminal.head_of_hasText h
  cases hw
  cases t with
  | word k => cases hb
  | identifier => cases hb
  | integer => cases hb
  | unitType => cases h
  | mark m => cases m <;> cases h
  | operator o =>
    cases o with
    | divide =>
      cases h
      exact ⟨rfl, rfl⟩
    | _ => cases h

theorem opening_of_token {t : Terminal} {w y : Bytes} (hw : t.HasText w) (hy : t.EndsBefore y) :
    Comment.opening (w ++ y) = none := by
  obtain ⟨b, w', rfl, -⟩ := Terminal.head_of_hasText hw
  by_cases h47 : b = 47
  · subst h47
    obtain ⟨rfl, rfl⟩ := divide_of_slash hw
    exact hy
  · exact Comment.opening_eq_none (by simpa using h47)

theorem head_of_comment {kind : CommentKind} {w : Bytes} (h : kind.HasText w) :
    ∃ w', w = 47 :: w' := by
  cases kind with
  | line =>
    obtain ⟨body, rfl, -⟩ := h
    exact ⟨_, rfl⟩
  | block =>
    obtain ⟨body, rfl, -⟩ := h
    exact ⟨_, rfl⟩

theorem Piece.ne_nil {r r' : Reader} {w y : Bytes} (h : Piece r w y r') : w ≠ [] := by
  cases h with
  | blank => exact List.cons_ne_nil _ _
  | comment hw =>
    obtain ⟨w', rfl⟩ := head_of_comment hw
    exact List.cons_ne_nil _ _
  | token hw =>
    obtain ⟨b, w', rfl, -⟩ := Terminal.head_of_hasText hw
    exact List.cons_ne_nil _ _

/-! ### The choice among readings -/

theorem takeFirst_of_split {r r' : Reader} {bs : Bytes} {before after : List Reading}
    {t : Terminal} {n : Nat} (hb : ∀ p ∈ before, r.take p.1 (bs.take p.2) = none)
    (h : r.take t (bs.take n) = some r') :
    r.takeFirst bs (before ++ (t, n) :: after) = some (r', n) := by
  induction before with
  | nil => simp only [List.nil_append, takeFirst, h]
  | cons p before ih =>
    have hp := hb p List.mem_cons_self
    simp only [List.cons_append, takeFirst, hp]
    exact ih fun q hq => hb q (List.mem_cons_of_mem p hq)

theorem split_of_takeFirst {r r' : Reader} {bs : Bytes} {ps : List Reading} {n : Nat}
    (h : r.takeFirst bs ps = some (r', n)) :
    ∃ before t after, ps = before ++ (t, n) :: after ∧ r.take t (bs.take n) = some r' ∧
      ∀ p ∈ before, r.take p.1 (bs.take p.2) = none := by
  induction ps with
  | nil => cases h
  | cons p ps ih =>
    cases hp : r.take p.1 (bs.take p.2) with
    | some r1 =>
      simp only [takeFirst, hp, Option.some.injEq, Prod.mk.injEq] at h
      obtain ⟨rfl, rfl⟩ := h
      exact ⟨[], p.1, ps, rfl, hp, by simp⟩
    | none =>
      simp only [takeFirst, hp] at h
      obtain ⟨before, t, after, rfl, ht, hb⟩ := ih h
      refine ⟨p :: before, t, after, rfl, ht, ?_⟩
      intro q hq
      rcases List.mem_cons.mp hq with rfl | hq
      · exact hp
      · exact hb q hq

theorem take_eq_none_iff {r : Reader} {t : Terminal} {w : Bytes} :
    r.take t w = none ↔ ∀ a, r.state.step t a = none := by
  constructor
  · intro h a
    exact State.step_eq_none_of_step_eq_none a (Option.map_eq_none_iff.mp h)
  · intro h
    exact Option.map_eq_none_iff.mpr (h _)

/-- Where a token is read, its rivals are refused. -/
theorem take_rival {r r' : Reader} {t t' : Terminal} {w v : Bytes} (h : r.take t w = some r')
    (hk : t = .identifier → ∀ k, Keyword.ofBytes? w = some k → r.take (.word k) w = none)
    (ht : t.Rival w t') : r.take t' v = none := by
  obtain ⟨s, hs, -⟩ := Option.map_eq_some_iff.mp h
  rw [take_eq_none_iff]
  intro a
  rcases ht with ⟨rfl, k, hw, rfl⟩ | ⟨rfl, rfl⟩ | ⟨rfl, rfl⟩
  · exact take_eq_none_iff.mp (hk rfl k hw) a
  · exact State.step_unitType_of_openParen hs
  · exact State.step_arrow_of_minus hs

/-! ### A run reads pieces -/

/-- The bytes of what was consumed last are passed over. -/
theorem run_length (r : Reader) (w y : Bytes) :
    run w.length r (w ++ y) = run 0 (r.passAll w) y := by
  induction w generalizing r with
  | nil => rfl
  | cons b w ih => exact ih (r.pass b)

theorem run_consume {r r' : Reader} {w y : Bytes}
    (hw : ∃ b w', w = b :: w' ∧ Byte.isBlank b = false)
    (h : r.consume (w ++ y) = some (r', w.length)) : run 0 r (w ++ y) = run 0 (r'.passAll w) y := by
  obtain ⟨b, w', rfl, hb⟩ := hw
  rw [List.cons_append] at h
  simp only [List.cons_append, run, hb, h]
  exact run_length (r'.pass b) w' y

theorem consume_comment {r : Reader} {kind : CommentKind} {w y : Bytes} (hw : kind.HasText w)
    (hy : kind.EndsBefore y) : r.consume (w ++ y) = some (r.aside kind w, w.length) := by
  simp only [consume, Comment.opening_of_hasText hw hy, List.take_left]

theorem consume_token {r r' : Reader} {t : Terminal} {w y : Bytes} (hw : t.HasText w)
    (hy : t.EndsBefore y) (h : r.take t w = some r')
    (hk : t = .identifier → ∀ k, Keyword.ofBytes? w = some k → r.take (.word k) w = none) :
    r.consume (w ++ y) = some (r', w.length) := by
  obtain ⟨before, after, hall, hb⟩ := Reading.readings_of_hasText hw hy
  simp only [consume, opening_of_token hw hy, hall]
  exact takeFirst_of_split (fun p hp => take_rival h hk (hb p hp)) (by rw [List.take_left, h])

theorem run_piece {r r' : Reader} {w y : Bytes} (h : Piece r w y r') :
    run 0 r (w ++ y) = run 0 r' y := by
  cases h with
  | blank hb => simp only [List.singleton_append, run, if_pos hb]
  | comment hw hy =>
    refine run_consume ?_ (consume_comment hw hy)
    obtain ⟨w', rfl⟩ := head_of_comment hw
    exact ⟨47, w', rfl, rfl⟩
  | token hw hy h hk =>
    refine run_consume ?_ (consume_token hw hy h hk)
    obtain ⟨b, w', rfl, -, -, hb⟩ := Terminal.head_of_hasText hw
    exact ⟨b, w', rfl, hb⟩

theorem run_reads {r r' : Reader} {x y : Bytes} (h : Reads r x y r') :
    run 0 r (x ++ y) = run 0 r' y := by
  induction h with
  | nil => rfl
  | cons h _ ih => rw [List.append_assoc, run_piece h, ih]

/-! ### A run reads nothing else -/

theorem piece_of_consume {r r' : Reader} {bs : Bytes} {n : Nat}
    (h : r.consume bs = some (r', n)) :
    ∃ w y r'', bs = w ++ y ∧ Piece r w y r'' := by
  unfold consume at h
  split at h
  · next kind n hc =>
    obtain ⟨w, y, rfl, -, hw, hy⟩ := Comment.hasText_of_opening hc
    exact ⟨w, y, _, rfl, .comment hw hy⟩
  · next hc =>
    obtain ⟨before, t, after, hall, ht, hb⟩ := split_of_takeFirst h
    obtain ⟨w, y, rfl, rfl, hw, hy, hk⟩ := Reading.hasText_of_readings hc hall
    rw [List.take_left] at ht
    refine ⟨w, y, _, rfl, .token hw hy ht ?_⟩
    intro hn k hwk
    have h' := hb _ (hk hn k hwk)
    rwa [List.take_left] at h'

/-- Nothing that the text begins with can be consumed, and it does not begin with a blank. -/
def Refuses (r : Reader) (bs : Bytes) : Prop :=
  ∃ b bs', bs = b :: bs' ∧ Byte.isBlank b = false ∧ r.consume bs = none

/-- Where nothing can be consumed, the run stops. -/
theorem run_of_refuses {r : Reader} {bs : Bytes} (h : r.Refuses bs) :
    run 0 r bs = .error ⟨r.consumed⟩ := by
  obtain ⟨b, bs, rfl, hb, hc⟩ := h
  have hblank : ¬ Byte.isBlank b = true := ne_true_of_eq_false hb
  simp only [run, if_neg hblank, hc]

theorem exists_piece (r : Reader) {bs : Bytes} (hbs : bs ≠ []) :
    (∃ w y r', bs = w ++ y ∧ Piece r w y r') ∨ r.Refuses bs := by
  cases bs with
  | nil => exact (hbs rfl).elim
  | cons b bs =>
    by_cases hb : Byte.isBlank b = true
    · exact .inl ⟨[b], bs, r.pass b, rfl, .blank hb⟩
    · cases hc : r.consume (b :: bs) with
      | none => exact .inr ⟨b, bs, rfl, eq_false_of_ne_true hb, hc⟩
      | some p => exact .inl (piece_of_consume hc)

/-- A text is read up to its end or up to a place where the run stops. -/
theorem exists_reads (r : Reader) (bs : Bytes) :
    ∃ x y r', bs = x ++ y ∧ Reads r x y r' ∧ (y = [] ∨ r'.Refuses y) := by
  induction hn : bs.length using Nat.strongRecOn generalizing r bs with
  | ind n ih =>
    by_cases hbs : bs = []
    · exact ⟨[], bs, r, rfl, .nil r bs, .inl hbs⟩
    · rcases exists_piece r hbs with ⟨w, z, r', rfl, hp⟩ | h
      · have hw : 0 < w.length := List.length_pos_iff.mpr hp.ne_nil
        have hz : z.length < n := by
          rw [List.length_append] at hn
          omega
        obtain ⟨x, y, r'', rfl, hs, hy⟩ := ih z.length hz r' z rfl
        exact ⟨w ++ x, y, r'', (List.append_assoc w x y).symm, .cons hp hs, hy⟩
      · exact ⟨[], bs, r, rfl, .nil r bs, .inr h⟩

end Reader

end RueSyntax
