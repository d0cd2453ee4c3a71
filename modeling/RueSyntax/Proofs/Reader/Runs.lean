import RueSyntax.Proofs.Reader.Pieces

/-!
# What a run keeps

Forgetting everything but the texts of the tokens, a run of the reader is a run of the parser
(`Reads.leads`), and what the parser accepts the reader can read (`exists_piece_of_accepts`).  A
reader also keeps all comments, on the tokens that they stand before or put aside (`noted`).
-/

namespace RueSyntax

/-- A comment without its place. -/
def Comment.bare (c : Comment) : CommentKind × Bytes := (c.kind, c.text)

namespace Reader

/-- The state of the parser with only texts on the tokens. -/
def texts (r : Reader) : State Bytes := r.state.map Lexeme.text

/-- The comments read so far. -/
def noted (r : Reader) : List Comment :=
  (r.state.tokens.flatMap fun a => a.2.comments) ++ r.comments

theorem take_eq_some_iff {r r' : Reader} {t : Terminal} {w : Bytes} :
    r.take t w = some r' ↔
      ∃ s, r.state.step t ⟨r.comments, w, Span.of r.here w⟩ = some s ∧
        r' = ⟨s, [], r.here.after w, r.here⟩ := by
  constructor
  · intro h
    obtain ⟨s, hs, rfl⟩ := Option.map_eq_some_iff.mp h
    exact ⟨s, hs, rfl⟩
  · rintro ⟨s, hs, rfl⟩
    exact Option.map_eq_some_iff.mpr ⟨s, hs, rfl⟩

theorem take_texts {r r' : Reader} {t : Terminal} {w : Bytes} (h : r.take t w = some r') :
    r.texts.step t w = some r'.texts := by
  obtain ⟨s, hs, rfl⟩ := take_eq_some_iff.mp h
  have hm := State.step_map Lexeme.text r.state t ⟨r.comments, w, Span.of r.here w⟩
  rw [hs] at hm
  exact hm

theorem take_eq_none_iff_texts {r : Reader} {t : Terminal} {w : Bytes} :
    r.take t w = none ↔ r.texts.step t w = none := by
  have hm := State.step_map_eq_none_iff Lexeme.text r.state t ⟨r.comments, w, Span.of r.here w⟩
  exact Option.map_eq_none_iff.trans hm.symm

theorem take_noted {r r' : Reader} {t : Terminal} {w : Bytes} (h : r.take t w = some r') :
    r'.noted = r.noted := by
  obtain ⟨s, hs, rfl⟩ := take_eq_some_iff.mp h
  simp only [noted, State.tokens_step hs, List.flatMap_append, List.flatMap_singleton,
    List.append_nil]

/-! ### The parser's run inside the reader's -/

theorem Piece.leads {r r' : Reader} {w y : Bytes} (h : Piece r w y r') :
    ∃ ts, r.texts.Leads ts r'.texts := by
  cases h with
  | blank => exact ⟨[], .nil _⟩
  | comment => exact ⟨[], .nil _⟩
  | token hw hy h hk =>
    refine ⟨[(_, w)], .cons ⟨take_texts h, hw, ?_⟩ (.nil _)⟩
    intro hn k hwk
    exact take_eq_none_iff_texts.mp (hk hn k hwk)

theorem Reads.leads {r r' : Reader} {x y : Bytes} (h : Reads r x y r') :
    ∃ ts, r.texts.Leads ts r'.texts := by
  induction h with
  | nil => exact ⟨[], .nil _⟩
  | cons h _ ih =>
    obtain ⟨ts, hts⟩ := h.leads
    obtain ⟨us, hus⟩ := ih
    exact ⟨ts ++ us, hts.append hus⟩

/-- What the parser accepts the reader takes, and it refuses the rivals. -/
theorem exists_take_of_accepts {r : Reader} {s : State Bytes} {t : Terminal} {w : Bytes}
    (h : r.texts.Accepts t w s) :
    ∃ r', r.take t w = some r' ∧ r'.texts = s ∧
      (t = .identifier → ∀ k, Keyword.ofBytes? w = some k → r.take (.word k) w = none) := by
  cases hr : r.take t w with
  | none =>
    have hs := take_eq_none_iff_texts.mp hr
    rw [h.step] at hs
    cases hs
  | some r' =>
    have hs := take_texts hr
    rw [h.step, Option.some.injEq] at hs
    exact ⟨r', rfl, hs.symm, fun hid k hk => take_eq_none_iff_texts.mpr (h.unreserved hid k hk)⟩

/-- What the parser accepts is read where its text ends. -/
theorem exists_piece_of_accepts {r : Reader} {s : State Bytes} {t : Terminal} {w y : Bytes}
    (h : r.texts.Accepts t w s) (hy : t.EndsBefore y) :
    ∃ r', Piece r w y r' ∧ r'.texts = s ∧ r'.noted = r.noted := by
  obtain ⟨r', hr, hs, hk⟩ := exists_take_of_accepts h
  have hn : r'.noted = r.noted := take_noted hr
  exact ⟨r'.passAll w, .token h.text hy hr hk, hs, hn⟩

/-! ### Runs one behind the other -/

theorem Piece.reads {r r' : Reader} {w y : Bytes} (h : Piece r w y r') : Reads r w y r' := by
  have hs : Reads r (w ++ []) y r' := .cons h (.nil r' y)
  rwa [List.append_nil] at hs

theorem Reads.append {r r' r'' : Reader} {x x' y : Bytes} (h : Reads r x (x' ++ y) r')
    (h' : Reads r' x' y r'') : Reads r (x ++ x') y r'' := by
  generalize hz : x' ++ y = z at h
  induction h with
  | nil => exact h'
  | cons h _ ih =>
    subst hz
    rw [List.append_assoc]
    refine .cons ?_ (ih h' rfl)
    rwa [List.append_assoc]

/-- Every piece begins with a byte of ASCII. -/
theorem Reads.head_lt {r r' : Reader} {b : UInt8} {x y : Bytes} (h : Reads r (b :: x) y r') :
    b < 128 := by
  generalize hx : b :: x = z at h
  cases h with
  | nil => cases hx
  | cons h hs =>
    cases h with
    | blank hb =>
      cases hx
      exact Byte.lt_of_isBlank hb
    | comment hw =>
      obtain ⟨w', rfl⟩ := head_of_comment hw
      cases hx
      decide
    | token hw =>
      obtain ⟨c, w', rfl, -, hc, -⟩ := Terminal.head_of_hasText hw
      cases hx
      exact hc

/-- Where an operand is to begin, a piece begins with a blank, a slash, a word or a parenthesis. -/
theorem Reads.head_of_operand {r r' : Reader} {x y : Bytes} (h : Reads r x y r')
    (hr : ∃ ps k, r.texts = .operand ps k) :
    ∀ b ∈ x.head?, Byte.isBlank b = true ∨ b = 47 ∨ Byte.isWord b = true ∨ b = 40 := by
  intro b hx
  obtain ⟨x, rfl⟩ := List.head?_eq_some_iff.mp hx
  generalize hz : b :: x = z at h
  cases h with
  | nil => cases hz
  | cons h hs =>
    cases h with
    | blank hb =>
      cases hz
      exact .inl hb
    | comment hw =>
      obtain ⟨w', rfl⟩ := head_of_comment hw
      cases hz
      exact .inr (.inl rfl)
    | @token r1 t w y hw hy ht hk =>
      obtain ⟨ps, k, hr⟩ := hr
      have hstep := take_texts ht
      rw [hr] at hstep
      have hop := State.beginOperand_terminal hstep
      obtain ⟨c, w', rfl, hl, -⟩ := Terminal.head_of_hasText hw
      cases hz
      by_cases hm : t = .mark .openParen
      · subst hm
        cases hw
        exact .inr (.inr (.inr rfl))
      · simp only [List.mem_cons, List.not_mem_nil, or_false, hm] at hop
        have hword : t.isWordLike = true := by
          rcases hop with rfl | rfl | rfl | rfl | rfl | rfl <;> rfl
        exact .inr (.inr (.inl (hl.trans hword)))

end Reader

end RueSyntax
