import RueSyntax.Proofs.Reader.Runs

/-!
# Tokens with padding between them

Padding is what may stand between tokens: blanks and comments.  `Layout ts cs x` says that the text
`x` consists of the texts of the tokens `ts` with padding around them, that `cs` are the comments
in it, and that neighbours are kept apart as far as words need it.  The main result is that such a
text is read as a program whenever the parser accepts the tokens (`parse_of_leads`).

No other neighbours need padding.  The parser takes an operator or an equals sign only where an
operand follows, and no operand begins with a sign that could make them longer or open a comment.
-/

namespace RueSyntax

/-- Blanks and comments, each line comment with the line feed that ends it. -/
inductive Padding : List (CommentKind × Bytes) → Bytes → Prop
  | nil : Padding [] []
  | blank {b : UInt8} {cs : List (CommentKind × Bytes)} {g : Bytes} (hb : Byte.isBlank b = true)
    (h : Padding cs g) : Padding cs (b :: g)
  | block {w g : Bytes} {cs : List (CommentKind × Bytes)} (hw : CommentKind.block.HasText w)
    (h : Padding cs g) : Padding ((.block, w) :: cs) (w ++ g)
  | line {w g : Bytes} {cs : List (CommentKind × Bytes)} (hw : CommentKind.line.HasText w)
    (h : Padding cs g) : Padding ((.line, w) :: cs) (w ++ Byte.newline :: g)

/-- Padding at the end of a text, where a line comment need not be ended. -/
inductive LastPadding : List (CommentKind × Bytes) → Bytes → Prop
  | padding {cs : List (CommentKind × Bytes)} {g : Bytes} (h : Padding cs g) : LastPadding cs g
  | comment {cs : List (CommentKind × Bytes)} {g w : Bytes} (h : Padding cs g)
    (hw : CommentKind.line.HasText w) : LastPadding (cs ++ [(.line, w)]) (g ++ w)

/-- Empty, or with a blank at the head. -/
def BlankFirst (g : Bytes) : Prop := ∀ b ∈ g.head?, Byte.isBlank b = true

instance : DecidablePred BlankFirst := fun g => Option.decidableForallMem g.head?

/-- Tokens, each with the padding behind it. -/
inductive Padded : List (Token Bytes) → List (CommentKind × Bytes) → Bytes → Prop
  | last {t : Terminal} {w g : Bytes} {cs : List (CommentKind × Bytes)} (hg : LastPadding cs g)
    (hb : BlankFirst g) : Padded [(t, w)] cs (w ++ g)
  | cons {t u : Terminal} {w v g x : Bytes} {ts : List (Token Bytes)}
    {cs ds : List (CommentKind × Bytes)} (hg : Padding cs g) (hb : BlankFirst g)
    (ha : g = [] → ¬ (t.isWordLike = true ∧ u.isWordLike = true))
    (h : Padded ((u, v) :: ts) ds x) : Padded ((t, w) :: (u, v) :: ts) (cs ++ ds) (w ++ (g ++ x))

/-- The texts that have the tokens `ts` and the comments `cs`. -/
inductive Layout : List (Token Bytes) → List (CommentKind × Bytes) → Bytes → Prop
  | empty {cs : List (CommentKind × Bytes)} {g : Bytes} (hg : LastPadding cs g) : Layout [] cs g
  | tokens {ts : List (Token Bytes)} {cs ds : List (CommentKind × Bytes)} {g x : Bytes}
    (hg : Padding cs g) (h : Padded ts ds x) : Layout ts (cs ++ ds) (g ++ x)

/-! ### One space between neighbours -/

/-- The texts of the tokens, with one space between neighbours. -/
def spaced (ts : List (Token Bytes)) : Bytes := [32].intercalate (ts.map Prod.snd)

theorem spaced_singleton (a : Token Bytes) : spaced [a] = a.2 := List.intercalate_singleton

theorem spaced_cons (a b : Token Bytes) (ts : List (Token Bytes)) :
    spaced (a :: b :: ts) = a.2 ++ ([32] ++ spaced (b :: ts)) := by
  rw [← List.append_assoc]
  exact List.intercalate_cons_cons

theorem padded_spaced (a : Token Bytes) (ts : List (Token Bytes)) :
    Padded (a :: ts) [] (spaced (a :: ts)) := by
  have hspace : Padding [] [32] := .blank rfl .nil
  induction ts generalizing a with
  | nil =>
    have h : Padded [a] [] (a.2 ++ []) := .last (.padding .nil) nofun
    rwa [spaced_singleton, ← List.append_nil a.2]
  | cons b ts ih =>
    have hb : BlankFirst [32] := by
      intro c hc
      cases hc
      rfl
    rw [spaced_cons]
    exact .cons hspace hb (fun hn => (List.cons_ne_nil _ _ hn).elim) (ih b)

theorem layout_spaced (ts : List (Token Bytes)) : Layout ts [] (spaced ts) := by
  cases ts with
  | nil => exact .empty (.padding .nil)
  | cons a ts => exact .tokens .nil (padded_spaced a ts)

/-! ### Where tokens end in a layout -/

theorem Padded.head {t : Terminal} {w x : Bytes} {ts : List (Token Bytes)}
    {cs : List (CommentKind × Bytes)} (h : Padded ((t, w) :: ts) cs x) : ∃ y, x = w ++ y := by
  cases h with
  | last => exact ⟨_, rfl⟩
  | cons => exact ⟨_, rfl⟩

/-- What begins an operand makes no operator and no equals sign longer. -/
theorem endsBefore_operand {t u : Terminal} {v y : Bytes}
    (hu : u ∈ [Terminal.identifier, .integer, .word .trueWord, .word .falseWord, .word .ifWord,
      .word .whileWord, .mark .openParen])
    (hv : u.HasText v) (ht : t = .mark .equals ∨ ∃ o, t = .operator o) : t.EndsBefore (v ++ y) := by
  obtain ⟨b, v', rfl, hw, -⟩ := Terminal.head_of_hasText hv
  have hb : b ≠ 61 ∧ b ≠ 47 ∧ b ≠ 42 := by
    by_cases hm : u = .mark .openParen
    · subst hm
      cases hv
      decide
    · have hl : u.isWordLike = true := by
        simp only [List.mem_cons, List.not_mem_nil, or_false, hm] at hu
        rcases hu with rfl | rfl | rfl | rfl | rfl | rfl <;> rfl
      rw [hl] at hw
      refine ⟨?_, ?_, ?_⟩ <;> (rintro rfl; cases hw)
  rcases ht with rfl | ⟨o, rfl⟩
  · exact fun h => hb.1 (Option.some.inj h)
  · cases o with
    | less => exact fun h => hb.1 (Option.some.inj h)
    | greater => exact fun h => hb.1 (Option.some.inj h)
    | divide =>
      exact Comment.opening_slash (fun h => hb.2.1 (Option.some.inj h))
        (fun h => hb.2.2 (Option.some.inj h))
    | _ => trivial

/-- Neighbours that are not both words end where they meet. -/
theorem endsBefore_neighbour {s s' s'' : State Bytes} {t u : Terminal} {w v y : Bytes}
    (h : s.Accepts t w s') (h' : s'.Accepts u v s'')
    (ha : ¬ (t.isWordLike = true ∧ u.isWordLike = true)) : t.EndsBefore (v ++ y) := by
  by_cases ht : t.isWordLike = true
  · refine Terminal.endsBefore_of_isWordLike ht ?_
    obtain ⟨b, v', rfl, hw, -⟩ := Terminal.head_of_hasText h'.text
    intro c hc
    cases hc
    rw [hw]
    exact Bool.eq_false_iff.mpr fun hu => ha ⟨ht, hu⟩
  · have hop : (t = .mark .equals ∨ ∃ o, t = .operator o) → t.EndsBefore (v ++ y) := fun h1 =>
      endsBefore_operand (State.begins_operand h1 h.step h'.step) h'.text h1
    cases t with
    | word k => exact (ht rfl).elim
    | identifier => exact (ht rfl).elim
    | integer => exact (ht rfl).elim
    | unitType => trivial
    | mark m =>
      cases m with
      | equals => exact hop (.inl rfl)
      | _ => trivial
    | operator o => exact hop (.inr ⟨o, rfl⟩)

theorem endsBefore_padding {t : Terminal} {g y : Bytes} (hb : BlankFirst g) (hg : g ≠ []) :
    t.EndsBefore (g ++ y) := by
  obtain ⟨b, g', rfl⟩ := List.exists_cons_of_ne_nil hg
  refine Terminal.endsBefore_of_blank fun c hc => ?_
  cases hc
  exact hb b rfl

/-! ### Reading a layout -/

namespace Reader

/-- What `r'` knows more than `r`: the comments `cs` and nothing else. -/
structure Notes (r : Reader) (cs : List (CommentKind × Bytes)) (r' : Reader) : Prop where
  texts : r'.texts = r.texts
  noted : r'.noted.map Comment.bare = r.noted.map Comment.bare ++ cs

theorem Notes.rfl {r : Reader} : r.Notes [] r := ⟨Eq.refl _, (List.append_nil _).symm⟩

theorem Notes.trans {r r' r'' : Reader} {cs ds : List (CommentKind × Bytes)} (h : r.Notes cs r')
    (h' : r'.Notes ds r'') : r.Notes (cs ++ ds) r'' :=
  ⟨h'.texts.trans h.texts, by rw [h'.noted, h.noted, List.append_assoc]⟩

theorem notes_pass (r : Reader) (b : UInt8) : r.Notes [] (r.pass b) :=
  ⟨Eq.refl _, (List.append_nil _).symm⟩

theorem notes_aside (r : Reader) (kind : CommentKind) (w : Bytes) :
    r.Notes [(kind, w)] ((r.aside kind w).passAll w) := by
  refine ⟨Eq.refl _, ?_⟩
  simp [noted, aside, passAll, Comment.bare]

theorem reads_padding {cs : List (CommentKind × Bytes)} {g : Bytes} (h : Padding cs g)
    (r : Reader) (y : Bytes) : ∃ r', Reads r g y r' ∧ r.Notes cs r' := by
  induction h generalizing r with
  | nil => exact ⟨r, .nil r y, .rfl⟩
  | @blank b cs g hb h ih =>
    obtain ⟨r', hr, hn⟩ := ih (r.pass b)
    exact ⟨r', .cons (w := [b]) (.blank hb) hr, (notes_pass r b).trans hn⟩
  | @block w g cs hw h ih =>
    obtain ⟨r', hr, hn⟩ := ih ((r.aside .block w).passAll w)
    exact ⟨r', .cons (.comment hw trivial) hr, (notes_aside r .block w).trans hn⟩
  | @line w g cs hw h ih =>
    have hend : CommentKind.line.EndsBefore (Byte.newline :: g ++ y) := by
      intro b hb
      cases hb
      exact .inl (Eq.refl _)
    obtain ⟨r', hr, hn⟩ := ih (((r.aside .line w).passAll w).pass Byte.newline)
    have hblank : Byte.isBlank Byte.newline = true := by decide
    refine ⟨r', .cons (.comment hw hend) (.cons (w := [Byte.newline]) (.blank hblank) hr), ?_⟩
    exact (notes_aside r .line w).trans ((notes_pass _ Byte.newline).trans hn)

theorem reads_lastPadding {cs : List (CommentKind × Bytes)} {g : Bytes} (h : LastPadding cs g)
    (r : Reader) : ∃ r', Reads r g [] r' ∧ r.Notes cs r' := by
  cases h with
  | padding h => exact reads_padding h r []
  | @comment cs g w h hw =>
    obtain ⟨r', hr, hn⟩ := reads_padding h r (w ++ [])
    have hp : Piece r' w [] ((r'.aside .line w).passAll w) := .comment hw nofun
    exact ⟨_, hr.append hp.reads, hn.trans (notes_aside r' .line w)⟩

/-- The parser's run is found again in every layout of its tokens. -/
theorem reads_padded {ts : List (Token Bytes)} {cs : List (CommentKind × Bytes)} {x : Bytes}
    (h : Padded ts cs x) {r : Reader} {s' : State Bytes} (hs : r.texts.Leads ts s') :
    ∃ r', Reads r x [] r' ∧ r'.texts = s' ∧
      r'.noted.map Comment.bare = r.noted.map Comment.bare ++ cs := by
  induction h generalizing r with
  | @last t w g cs hg hb =>
    cases hs with
    | cons hacc hs =>
      cases hs
      have hend : t.EndsBefore (g ++ []) := by
        rw [List.append_nil]
        exact Terminal.endsBefore_of_blank hb
      obtain ⟨r1, hp, ht, hn⟩ := exists_piece_of_accepts hacc hend
      obtain ⟨r2, hr, hn2⟩ := reads_lastPadding hg r1
      exact ⟨r2, .cons hp hr, hn2.texts.trans ht, by rw [hn2.noted, hn]⟩
  | @cons t u w v g x ts cs ds hg hb ha h ih =>
    cases hs with
    | cons hacc hs =>
      have hend : t.EndsBefore (g ++ x ++ []) := by
        rw [List.append_nil]
        by_cases hnil : g = []
        · subst hnil
          obtain ⟨y, rfl⟩ := h.head
          rw [List.nil_append]
          cases hs with
          | cons hacc' _ => exact endsBefore_neighbour hacc hacc' (ha rfl)
        · exact endsBefore_padding hb hnil
      obtain ⟨r1, hp, ht, hn⟩ := exists_piece_of_accepts hacc hend
      obtain ⟨r2, hr, hn2⟩ := reads_padding hg r1 (x ++ [])
      rw [← ht, ← hn2.texts] at hs
      obtain ⟨r3, hr3, ht3, hn3⟩ := ih hs
      refine ⟨r3, .cons hp (hr.append hr3), ht3, ?_⟩
      rw [hn3, hn2.noted, hn, List.append_assoc]

theorem reads_layout {ts : List (Token Bytes)} {cs : List (CommentKind × Bytes)} {x : Bytes}
    (h : Layout ts cs x) {r : Reader} {s' : State Bytes} (hs : r.texts.Leads ts s') :
    ∃ r', Reads r x [] r' ∧ r'.texts = s' ∧
      r'.noted.map Comment.bare = r.noted.map Comment.bare ++ cs := by
  cases h with
  | empty hg =>
    cases hs
    obtain ⟨r', hr, hn⟩ := reads_lastPadding hg r
    exact ⟨r', hr, hn.texts, hn.noted⟩
  | @tokens ts cs ds g x hg h =>
    obtain ⟨r1, hr1, hn1⟩ := reads_padding hg r (x ++ [])
    rw [← hn1.texts] at hs
    obtain ⟨r2, hr2, ht2, hn2⟩ := reads_padded h hs
    exact ⟨r2, hr1.append hr2, ht2, by rw [hn2, hn1.noted, List.append_assoc]⟩

end Reader

end RueSyntax
