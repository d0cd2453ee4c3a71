import RueSyntax.Proofs.Reader.Parse

/-!
# The leaves of a text

The leaves of a text are its tokens and comments from left to right.  `Tiled p ls x` says that the
text `x`, which stands at `p` and behind which nothing follows, consists of the leaves `ls` with
blanks between them, and that each leaf has a text of its kind which the byte behind it does not go
on with.  An accepted text is taken apart in this way (`tiled_of_parse`), and a text that is put
together in this way is accepted if the parser takes the tokens (`parse_of_tiled`).

Where a minus, a slash or a line comment ends, the reader alone could go on in two ways.  What
follows in an accepted text decides: behind an operator an operand begins, and nothing begins with
a NUL.
-/

namespace RueSyntax

/-- A token or a comment, with its text and its place. -/
inductive Leaf where
  | token (t : Terminal) (text : Bytes) (span : Span)
  | comment (c : Comment)
deriving DecidableEq, Repr

/-- The byte does not go on with a text of the terminal. -/
def Terminal.EndsAt : Terminal → UInt8 → Prop
  | word _, b | identifier, b => Byte.isWord b = false
  | integer, b => Byte.isDigit b = false
  | mark .equals, b | operator .less, b | operator .greater, b => b ≠ 61
  | operator .minus, b => b ≠ 62
  | operator .divide, b => b ≠ 47 ∧ b ≠ 42
  | _, _ => True

/-- The byte does not go on with a comment of the kind. -/
def CommentKind.EndsAt : CommentKind → UInt8 → Prop
  | line, b => b = Byte.newline
  | block, _ => True

namespace Leaf

def text : Leaf → Bytes
  | token _ w _ => w
  | comment c => c.text

def span : Leaf → Span
  | token _ _ s => s
  | comment c => c.span

/-- The text is one of its kind. -/
def Spelled : Leaf → Prop
  | token t w _ => t.HasText w
  | comment c => c.kind.HasText c.text

def EndsAt : Leaf → UInt8 → Prop
  | token t _ _, b => t.EndsAt b
  | comment c, b => c.kind.EndsAt b

/-- The token that a leaf is, if it is one. -/
def token? : Leaf → Option (Token Bytes)
  | token t w _ => some (t, w)
  | comment _ => none

/-- The comment that a leaf is, if it is one. -/
def comment? : Leaf → Option Comment
  | token _ _ _ => none
  | comment c => some c

/-- A token with the comments before it. -/
def ofToken (a : Token Lexeme) : List Leaf :=
  a.2.comments.map comment ++ [token a.1 a.2.text a.2.span]

theorem filterMap_comment (cs : List Comment) : (cs.map comment).filterMap token? = [] := by
  simp [List.filterMap_map, token?]

theorem filterMap_ofToken (ts : List (Token Lexeme)) :
    (ts.flatMap ofToken).filterMap token? = ts.map fun a => (a.1, a.2.text) := by
  induction ts with
  | nil => rfl
  | cons a ts ih =>
    rw [List.flatMap_cons, List.filterMap_append, ih, ofToken, List.filterMap_append,
      filterMap_comment]
    rfl

theorem Spelled.ne_nil {l : Leaf} (h : l.Spelled) : l.text ≠ [] := by
  cases l with
  | token t w s =>
    obtain ⟨b, w', hw, -⟩ := Terminal.head_of_hasText h
    exact fun hn => List.cons_ne_nil b w' (hw.symm.trans hn)
  | comment c =>
    obtain ⟨w', hw⟩ := Reader.head_of_comment h
    exact fun hn => List.cons_ne_nil 47 w' (hw.symm.trans hn)

end Leaf

/-- The leaves of a file. -/
def SourceFile.leaves (s : SourceFile) : List Leaf :=
  s.functions.tokens.flatMap Leaf.ofToken ++ s.trailing.map Leaf.comment

/-- The text consists of the leaves and of blanks, and no leaf could be longer. -/
inductive Tiled : Position → List Leaf → Bytes → Prop
  | nil (p : Position) : Tiled p [] []
  | blank {p : Position} {b : UInt8} {ls : List Leaf} {x : Bytes} (hb : Byte.isBlank b = true)
    (h : Tiled (p.next b) ls x) : Tiled p ls (b :: x)
  | leaf {p : Position} {l : Leaf} {ls : List Leaf} {x : Bytes} (hp : l.span = Span.of p l.text)
    (hw : l.Spelled) (hx : ∀ b ∈ x.head?, l.EndsAt b) (h : Tiled (p.after l.text) ls x) :
    Tiled p (l :: ls) (l.text ++ x)

theorem Tiled.spelled {p : Position} {ls : List Leaf} {x : Bytes} (h : Tiled p ls x) :
    ∀ l ∈ ls, l.Spelled := by
  induction h with
  | nil => nofun
  | blank _ _ ih => exact ih
  | leaf _ hw _ _ ih => exact List.forall_mem_cons.mpr ⟨hw, ih⟩

theorem Tiled.hasText {p : Position} {ls : List Leaf} {x : Bytes} (h : Tiled p ls x) :
    ∀ a ∈ ls.filterMap Leaf.token?, a.1.HasText a.2 := by
  intro a ha
  obtain ⟨l, hl, hla⟩ := List.mem_filterMap.mp ha
  cases l with
  | comment c => cases hla
  | token t w s =>
    cases hla
    exact h.spelled _ hl

/-! ### The byte behind a leaf -/

/-- A byte that does not go on with a text ends it. -/
theorem Terminal.endsBefore_of_endsAt {t : Terminal} {y : Bytes} (h : ∀ b ∈ y.head?, t.EndsAt b) :
    t.EndsBefore y := by
  cases t with
  | word k => exact h
  | identifier => exact h
  | integer => exact h
  | unitType => trivial
  | mark m =>
    cases m with
    | equals => exact fun hy => h 61 hy rfl
    | _ => trivial
  | operator o =>
    cases o with
    | less => exact fun hy => h 61 hy rfl
    | greater => exact fun hy => h 61 hy rfl
    | divide => exact Comment.opening_slash (fun hy => (h 47 hy).1 rfl) fun hy => (h 42 hy).2 rfl
    | _ => trivial

theorem CommentKind.endsBefore_of_endsAt {k : CommentKind} {y : Bytes}
    (h : ∀ b ∈ y.head?, k.EndsAt b) : k.EndsBefore y := by
  cases k with
  | line => exact fun b hb => .inl (h b hb)
  | block => trivial

namespace Reader

variable {r r' r'' : Reader} {w x y : Bytes}

/-- Between tokens no text goes on with a NUL. -/
theorem Reads.head_ne_nul (h : Reads r x y r') : x.head? ≠ some 0 := by
  intro hx
  obtain ⟨x, rfl⟩ := List.head?_eq_some_iff.mp hx
  generalize hz : 0 :: x = z at h
  cases h with
  | nil => cases hz
  | cons h hs =>
    cases h with
    | blank hb =>
      cases hz
      cases hb
    | comment hw =>
      obtain ⟨w', rfl⟩ := head_of_comment hw
      cases hz
    | @token r1 t w y hw =>
      obtain ⟨b, w', rfl, hl, -⟩ := Terminal.head_of_hasText hw
      cases hz
      cases t with
      | mark m => cases m <;> cases hw
      | operator o => cases o <;> cases hw
      | unitType => cases hw
      | _ => cases hl

/-- If the rest of the text is read as well, a token that is over cannot be longer. -/
theorem endsAt_of_take {t : Terminal} (ht : r.take t w = some r') (hx : t.EndsBefore x)
    (h : Reads (r'.passAll w) x [] r'') : ∀ b ∈ x.head?, t.EndsAt b := by
  have hstep := take_texts ht
  cases t with
  | word k => exact hx
  | identifier => exact hx
  | integer => exact hx
  | unitType => exact fun _ _ => trivial
  | mark m =>
    cases m with
    | equals =>
      rintro b hb rfl
      exact hx hb
    | _ => exact fun _ _ => trivial
  | operator o =>
    have hoperand : ∃ ps k, (r'.passAll w).texts = .operand ps k :=
      (State.transition_of_step hstep).operand_of_operator
    have hhead := h.head_of_operand hoperand
    cases o with
    | less =>
      rintro b hb rfl
      exact hx hb
    | greater =>
      rintro b hb rfl
      exact hx hb
    | minus =>
      rintro b hb rfl
      exact absurd (hhead 62 hb) (by decide)
    | divide =>
      intro b hb
      refine ⟨?_, ?_⟩
      · rintro rfl
        obtain ⟨x, rfl⟩ := List.head?_eq_some_iff.mp hb
        cases hx
      · rintro rfl
        exact absurd (hhead 42 hb) (by decide)
    | _ => exact fun _ _ => trivial

theorem endsAt_of_comment {k : CommentKind} (hx : k.EndsBefore x) (h : Reads r x [] r') :
    ∀ b ∈ x.head?, k.EndsAt b := by
  cases k with
  | line =>
    intro b hb
    refine (hx b hb).resolve_right ?_
    rintro rfl
    exact h.head_ne_nul hb
  | block => exact fun _ _ => trivial

/-! ### What a reader has read -/

/-- The leaves read so far. -/
def leaves (r : Reader) : List Leaf :=
  r.state.tokens.flatMap Leaf.ofToken ++ r.comments.map Leaf.comment

/-- The leaf `l` is what the reader `r'` has read more than `r`. -/
structure Reached (r : Reader) (l : Leaf) (r' : Reader) : Prop where
  leaves : r'.leaves = r.leaves ++ [l]
  span : l.span = Span.of r.here l.text
  consumed : r'.consumed = l.span.stop
  here : r'.here = l.span.stop
  spelled : l.Spelled
  leads : r.texts.Leads ([l].filterMap Leaf.token?) r'.texts

theorem reached_comment {k : CommentKind} (hw : k.HasText w) :
    r.Reached (.comment ⟨k, w, Span.of r.here w⟩) ((r.aside k w).passAll w) where
  leaves := by simp [leaves, aside, passAll]
  span := rfl
  consumed := rfl
  here := rfl
  spelled := hw
  leads := .nil _

theorem reached_token {t : Terminal} (hw : t.HasText w) (ht : r.take t w = some r')
    (hk : t = .identifier → ∀ k, Keyword.ofBytes? w = some k → r.take (.word k) w = none) :
    r.Reached (.token t w (Span.of r.here w)) (r'.passAll w) := by
  have hstep := take_texts ht
  obtain ⟨s, hs, rfl⟩ := take_eq_some_iff.mp ht
  refine ⟨?_, rfl, rfl, rfl, hw, State.Accepts.leads ⟨hstep, hw, fun hn k hwk =>
    take_eq_none_iff_texts.mp (hk hn k hwk)⟩⟩
  simp [leaves, passAll, State.tokens_step hs, Leaf.ofToken]

/-- A piece is a blank or a leaf, and the leaf could not be longer if the rest of the text is
read. -/
theorem Piece.reached (h : Piece r w y r') :
    (∃ b, w = [b] ∧ Byte.isBlank b = true ∧ r' = r.pass b) ∨
      ∃ l, l.text = w ∧ r.Reached l r' ∧ ∀ r'', Reads r' y [] r'' → ∀ b ∈ y.head?, l.EndsAt b := by
  cases h with
  | blank hb => exact .inl ⟨_, rfl, hb, rfl⟩
  | comment hw hy =>
    exact .inr ⟨_, rfl, reached_comment hw, fun r'' hs => endsAt_of_comment hy hs⟩
  | token hw hy ht hk =>
    exact .inr ⟨_, rfl, reached_token hw ht hk, fun r'' hs => endsAt_of_take ht hy hs⟩

/-- A text that is read to its end is made of the leaves that the reader then has more. -/
theorem Reads.tiled (h : Reads r x [] r') :
    ∃ ls, r'.leaves = r.leaves ++ ls ∧ Tiled r.here ls x ∧
      r.texts.Leads (ls.filterMap Leaf.token?) r'.texts := by
  generalize hy : ([] : Bytes) = y at h
  induction h with
  | nil => exact ⟨[], (List.append_nil _).symm, .nil _, .nil _⟩
  | @cons r r1 r2 w x y h hs ih =>
    subst hy
    rw [List.append_nil] at h
    obtain ⟨ls, hleaves, htiled, hleads⟩ := ih rfl
    rcases h.reached with ⟨b, rfl, hb, rfl⟩ | ⟨l, rfl, hl, hend⟩
    · exact ⟨ls, hleaves, .blank hb htiled, hleads⟩
    · refine ⟨l :: ls, ?_, ?_, ?_⟩
      · rw [hleaves, hl.leaves, List.append_assoc, List.singleton_append]
      · rw [hl.here, hl.span] at htiled
        exact .leaf hl.span hl.spelled (hend r2 hs) htiled
      · have hboth := hl.leads.append hleads
        rwa [← List.filterMap_append] at hboth

/-- What the parser takes of the tokens of a text is read where the text is made of them. -/
theorem reads_of_tiled {p : Position} {ls : List Leaf} {s : State Bytes} (h : Tiled p ls x)
    (hp : r.here = p) (hs : r.texts.Leads (ls.filterMap Leaf.token?) s) :
    ∃ r', Reads r x [] r' ∧ r'.texts = s ∧ r'.leaves = r.leaves ++ ls := by
  induction h generalizing r with
  | nil =>
    cases hs
    exact ⟨r, .nil r [], rfl, (List.append_nil _).symm⟩
  | @blank p b ls x hb h ih =>
    subst hp
    obtain ⟨r', hr, ht, hl⟩ := ih (r := r.pass b) rfl hs
    exact ⟨r', .cons (w := [b]) (.blank hb) hr, ht, hl⟩
  | @leaf p l ls x hspan hw hx h ih =>
    subst hp
    have hbehind : ∃ r1, Piece r l.text (x ++ []) r1 ∧ r.Reached l r1 ∧
        r1.texts.Leads (ls.filterMap Leaf.token?) s := by
      rw [List.append_nil]
      cases l with
      | comment c =>
        obtain ⟨kind, w, span⟩ := c
        obtain rfl : span = Span.of r.here w := hspan
        exact ⟨_, .comment hw (CommentKind.endsBefore_of_endsAt hx), reached_comment hw, hs⟩
      | token t w span =>
        obtain rfl : span = Span.of r.here w := hspan
        cases hs with
        | cons hacc hs =>
          obtain ⟨r1, ht, htexts, hk⟩ := exists_take_of_accepts hacc
          refine ⟨_, .token hw (Terminal.endsBefore_of_endsAt hx) ht hk, reached_token hw ht hk, ?_⟩
          rwa [← htexts] at hs
    obtain ⟨r1, hpiece, hreached, hs⟩ := hbehind
    have hhere : r1.here = r.here.after l.text := by
      rw [hreached.here, hspan]
      rfl
    obtain ⟨r', hr, ht, hl⟩ := ih hhere hs
    refine ⟨r', .cons hpiece hr, ht, ?_⟩
    rw [hl, hreached.leaves, List.append_assoc, List.singleton_append]

end Reader

/-! ### Accepted texts -/

theorem Reader.leaves_of_finish {r : Reader} {s : SourceFile} (h : r.finish = .ok s) :
    s.leaves = r.leaves := by
  obtain ⟨state, comments, consumed, here⟩ := r
  cases state with
  | top gs =>
    cases h
    rfl
  | _ => cases h

/-- An accepted text is made of the leaves of its file. -/
theorem tiled_of_parse {text : Bytes} {s : SourceFile} (h : parse text = .ok s) :
    ∃ mark x, text = mark ++ x ∧ (mark = [] ∨ mark = byteOrderMark) ∧
      Tiled (Position.start.after mark) s.leaves x := by
  obtain ⟨mark, x, r, rfl, hm, hr, hf⟩ := reads_of_parse h
  obtain ⟨ls, hleaves, htiled, -⟩ := hr.tiled
  obtain rfl : r.leaves = ls := hleaves
  rw [← Reader.leaves_of_finish hf] at htiled
  exact ⟨mark, x, rfl, hm, htiled⟩

/-- A text that is made of leaves is accepted if the parser takes their tokens. -/
theorem parse_of_tiled {fs : Phrase Bytes .functions} {ls : List Leaf} {mark x : Bytes}
    (hm : mark = [] ∨ mark = byteOrderMark) (h : Tiled (Position.start.after mark) ls x)
    (hs : (State.top .noFunctions).Leads (ls.filterMap Leaf.token?) (.top fs)) :
    ∃ s, parse (mark ++ x) = .ok s ∧ s.texts = fs ∧ s.leaves = ls := by
  obtain ⟨r, hr, ht, hl⟩ :=
    Reader.reads_of_tiled (r := Reader.start (Position.start.after mark)) h rfl hs
  obtain ⟨s, hf, hfs, -⟩ := Reader.finish_of_texts ht
  have hp := parse_reads hm (.inr (by simp)) hr
  rw [List.append_nil] at hp
  exact ⟨s, hp.trans hf, hfs, (Reader.leaves_of_finish hf).trans hl⟩

end RueSyntax
