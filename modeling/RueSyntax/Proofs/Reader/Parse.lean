import RueSyntax.Proofs.Reader.Padding

/-!
# What a parse reads

A text is read from a fresh reader, behind a byte order mark if it has one.  If it is accepted, the
parser runs on the texts of its tokens (`leads_of_parse`), and conversely every layout of tokens
that the parser runs on is accepted (`parse_of_leads`).
-/

namespace RueSyntax

namespace SourceFile

/-- The comments of a text in their order. -/
def comments (s : SourceFile) : List Comment :=
  (s.functions.tokens.flatMap fun a => a.2.comments) ++ s.trailing

/-- The functions with only texts on the tokens. -/
def texts (s : SourceFile) : Phrase Bytes .functions := s.functions.map Lexeme.text

end SourceFile

/-! ### The byte order mark -/

theorem not_marked_of_head_lt {bs : Bytes} (h : ∀ b ∈ bs.head?, b < 128) :
    ¬ byteOrderMark.isPrefixOf bs = true := by
  intro hm
  obtain ⟨y, rfl⟩ := List.isPrefixOf_iff_prefix.mp hm
  exact absurd (h 0xEF rfl) (by decide)

theorem parse_unmarked {bs : Bytes} (h : ¬ byteOrderMark.isPrefixOf bs = true) :
    parse bs = (Reader.start .start).run 0 bs := by
  rw [parse, if_neg h]

theorem parse_marked (bs : Bytes) :
    parse (byteOrderMark ++ bs) = (Reader.start (Position.start.after byteOrderMark)).run 0 bs := by
  have hm : byteOrderMark.isPrefixOf (byteOrderMark ++ bs) = true :=
    List.isPrefixOf_iff_prefix.mpr (List.prefix_append _ _)
  rw [parse, if_pos hm]
  rfl

/-- A parse is a run behind the mark, if there is one. -/
theorem parse_eq_run (text : Bytes) :
    ∃ mark bs, text = mark ++ bs ∧ (mark = [] ∨ mark = byteOrderMark) ∧
      parse text = (Reader.start (Position.start.after mark)).run 0 bs := by
  by_cases hm : byteOrderMark.isPrefixOf text = true
  · obtain ⟨bs, rfl⟩ := List.isPrefixOf_iff_prefix.mp hm
    exact ⟨byteOrderMark, bs, rfl, .inr rfl, parse_marked bs⟩
  · exact ⟨[], text, rfl, .inl rfl, parse_unmarked hm⟩

/-- A text that is read behind the mark is parsed that way. -/
theorem parse_reads {mark x y : Bytes} {r : Reader} (hm : mark = [] ∨ mark = byteOrderMark)
    (hx : x ≠ [] ∨ ∀ b ∈ y.head?, b < 128)
    (h : (Reader.start (Position.start.after mark)).Reads x y r) :
    parse (mark ++ (x ++ y)) = r.run 0 y := by
  rcases hm with rfl | rfl
  · have hh : ∀ b ∈ (x ++ y).head?, b < 128 := by
      cases x with
      | nil => exact hx.resolve_left fun hn => hn rfl
      | cons b x =>
        intro c hc
        cases hc
        exact h.head_lt
    rw [List.nil_append, parse_unmarked (not_marked_of_head_lt hh)]
    exact Reader.run_reads h
  · rw [parse_marked]
    exact Reader.run_reads h

/-! ### At the end of the text -/

namespace Reader

theorem finish_of_texts {r : Reader} {fs : Phrase Bytes .functions} (h : r.texts = .top fs) :
    ∃ s, r.finish = .ok s ∧ s.texts = fs ∧ s.comments = r.noted := by
  obtain ⟨state, comments, consumed, here⟩ := r
  cases state with
  | top gs =>
    cases h
    exact ⟨⟨gs, comments, here⟩, rfl, rfl, rfl⟩
  | _ => cases h

theorem texts_of_finish {r : Reader} {s : SourceFile} (h : r.finish = .ok s) :
    r.texts = .top s.texts ∧ s.comments = r.noted := by
  obtain ⟨state, comments, consumed, here⟩ := r
  cases state with
  | top gs =>
    cases h
    exact ⟨rfl, rfl⟩
  | _ => cases h

theorem consumed_of_finish {r : Reader} {e : SyntaxError} (h : r.finish = .error e) :
    e.stoppedAt = r.consumed := by
  unfold finish at h
  split at h
  · cases h
  · cases h
    rfl

end Reader

/-! ### Parses and runs of the parser -/

/-- An accepted text is read to its end. -/
theorem reads_of_parse {text : Bytes} {s : SourceFile} (h : parse text = .ok s) :
    ∃ mark x r, text = mark ++ x ∧ (mark = [] ∨ mark = byteOrderMark) ∧
      (Reader.start (Position.start.after mark)).Reads x [] r ∧ r.finish = .ok s := by
  obtain ⟨mark, bs, rfl, hm, hrun⟩ := parse_eq_run text
  rw [hrun] at h
  obtain ⟨x, y, r, rfl, hr, hy⟩ := Reader.exists_reads (Reader.start (Position.start.after mark)) bs
  rw [Reader.run_reads hr] at h
  rcases hy with rfl | hy
  · exact ⟨mark, x, r, by rw [List.append_nil], hm, hr, h⟩
  · rw [Reader.run_of_refuses hy] at h
    cases h

theorem leads_of_parse {text : Bytes} {s : SourceFile} (h : parse text = .ok s) :
    (State.top .noFunctions).Leads s.texts.tokens (.top s.texts) := by
  obtain ⟨mark, x, r, -, -, hr, hf⟩ := reads_of_parse h
  obtain ⟨ts, hts⟩ := hr.leads
  rw [(Reader.texts_of_finish hf).1] at hts
  have htok : s.texts.tokens = ts := hts.tokens
  rw [htok]
  exact hts

theorem parse_of_leads {fs : Phrase Bytes .functions} {ts : List (Token Bytes)}
    {cs : List (CommentKind × Bytes)} {mark x : Bytes}
    (h : (State.top .noFunctions).Leads ts (.top fs)) (hx : Layout ts cs x)
    (hm : mark = [] ∨ mark = byteOrderMark) :
    ∃ s, parse (mark ++ x) = .ok s ∧ s.texts = fs ∧ s.comments.map Comment.bare = cs := by
  obtain ⟨r, hr, ht, hn⟩ :=
    Reader.reads_layout (r := Reader.start (Position.start.after mark)) hx h
  obtain ⟨s, hs, hfs, hcs⟩ := Reader.finish_of_texts ht
  have hp := parse_reads hm (.inr (by simp)) hr
  rw [List.append_nil] at hp
  refine ⟨s, ?_, hfs, ?_⟩
  · rw [hp, ← hs]
    rfl
  · rw [hcs, hn]
    rfl

end RueSyntax
