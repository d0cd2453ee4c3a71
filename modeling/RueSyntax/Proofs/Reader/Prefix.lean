import RueSyntax.Proofs.State.Finished
import RueSyntax.Proofs.Reader.Leaves
import RueSyntax.Proofs.Reader.Under

/-!
# A program cut behind a leaf

Every piece ends at the end of a text too (`Piece.at_end`), so a text that is cut behind one of its
leaves is read as before up to there (`Reads.upTo`): nothing that was decided depends on what is cut
off.  What is left is to finish, or to stop at the end of the leaf (`parse_upTo`).
-/

namespace RueSyntax

namespace Reader

variable {r r' : Reader} {w x y : Bytes}

/-- The end of a text ends no piece too soon. -/
theorem Piece.at_end (h : Piece r w y r') : Piece r w [] r' := by
  cases h with
  | blank hb => exact .blank hb
  | @comment kind w y hw hy =>
    refine .comment hw ?_
    cases kind with
    | line => exact nofun
    | block => trivial
  | token hw hy ht hk => exact .token hw (Terminal.endsBefore_of_blank nofun) ht hk

theorem Piece.begins (h : Piece r w y r') : r.state.functions.Begins r'.state.functions := by
  cases h with
  | blank => exact .refl
  | comment => exact .refl
  | token hw hy ht hk =>
    obtain ⟨s, hs, rfl⟩ := take_eq_some_iff.mp ht
    exact (State.transition_of_step hs).begins

theorem Reads.begins (h : Reads r x y r') : r.state.functions.Begins r'.state.functions := by
  induction h with
  | nil => exact .refl
  | cons h _ ih => exact h.begins.trans ih

/-- A text that is read to its end can be cut behind each of its leaves. -/
theorem Reads.upTo {ls ms : List Leaf} {l : Leaf} (h : Reads r x [] r')
    (hl : r'.leaves = r.leaves ++ (ls ++ l :: ms)) :
    ∃ x₁ x₂ r₁, x = x₁ ++ x₂ ∧ x₁ ≠ [] ∧ Reads r x₁ [] r₁ ∧ r₁.leaves = r.leaves ++ (ls ++ [l]) ∧
      r₁.consumed = l.span.stop ∧ r₁.here = l.span.stop ∧
      r₁.state.functions.Begins r'.state.functions := by
  generalize hy : ([] : Bytes) = y at h
  induction h generalizing ls with
  | nil =>
    have hn : [] = ls ++ l :: ms := List.append_cancel_left ((List.append_nil _).trans hl)
    exact (List.append_ne_nil_of_right_ne_nil ls (List.cons_ne_nil l ms) hn.symm).elim
  | @cons r r1 r2 w x y h hs ih =>
    subst hy
    -- If the leaf stands behind this piece, so does the cut.
    have hbehind : ∀ ks, r1.leaves = r.leaves ++ ks →
        (∃ ls', ls = ks ++ ls' ∧ r2.leaves = r1.leaves ++ (ls' ++ l :: ms)) →
        ∃ x₁ x₂ r₁, w ++ x = x₁ ++ x₂ ∧ x₁ ≠ [] ∧ Reads r x₁ [] r₁ ∧
          r₁.leaves = r.leaves ++ (ls ++ [l]) ∧ r₁.consumed = l.span.stop ∧
          r₁.here = l.span.stop ∧ r₁.state.functions.Begins r2.state.functions := by
      rintro ks hks ⟨ls', rfl, hls⟩
      obtain ⟨x₁, x₂, r₁, rfl, hne, hr, hleaves, hstop⟩ := ih hls rfl
      have hcut : Piece r w (x₁ ++ []) r1 := h.cut hne hr
      refine ⟨w ++ x₁, x₂, r₁, (List.append_assoc w x₁ x₂).symm, ?_, .cons hcut hr, ?_, hstop⟩
      · exact List.append_ne_nil_of_left_ne_nil h.ne_nil x₁
      · rw [hleaves, hks, List.append_assoc, List.append_assoc]
    rw [List.append_nil] at h
    rcases h.reached with ⟨b, rfl, hb, rfl⟩ | ⟨k, rfl, hk, -⟩
    · exact hbehind [] (List.append_nil _).symm ⟨ls, rfl, hl⟩
    · obtain ⟨ks, hks, -⟩ := hs.tiled
      have hsplit : k :: ks = ls ++ l :: ms := by
        rw [hks, hk.leaves, List.append_assoc] at hl
        exact List.append_cancel_left hl
      cases ls with
      | nil =>
        obtain ⟨rfl, rfl⟩ := List.cons.inj hsplit
        exact ⟨k.text, x, r1, rfl, h.ne_nil, h.at_end.reads, hk.leaves, hk.consumed, hk.here,
          hs.begins⟩
      | cons k' ls =>
        obtain ⟨rfl, rfl⟩ := List.cons.inj hsplit
        exact hbehind [k] hk.leaves ⟨ls, rfl, hks⟩

end Reader

/-- A program that is cut behind a leaf is read up to there, and then the text is over. -/
theorem parse_upTo {text : Bytes} {s : SourceFile} {ls ms : List Leaf} {l : Leaf}
    (h : parse text = .ok s) (hl : s.leaves = ls ++ l :: ms) :
    ∃ r : Reader, parse (text.take l.span.stop.byte) = r.finish ∧ r.consumed = l.span.stop ∧
      r.leaves = ls ++ [l] ∧ r.state.functions.Begins s.functions ∧
      (State.top .noFunctions).Leads ((ls ++ [l]).filterMap Leaf.token?) r.texts := by
  obtain ⟨mark, x, r, rfl, hm, hr, hf⟩ := reads_of_parse h
  have hfunctions : r.state.functions = s.functions := by
    obtain ⟨state, comments, consumed, here⟩ := r
    cases state with
    | top fs =>
      cases hf
      rfl
    | _ => cases hf
  rw [Reader.leaves_of_finish hf] at hl
  obtain ⟨x₁, x₂, r₁, rfl, -, hr₁, hleaves, hconsumed, hhere, hbegins⟩ := hr.upTo hl
  obtain ⟨ks, hks, -, hleads⟩ := hr₁.tiled
  obtain rfl : ks = ls ++ [l] := hks.symm.trans hleaves
  refine ⟨r₁, ?_, hconsumed, hleaves, hfunctions ▸ hbegins, hleads⟩
  have hstop : l.span.stop.byte = (mark ++ x₁).length := by
    have hat : r₁.here = Position.start.after (mark ++ x₁) := by
      rw [hr₁.here, Position.after_append]
      rfl
    rw [← hhere, hat, Position.byte_start_after]
  have hp := parse_reads hm (.inr (by simp)) hr₁
  rw [hstop, ← List.append_assoc, List.take_left]
  rw [List.append_nil] at hp
  exact hp

end RueSyntax
