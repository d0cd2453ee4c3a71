import Mathlib.Computability.Language
import RueSyntax.Grammar.Regex
import RueSyntax.Proofs.Token.CommentText

/-!
# The regular expression of block comments

Between its two ends a block comment is described by runs of stars: other bytes, a run, and then any
number of times a byte that is neither star nor slash, other bytes, and a run.  Such a text is one
that ends in a star and nowhere has a slash behind a star (`starRuns_iff`).  With a slash behind it,
the comment is closed there and not before, so that of all that a text begins with one part at most
is a block comment: the part up to where it is first closed.  That part the lexer takes.
-/

namespace RueSyntax

/-! ### Texts of the parts of a regular expression -/

namespace ByteClass

/-- All bytes but these. -/
def others (ws : Bytes) : ByteClass := ⟨true, ws.map fun b => (b, b)⟩

theorem contains_only {a b : UInt8} : (only a).contains b = true ↔ b = a := by
  simp only [contains, only, List.any_cons, List.any_nil, Bool.or_false]
  constructor
  · intro h
    have hle : a ≤ b ∧ b ≤ a := by simpa using h
    exact UInt8.le_antisymm hle.2 hle.1
  · rintro rfl
    simp

theorem contains_others {ws : Bytes} {b : UInt8} : (others ws).contains b = true ↔ b ∉ ws := by
  have hrange : ∀ a : UInt8, a ≤ b ∧ b ≤ a ↔ b = a :=
    fun a => ⟨fun h => UInt8.le_antisymm h.2 h.1, fun h => by simp [h]⟩
  simp [contains, others, hrange, List.forall_mem_ne]

end ByteClass

namespace Regex

/-- The texts that it takes. -/
def language : Regex → Language UInt8
  | empty => 1
  | byte c => fun w => ∃ b, w = [b] ∧ c.contains b = true
  | seq p q => p.language * q.language
  | star p => KStar.kstar p.language

variable {p q : Regex} {ps : List Regex} {c : ByteClass} {w : Bytes}

theorem mem_seq : w ∈ (seq p q).language ↔ ∃ u ∈ p.language, ∃ v ∈ q.language, u ++ v = w :=
  Language.mem_mul

theorem mem_sequence_cons : w ∈ (sequence (p :: ps)).language ↔
    ∃ u ∈ p.language, ∃ v ∈ (sequence ps).language, u ++ v = w := mem_seq

theorem mem_sequence_singleton : w ∈ (sequence [p]).language ↔ w ∈ p.language := by
  show w ∈ p.language * 1 ↔ w ∈ p.language
  rw [mul_one]

theorem mem_verbatim {v : Bytes} : w ∈ (verbatim v).language ↔ w = v := by
  induction v generalizing w with
  | nil => exact Language.mem_one w
  | cons b v ih =>
    constructor
    · intro h
      obtain ⟨u, ⟨d, rfl, hd⟩, z, hz, rfl⟩ := mem_sequence_cons.mp h
      rw [ByteClass.contains_only.mp hd, ih.mp hz]
      rfl
    · rintro rfl
      exact mem_sequence_cons.mpr ⟨[b], ⟨b, rfl, ByteClass.contains_only.mpr rfl⟩, v, ih.mpr rfl, rfl⟩

/-- A class repeated takes the texts of its bytes. -/
theorem mem_star_byte : w ∈ (star (byte c)).language ↔ ∀ b ∈ w, c.contains b = true := by
  constructor
  · intro h
    obtain ⟨ws, rfl, hws⟩ := Language.mem_kstar.mp h
    intro b hb
    obtain ⟨v, hv, hbv⟩ := List.mem_flatten.mp hb
    obtain ⟨d, rfl, hd⟩ := hws v hv
    rw [List.mem_singleton.mp hbv]
    exact hd
  · intro h
    have hflat : w = (w.map fun b => [b]).flatten := by
      rw [← List.flatMap_def, List.flatMap_singleton']
    refine Language.mem_kstar.mpr ⟨w.map fun b => [b], hflat, ?_⟩
    intro v hv
    obtain ⟨b, hb, rfl⟩ := List.mem_map.mp hv
    exact ⟨b, rfl, h b hb⟩

theorem mem_plus_byte :
    w ∈ (plus (byte c)).language ↔ w ≠ [] ∧ ∀ b ∈ w, c.contains b = true := by
  rw [plus, mem_seq]
  constructor
  · rintro ⟨u, ⟨b, rfl, hb⟩, v, hv, rfl⟩
    exact ⟨List.cons_ne_nil b v, List.forall_mem_cons.mpr ⟨hb, mem_star_byte.mp hv⟩⟩
  · rintro ⟨hne, h⟩
    obtain ⟨b, v, rfl⟩ := List.exists_cons_of_ne_nil hne
    obtain ⟨hb, hv⟩ := List.forall_mem_cons.mp h
    exact ⟨[b], ⟨b, rfl, hb⟩, v, mem_star_byte.mpr hv, rfl⟩

end Regex

/-! ### Runs of stars -/

namespace StarRuns

/-- A run of stars. -/
def IsRun (w : Bytes) : Prop := w ≠ [] ∧ ∀ b ∈ w, b = 42

/-- What brings another run: a byte that does not close the comment, others, and the run. -/
def IsGroup (w : Bytes) : Prop :=
  ∃ c n s, w = c :: (n ++ s) ∧ c ≠ 47 ∧ c ≠ 42 ∧ 42 ∉ n ∧ IsRun s

end StarRuns

open StarRuns

/-- Some bytes without a star, a run of stars, and groups that bring more of them. -/
def StarRuns (w : Bytes) : Prop :=
  ∃ n s gs, w = n ++ (s ++ List.flatten gs) ∧ 42 ∉ n ∧ IsRun s ∧ ∀ g ∈ gs, IsGroup g

namespace StarRuns

variable {u v w : Bytes}

theorem not_infix_append (hu : ¬ [42, 47] <:+: u) (hv : ¬ [42, 47] <:+: v)
    (h : v.head? ≠ some 47) : ¬ [42, 47] <:+: u ++ v := by
  intro hi
  rcases List.infix_append_iff.mp hi with hi | hi | ⟨a, b, hab, ha, hb⟩
  · exact hu hi
  · exact hv hi
  · rcases a with _ | ⟨a₁, a⟩
    · exact hv (hab ▸ hb.isInfix)
    · rcases a with _ | ⟨a₂, a⟩
      · cases hab
        obtain ⟨z, rfl⟩ := hb
        exact h rfl
      · obtain ⟨rfl, rfl, hnil⟩ : 42 = a₁ ∧ 47 = a₂ ∧ [] = a ++ b := by simpa using hab
        obtain ⟨rfl, rfl⟩ := List.append_eq_nil_iff.mp hnil.symm
        exact hu ha.isInfix

theorem IsRun.getLast? (h : IsRun w) : w.getLast? = some 42 := by
  rw [List.getLast?_eq_some_getLast h.1, h.2 _ (List.getLast_mem h.1)]

theorem IsRun.not_infix (h : IsRun w) : ¬ [42, 47] <:+: w := fun hi =>
  absurd (h.2 47 (hi.subset (by simp))) (by decide)

theorem not_infix_of_not_mem (h : 42 ∉ w) : ¬ [42, 47] <:+: w := fun hi => h (hi.subset (by simp))

theorem IsRun.head? (h : IsRun w) : w.head? ≠ some 47 := fun hw =>
  absurd (h.2 47 (List.mem_of_mem_head? hw)) (by decide)

/-- Bytes without a star and a run end in a star and have nothing that closes. -/
theorem closed_append_run (hu : 42 ∉ u) (hv : IsRun v) :
    (u ++ v).getLast? = some 42 ∧ ¬ [42, 47] <:+: u ++ v := by
  refine ⟨?_, not_infix_append (not_infix_of_not_mem hu) hv.not_infix hv.head?⟩
  rw [List.getLast?_append, hv.getLast?]
  rfl

/-- Groups leave it so. -/
theorem closed_append_groups {gs : List Bytes} (hgs : ∀ g ∈ gs, IsGroup g)
    (hlast : w.getLast? = some 42) (hnot : ¬ [42, 47] <:+: w) :
    (w ++ gs.flatten).getLast? = some 42 ∧ ¬ [42, 47] <:+: w ++ gs.flatten := by
  induction gs generalizing w with
  | nil =>
    rw [List.flatten_nil, List.append_nil]
    exact ⟨hlast, hnot⟩
  | cons g gs ih =>
    obtain ⟨⟨c, n, s, rfl, hslash, hstar, hn, hs⟩, hrest⟩ := List.forall_mem_cons.mp hgs
    have hcn : 42 ∉ c :: n := by
      rw [List.mem_cons, not_or]
      exact ⟨fun h => hstar h.symm, hn⟩
    obtain ⟨hlast', hnot'⟩ := closed_append_run hcn hs
    have hhead : (c :: n ++ s).head? ≠ some 47 := fun h => hslash (Option.some.inj h)
    rw [List.flatten_cons, ← List.append_assoc]
    refine ih hrest ?_ (not_infix_append hnot hnot' hhead)
    rw [← List.cons_append, List.getLast?_append, hlast']
    rfl

theorem cons_other {b : UInt8} (hb : b ≠ 42) (h : StarRuns w) : StarRuns (b :: w) := by
  obtain ⟨n, s, gs, rfl, hn, hs, hgs⟩ := h
  refine ⟨b :: n, s, gs, rfl, ?_, hs, hgs⟩
  rw [List.mem_cons, not_or]
  exact ⟨fun h => hb h.symm, hn⟩

theorem star : StarRuns [42] :=
  ⟨[], [42], [], rfl, by simp, ⟨by simp, by simp⟩, by simp⟩

/-- A star in front of a text lengthens its first run, or makes a group of what is in front of
that. -/
theorem cons_star (hw : w.head? ≠ some 47) (h : StarRuns w) : StarRuns (42 :: w) := by
  obtain ⟨n, s, gs, rfl, hn, hs, hgs⟩ := h
  cases n with
  | nil =>
    refine ⟨[], 42 :: s, gs, rfl, hn, ⟨List.cons_ne_nil 42 s, ?_⟩, hgs⟩
    exact List.forall_mem_cons.mpr ⟨rfl, hs.2⟩
  | cons c n =>
    obtain ⟨hc, hn⟩ : ¬ 42 = c ∧ 42 ∉ n := by simpa using hn
    have hgroup : IsGroup (c :: (n ++ s)) :=
      ⟨c, n, s, rfl, fun h => hw (congrArg some h), fun h => hc h.symm, hn, hs⟩
    refine ⟨[], [42], (c :: (n ++ s)) :: gs, ?_, by simp, ⟨by simp, by simp⟩,
      List.forall_mem_cons.mpr ⟨hgroup, hgs⟩⟩
    simp

end StarRuns

/-- Runs of stars are the texts that end in a star and have nothing that closes a comment. -/
theorem starRuns_iff {w : Bytes} :
    StarRuns w ↔ w.getLast? = some 42 ∧ ¬ [42, 47] <:+: w := by
  constructor
  · rintro ⟨n, s, gs, rfl, hn, hs, hgs⟩
    obtain ⟨hlast, hnot⟩ := closed_append_run hn hs
    rw [← List.append_assoc]
    exact closed_append_groups hgs hlast hnot
  · rintro ⟨hlast, hnot⟩
    -- a byte in front at a time
    induction w with
    | nil => cases hlast
    | cons b w ih =>
      have hnot' : ¬ [42, 47] <:+: w := fun h => hnot (h.trans (List.suffix_cons b w).isInfix)
      cases w with
      | nil =>
        cases hlast
        exact .star
      | cons c w =>
        rw [List.getLast?_cons_cons] at hlast
        by_cases hb : b = 42
        · subst hb
          refine (ih hlast hnot').cons_star fun h => hnot ?_
          cases h
          exact (List.prefix_append [42, 47] w).isInfix
        · exact (ih hlast hnot').cons_other hb

/-! ### The rule of the grammar -/

namespace Regex

/-- Bytes other than a star, and a run of stars. -/
def toStars : List Regex := [star (byte (.others [42])), plus (byte (.only 42))]

/-- What stands between the opening of a block comment and its last slash. -/
def blockBody : Regex :=
  sequence (toStars ++ [star (sequence (byte (.others [47, 42]) :: toStars))])

def blockComment : Regex := sequence [verbatim [47, 42], blockBody, verbatim [47]]

theorem regex?_blockComment : Grammar.rue.regex? "block_comment" = some blockComment := by
  decide

variable {w : Bytes}

theorem mem_stars : w ∈ (plus (byte (.only 42))).language ↔ IsRun w := by
  rw [mem_plus_byte]
  exact and_congr_right fun _ => forall₂_congr fun b _ => ByteClass.contains_only

theorem mem_others : w ∈ (star (byte (.others [42]))).language ↔ 42 ∉ w := by
  rw [mem_star_byte]
  constructor
  · intro h hw
    exact ByteClass.contains_others.mp (h 42 hw) (by simp)
  · intro h b hb
    refine ByteClass.contains_others.mpr fun hmem => h ?_
    rwa [List.mem_singleton.mp hmem] at hb

theorem mem_toStars : w ∈ (sequence toStars).language ↔
    ∃ n s, w = n ++ s ∧ 42 ∉ n ∧ IsRun s := by
  rw [toStars, mem_sequence_cons]
  constructor
  · rintro ⟨n, hn, s, hs, rfl⟩
    exact ⟨n, s, rfl, mem_others.mp hn, mem_stars.mp (mem_sequence_singleton.mp hs)⟩
  · rintro ⟨n, s, rfl, hn, hs⟩
    exact ⟨n, mem_others.mpr hn, s, mem_sequence_singleton.mpr (mem_stars.mpr hs), rfl⟩

theorem mem_group : w ∈ (sequence (byte (.others [47, 42]) :: toStars)).language ↔ IsGroup w := by
  rw [mem_sequence_cons]
  constructor
  · rintro ⟨u, ⟨c, rfl, hc⟩, v, hv, rfl⟩
    obtain ⟨n, s, rfl, hn, hs⟩ := mem_toStars.mp hv
    obtain ⟨hslash, hstar⟩ : c ≠ 47 ∧ c ≠ 42 := by simpa using ByteClass.contains_others.mp hc
    exact ⟨c, n, s, rfl, hslash, hstar, hn, hs⟩
  · rintro ⟨c, n, s, rfl, hslash, hstar, hn, hs⟩
    refine ⟨[c], ⟨c, rfl, ByteClass.contains_others.mpr ?_⟩, n ++ s,
      mem_toStars.mpr ⟨n, s, rfl, hn, hs⟩, rfl⟩
    simp [hslash, hstar]

theorem mem_blockBody : w ∈ blockBody.language ↔ StarRuns w := by
  have hcons : w ∈ blockBody.language ↔ ∃ n ∈ (star (byte (.others [42]))).language,
      ∃ v ∈ (sequence [plus (byte (.only 42)),
        star (sequence (byte (.others [47, 42]) :: toStars))]).language, n ++ v = w :=
    mem_sequence_cons
  rw [hcons]
  constructor
  · rintro ⟨n, hn, v, hv, rfl⟩
    obtain ⟨s, hs, z, hz, rfl⟩ := mem_sequence_cons.mp hv
    obtain ⟨gs, rfl, hgs⟩ := Language.mem_kstar.mp (mem_sequence_singleton.mp hz)
    exact ⟨n, s, gs, rfl, mem_others.mp hn, mem_stars.mp hs, fun g hg => mem_group.mp (hgs g hg)⟩
  · rintro ⟨n, s, gs, rfl, hn, hs, hgs⟩
    have hstar : gs.flatten ∈ (star (sequence (byte (.others [47, 42]) :: toStars))).language :=
      Language.mem_kstar.mpr ⟨gs, rfl, fun g hg => mem_group.mpr (hgs g hg)⟩
    exact ⟨n, mem_others.mpr hn, _, mem_sequence_cons.mpr
      ⟨s, mem_stars.mpr hs, _, mem_sequence_singleton.mpr hstar, rfl⟩, rfl⟩

/-- The texts that are taken: what closes the comment is at its end and not before. -/
theorem mem_blockComment : w ∈ blockComment.language ↔
    ∃ body, w = 47 :: 42 :: (body ++ [42, 47]) ∧ ¬ [42, 47] <:+: body ++ [42] := by
  rw [blockComment, mem_sequence_cons]
  constructor
  · rintro ⟨u, hu, v, hv, rfl⟩
    obtain ⟨z, hz, y, hy, rfl⟩ := mem_sequence_cons.mp hv
    obtain rfl := mem_verbatim.mp hu
    obtain rfl := mem_verbatim.mp (mem_sequence_singleton.mp hy)
    obtain ⟨hlast, hnot⟩ := starRuns_iff.mp (mem_blockBody.mp hz)
    obtain ⟨body, rfl⟩ := List.getLast?_eq_some_iff.mp hlast
    exact ⟨body, by simp, hnot⟩
  · rintro ⟨body, rfl, hnot⟩
    have hruns : body ++ [42] ∈ blockBody.language :=
      mem_blockBody.mpr (starRuns_iff.mpr ⟨by simp, hnot⟩)
    exact ⟨[47, 42], mem_verbatim.mpr rfl, body ++ [42] ++ [47], mem_sequence_cons.mpr
      ⟨body ++ [42], hruns, [47], mem_sequence_singleton.mpr (mem_verbatim.mpr rfl), rfl⟩, by simp⟩

end Regex

/-! ### Where a comment is first closed -/

/-- A star with a slash stands at the index `i`, behind the first two bytes, and nowhere before. -/
structure ClosesFirst (x : Bytes) (i : Nat) : Prop where
  behind : 2 ≤ i
  closes : [42, 47] <+: x.drop i
  first : ∀ j, 2 ≤ j → j < i → ¬ [42, 47] <+: x.drop j

namespace ClosesFirst

variable {x y : Bytes} {i j : Nat}

theorem unique (hi : ClosesFirst x i) (hj : ClosesFirst x j) : i = j := by
  rcases Nat.lt_trichotomy i j with h | h | h
  · exact absurd hi.closes (hj.first i hi.behind h)
  · exact h
  · exact absurd hj.closes (hi.first j hj.behind h)

theorem exists_of_closes (hi : 2 ≤ i) (h : [42, 47] <+: x.drop i) : ∃ j, ClosesFirst x j := by
  have hex : ∃ k, 2 ≤ k ∧ [42, 47] <+: x.drop k := ⟨i, hi, h⟩
  refine ⟨Nat.find hex, (Nat.find_spec hex).1, (Nat.find_spec hex).2, fun j hj hlt hclose => ?_⟩
  exact Nat.find_min hex hlt ⟨hj, hclose⟩

/-- The part of a text up to where it is first closed, by what stands in it. -/
theorem iff_split {a b : UInt8} : ClosesFirst (a :: b :: y) (i + 2) ↔
    ∃ body z, y = body ++ 42 :: 47 :: z ∧ body.length = i ∧ ¬ [42, 47] <:+: body ++ [42] := by
  constructor
  · rintro ⟨-, ⟨z, hz⟩, hfirst⟩
    have hz' : 42 :: 47 :: z = y.drop i := hz
    have hy : y = y.take i ++ 42 :: 47 :: z := by rw [hz', List.take_append_drop]
    have hlength : (y.take i).length = i := by
      have hdrop : (y.drop i).length = z.length + 2 := by rw [← hz']; rfl
      rw [List.length_drop] at hdrop
      rw [List.length_take]
      omega
    refine ⟨y.take i, z, hy, hlength, ?_⟩
    -- what closes within the body would have closed before
    rintro ⟨u, v, huv⟩
    have hlt : u.length < i := by
      have hlen := congrArg List.length huv
      simp only [List.length_append, List.length_cons, List.length_nil, hlength] at hlen
      omega
    refine hfirst (u.length + 2) (Nat.le_add_left 2 _) (Nat.add_lt_add_right hlt 2) ?_
    have hsplit : y = u ++ ([42, 47] ++ (v ++ 47 :: z)) := by
      rw [hy, ← List.append_assoc, ← List.append_assoc, huv, List.append_assoc]
      rfl
    show [42, 47] <+: y.drop u.length
    rw [hsplit, List.drop_left]
    exact List.prefix_append _ _
  · rintro ⟨body, z, rfl, rfl, hnot⟩
    refine ⟨Nat.le_add_left 2 _, ?_, fun j hj hlt hclose => hnot ?_⟩
    · show [42, 47] <+: (body ++ 42 :: 47 :: z).drop body.length
      rw [List.drop_left]
      exact ⟨z, rfl⟩
    · obtain ⟨j, rfl⟩ := Nat.exists_eq_add_of_le' hj
      have hlt' : j < body.length := Nat.lt_of_add_lt_add_right hlt
      have hclose' : [42, 47] <+: (body ++ 42 :: 47 :: z).drop j := hclose
      have hsplit : (body ++ 42 :: 47 :: z).drop j = (body ++ [42]).drop j ++ 47 :: z := by
        rw [← List.drop_append_of_le_length (by simp; omega)]
        simp
      rw [hsplit] at hclose'
      have hpre : [42, 47] <+: (body ++ [42]).drop j :=
        List.prefix_of_prefix_length_le hclose' (List.prefix_append _ _) (by simp; omega)
      exact hpre.isInfix.trans (List.drop_suffix j _).isInfix

end ClosesFirst

variable {x w : Bytes}

/-- The beginnings of a text that are taken. -/
theorem mem_blockComment_iff_closesFirst (hx : [47, 42] <+: x) (hw : w <+: x) :
    w ∈ Regex.blockComment.language ↔ ∃ i, ClosesFirst x i ∧ w = x.take (i + 2) := by
  obtain ⟨y, rfl⟩ := hx
  rw [Regex.mem_blockComment]
  constructor
  · rintro ⟨body, rfl, hnot⟩
    obtain ⟨z, hz⟩ := hw
    have hy : y = body ++ 42 :: 47 :: z := by simpa using hz.symm
    refine ⟨body.length + 2, ClosesFirst.iff_split.mpr ⟨body, z, hy, rfl, hnot⟩, ?_⟩
    have htake : y.take (body.length + 2) = body ++ [42, 47] := by
      rw [hy, List.take_length_add_append]
      rfl
    show _ = 47 :: 42 :: y.take (body.length + 2)
    rw [htake]
  · rintro ⟨i, hi, rfl⟩
    obtain ⟨i, rfl⟩ := Nat.exists_eq_add_of_le' hi.behind
    obtain ⟨body, z, rfl, rfl, hnot⟩ := ClosesFirst.iff_split.mp hi
    refine ⟨body, ?_, hnot⟩
    show 47 :: 42 :: (body ++ 42 :: 47 :: z).take (body.length + 2) = _
    rw [List.take_length_add_append]
    rfl

theorem hasText_block_iff (h0 : 0 ∉ w) :
    CommentKind.block.HasText w ↔ w ∈ Regex.blockComment.language := by
  rw [Regex.mem_blockComment]
  constructor
  · rintro ⟨body, rfl, -, hnot⟩
    exact ⟨body, rfl, hnot⟩
  · rintro ⟨body, rfl, hnot⟩
    exact ⟨body, rfl, fun hmem => h0 (by simp [hmem]), hnot⟩

/-- The scan for a comment takes the same. -/
theorem opening_iff_mem_blockComment (hx : [47, 42] <+: x) (h0 : 0 ∉ x) {k : CommentKind}
    {n : Nat} : Comment.opening x = some (k, n) ↔
      k = .block ∧ n ≤ x.length ∧ x.take n ∈ Regex.blockComment.language := by
  have hnul : 0 ∉ x.take n := fun h => h0 (List.mem_of_mem_take h)
  constructor
  · intro h
    obtain ⟨w, y, rfl, rfl, hw, -⟩ := Comment.hasText_of_opening h
    rw [List.take_left] at hnul ⊢
    have hk : k = .block := by
      cases k with
      | block => rfl
      | line =>
        obtain ⟨body, rfl, -⟩ := hw
        obtain ⟨z, hz⟩ := hx
        cases hz
    subst hk
    exact ⟨rfl, by simp, (hasText_block_iff hnul).mp hw⟩
  · rintro ⟨rfl, hn, hmem⟩
    have hopening := Comment.opening_of_hasText (y := x.drop n) ((hasText_block_iff hnul).mpr hmem)
      trivial
    rwa [List.take_append_drop, List.length_take_of_le hn] at hopening

/-- In a text that opens a block comment the rule of the grammar takes the part up to where the
comment is first closed, and no other; the scan takes that part too. -/
theorem blockComment_first_close :
    ∃ p, Grammar.rue.regex? "block_comment" = some p ∧
      ∀ x : Bytes, 0 ∉ x → [47, 42] <+: x →
        (∀ w, w <+: x → (w ∈ p.language ↔ ∃ i, ClosesFirst x i ∧ w = x.take (i + 2))) ∧
        (∀ w w', w <+: x → w' <+: x → w ∈ p.language → w' ∈ p.language → w = w') ∧
        ((∃ w, w <+: x ∧ w ∈ p.language) ↔ ∃ i, 2 ≤ i ∧ [42, 47] <+: x.drop i) ∧
        ∀ k n, Comment.opening x = some (k, n) ↔
          k = .block ∧ n ≤ x.length ∧ x.take n ∈ p.language := by
  refine ⟨_, Regex.regex?_blockComment, fun x h0 hx => ⟨fun w hw =>
    mem_blockComment_iff_closesFirst hx hw, fun w w' hw hw' hmem hmem' => ?_, ?_,
    fun k n => opening_iff_mem_blockComment hx h0⟩⟩
  · obtain ⟨i, hi, rfl⟩ := (mem_blockComment_iff_closesFirst hx hw).mp hmem
    obtain ⟨j, hj, rfl⟩ := (mem_blockComment_iff_closesFirst hx hw').mp hmem'
    rw [hi.unique hj]
  · constructor
    · rintro ⟨w, hw, hmem⟩
      obtain ⟨i, hi, -⟩ := (mem_blockComment_iff_closesFirst hx hw).mp hmem
      exact ⟨i, hi.behind, hi.closes⟩
    · rintro ⟨i, hle, hclose⟩
      obtain ⟨j, hj⟩ := ClosesFirst.exists_of_closes hle hclose
      have hw : x.take (j + 2) <+: x := List.take_prefix _ x
      exact ⟨_, hw, (mem_blockComment_iff_closesFirst hx hw).mpr ⟨j, hj, rfl⟩⟩

/-- Three stars close a comment, and what is closed is not closed again. -/
theorem blockComment_first_close_stars :
    ∃ p, Grammar.rue.regex? "block_comment" = some p ∧
      Comment.opening [47, 42, 42, 42, 47, 42, 47] = some (.block, 5) ∧
      [47, 42, 42, 42, 47] ∈ p.language ∧ [47, 42, 42, 42, 47, 42, 47] ∉ p.language := by
  obtain ⟨p, hp, h⟩ := blockComment_first_close
  obtain ⟨-, hunique, -, hscan⟩ := h [47, 42, 42, 42, 47, 42, 47] (by decide) (by decide)
  have hmem : [47, 42, 42, 42, 47] ∈ p.language := ((hscan .block 5).mp rfl).2.2
  refine ⟨p, hp, rfl, hmem, fun hall => ?_⟩
  exact absurd (hunique _ _ (by decide) List.prefix_rfl hmem hall) (by decide)

end RueSyntax
