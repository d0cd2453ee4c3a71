import Mathlib.Data.List.Basic
import RueSyntax.Text.Byte

/-!
# Boundaries of characters

A text in UTF-8 can be taken apart between two characters, and then both parts are in UTF-8 again.
A place is such a boundary if an ASCII byte stands on either side of it: ASCII characters are
encoded as one byte, and the bytes of all other characters are above 127.
-/

namespace RueSyntax

namespace Utf8

/-- The text is what some string is encoded as. -/
def IsValid (t : Bytes) : Prop := ∃ s : String, t = Bytes.ofString s

/-- The index lies between two characters of a text, or at one of its ends. -/
structure IsBoundary (t : Bytes) (i : Nat) : Prop where
  inside : i ≤ t.length
  before : IsValid (t.take i)
  behind : IsValid (t.drop i)

variable {t x y : Bytes} {cs : List Char} {i j : Nat}

/-- The bytes of characters. -/
def encode (cs : List Char) : Bytes := cs.flatMap String.utf8EncodeChar

theorem ofString_eq (s : String) : Bytes.ofString s = encode s.toList := by
  rw [Bytes.ofString, ← String.utf8Encode_toList, List.utf8Encode, List.toList_data_toByteArray]
  rfl

theorem isValid_encode (cs : List Char) : IsValid (encode cs) :=
  ⟨String.ofList cs, by rw [ofString_eq, String.toList_ofList]⟩

theorem isValid_iff : IsValid t ↔ ∃ cs, t = encode cs := by
  constructor
  · rintro ⟨s, rfl⟩
    exact ⟨s.toList, ofString_eq s⟩
  · rintro ⟨cs, rfl⟩
    exact isValid_encode cs

theorem isValid_nil : IsValid [] := isValid_encode []

theorem isBoundary_zero (h : IsValid t) : IsBoundary t 0 := ⟨Nat.zero_le _, isValid_nil, h⟩

theorem isBoundary_length (h : IsValid t) : IsBoundary t t.length where
  inside := Nat.le_refl _
  before := by rwa [List.take_length]
  behind := by
    rw [List.drop_length]
    exact isValid_nil

/-- A character with an ASCII byte consists of that byte. -/
theorem encodeChar_of_lt {c : Char} {b : UInt8} (hb : b ∈ String.utf8EncodeChar c) (h : b < 128) :
    String.utf8EncodeChar c = [b] := by
  have hne : ∀ ns : List Nat, (∀ n ∈ ns, 128 ≤ n ∧ n < 256) → b ∉ ns.map UInt8.ofNat := by
    rintro ns hns hmem
    obtain ⟨n, hn, rfl⟩ := List.mem_map.mp hmem
    have hlt : (UInt8.ofNat n).toNat < 128 := h
    rw [UInt8.toNat_ofNat', Nat.mod_eq_of_lt (hns n hn).2] at hlt
    exact absurd (hns n hn).1 (Nat.not_le_of_lt hlt)
  unfold String.utf8EncodeChar at hb ⊢
  dsimp only at hb ⊢
  generalize c.val.toNat = v at hb ⊢
  by_cases h1 : v ≤ 127
  · rw [if_pos h1] at hb ⊢
    rw [List.mem_singleton.mp hb]
  · rw [if_neg h1] at hb
    by_cases h2 : v ≤ 2047
    · rw [if_pos h2] at hb
      exact absurd hb (hne [v / 64 % 32 + 192, v % 64 + 128] (by simp; omega))
    · rw [if_neg h2] at hb
      by_cases h3 : v ≤ 65535
      · rw [if_pos h3] at hb
        exact absurd hb
          (hne [v / 4096 % 16 + 224, v / 64 % 64 + 128, v % 64 + 128] (by simp; omega))
      · rw [if_neg h3] at hb
        exact absurd hb (hne [v / 262144 % 8 + 240, v / 4096 % 64 + 128, v / 64 % 64 + 128,
          v % 64 + 128] (by simp; omega))

/-! ### Between two parts of a text -/

/-- The parts do not meet inside of a character: nothing comes behind, or an ASCII byte stands on
one side. -/
def Seam (x y : Bytes) : Prop :=
  y = [] ∨ (∃ b ∈ x.getLast?, b < 128) ∨ ∃ b ∈ y.head?, b < 128

theorem Seam.append_left (h : Seam x y) (w : Bytes) : Seam (w ++ x) y := by
  rcases h with h | ⟨b, hb, hlt⟩ | h
  · exact .inl h
  · refine .inr (.inl ⟨b, ?_, hlt⟩)
    rw [List.getLast?_append, Option.mem_def.mp hb]
    rfl
  · exact .inr (.inr h)

/-- A seam lies at the front or not in the middle of the first character. -/
theorem Seam.encodeChar {c : Char} {a z : Bytes} (h : Seam x (a ++ z))
    (hc : String.utf8EncodeChar c = x ++ a) : x = [] ∨ a = [] := by
  by_contra hboth
  obtain ⟨hx, ha⟩ := not_or.mp hboth
  have hshort : ∀ b : UInt8, b ∈ x ++ a → ¬ b < 128 := by
    intro b hb hlt
    rw [← hc] at hb
    have hlength := congrArg List.length ((encodeChar_of_lt hb hlt).symm.trans hc)
    have hxlength := List.length_pos_iff.mpr hx
    have halength := List.length_pos_iff.mpr ha
    simp only [List.length_append, List.length_singleton] at hlength
    omega
  rcases h with h | ⟨b, hb, hlt⟩ | ⟨b, hb, hlt⟩
  · exact ha (List.append_eq_nil_iff.mp h).1
  · exact hshort b (List.mem_append_left a (List.mem_of_mem_getLast? hb)) hlt
  · rw [List.head?_append_of_ne_nil _ ha] at hb
    exact hshort b (List.mem_append_right x (List.mem_of_mem_head? hb)) hlt

/-- At a seam the characters are taken apart. -/
theorem encode_split (h : encode cs = x ++ y) (hs : Seam x y) :
    ∃ as bs, x = encode as ∧ y = encode bs := by
  induction cs generalizing x with
  | nil =>
    obtain ⟨rfl, rfl⟩ := List.append_eq_nil_iff.mp h.symm
    exact ⟨[], [], rfl, rfl⟩
  | cons c cs ih =>
    have h' : String.utf8EncodeChar c ++ encode cs = x ++ y := h
    rcases List.append_eq_append_iff.mp h' with ⟨a, rfl, hy⟩ | ⟨a, hc, rfl⟩
    · -- the first character lies in front of the seam
      by_cases ha : a = []
      · subst ha
        exact ⟨[c], cs, by simp [encode], hy.symm⟩
      · have hrest : Seam a y := by
          rcases hs with hs | ⟨b, hb, hlt⟩ | hs
          · exact .inl hs
          · rw [List.getLast?_append_of_ne_nil _ ha] at hb
            exact .inr (.inl ⟨b, hb, hlt⟩)
          · exact .inr (.inr hs)
        obtain ⟨as, bs, rfl, rfl⟩ := ih hy hrest
        exact ⟨c :: as, bs, rfl, rfl⟩
    · rcases hs.encodeChar hc with rfl | rfl
      · exact ⟨[], c :: cs, rfl, h.symm⟩
      · rw [List.append_nil] at hc
        exact ⟨[c], cs, by rw [← hc]; simp [encode], rfl⟩

theorem isBoundary_of_seam (h : IsValid (x ++ y)) (hs : Seam x y) :
    IsBoundary (x ++ y) x.length := by
  obtain ⟨cs, hcs⟩ := isValid_iff.mp h
  obtain ⟨as, bs, rfl, rfl⟩ := encode_split hcs.symm hs
  refine ⟨by simp, ?_, ?_⟩
  · rw [List.take_left]
    exact isValid_encode as
  · rw [List.drop_left]
    exact isValid_encode bs

/-- Between two boundaries stands a text in UTF-8. -/
theorem IsBoundary.between (hi : IsBoundary t i) (hj : IsBoundary t j) :
    IsValid ((t.take j).drop i) := by
  rcases Nat.le_total j i with hij | hij
  · have hlength : (t.take j).length ≤ i := Nat.le_trans (List.length_take_le j t) hij
    rw [List.drop_of_length_le hlength]
    exact isValid_nil
  · obtain ⟨as, has⟩ := isValid_iff.mp hi.before
    obtain ⟨cs, hcs⟩ := isValid_iff.mp hj.before
    have hsplit : encode as ++ (t.take j).drop i = encode cs := by
      rw [← has, ← hcs]
      conv_rhs => rw [← List.take_append_drop i (t.take j)]
      rw [List.take_take, Nat.min_eq_left hij]
    -- no character is the beginning of another
    have hprefix : as <+: cs := by
      refine List.isPrefix_of_utf8Encode_append_eq_utf8Encode ((t.take j).drop i).toByteArray ?_
      rw [List.utf8Encode, List.utf8Encode, ← List.toByteArray_append]
      exact congrArg List.toByteArray hsplit
    obtain ⟨bs, rfl⟩ := hprefix
    have hbetween : encode (as ++ bs) = encode as ++ encode bs := List.flatMap_append
    rw [hbetween] at hsplit
    rw [List.append_cancel_left hsplit]
    exact isValid_encode bs

end Utf8

end RueSyntax
