import RueSyntax.Text.Byte

/-!
# UTF-8

A well-formed sequence is a lead byte and the continuation bytes that it asks for; after some lead
bytes the first continuation byte has a narrower range, which shuts out surrogates, overlong forms
and values beyond the last code point.  `Utf8.units` cuts any text into characters and ill-formed
stretches, each stretch as long as it could still have become a character.  `Utf8.decode?` accepts
a text without ill-formed stretches; `Utf8.decodeLossy` puts one replacement character for each.
-/

namespace RueSyntax

namespace Utf8

/-- What a lead byte says: its own bits, how many bytes follow, and the range of the first. -/
structure Lead where
  bits : Nat
  following : Nat
  low : UInt8
  high : UInt8

/-- The lead bytes of well-formed sequences. -/
def lead? (b : UInt8) : Option Lead :=
  let n := b.toNat
  if b ≤ 0x7F then some ⟨n, 0, 0x80, 0xBF⟩
  else if b < 0xC2 then none
  else if b ≤ 0xDF then some ⟨n - 0xC0, 1, 0x80, 0xBF⟩
  else if b == 0xE0 then some ⟨n - 0xE0, 2, 0xA0, 0xBF⟩
  else if b == 0xED then some ⟨n - 0xE0, 2, 0x80, 0x9F⟩
  else if b ≤ 0xEF then some ⟨n - 0xE0, 2, 0x80, 0xBF⟩
  else if b == 0xF0 then some ⟨n - 0xF0, 3, 0x90, 0xBF⟩
  else if b ≤ 0xF3 then some ⟨n - 0xF0, 3, 0x80, 0xBF⟩
  else if b == 0xF4 then some ⟨n - 0xF0, 3, 0x80, 0x8F⟩
  else none

/-- Reads `n` continuation bytes, the first between `low` and `high`, onto the bits `v`.  Also says
how many of them are there, all or not. -/
def continuation : (n : Nat) → (low high : UInt8) → (v : Nat) → Bytes → Option Nat × Nat
  | 0, _, _, v, _ => (some v, 0)
  | _ + 1, _, _, _, [] => (none, 0)
  | n + 1, low, high, v, b :: bs =>
    if low ≤ b && b ≤ high then
      let r := continuation n 0x80 0xBF (v * 64 + b.toNat % 64) bs
      (r.1, r.2 + 1)
    else (none, 0)

/-- The character or the ill-formed stretch that begins with `b`, and how many bytes it has behind
that one. -/
def unit (b : UInt8) (bs : Bytes) : Option Char × Nat :=
  match lead? b with
  | none => (none, 0)
  | some l =>
    let r := continuation l.following l.low l.high l.bits bs
    (r.1.map Char.ofNat, r.2)

/-- The units of a text of which the first `n` bytes are already part of one. -/
def unitsFrom : Nat → Bytes → List (Option Char)
  | _, [] => []
  | n + 1, _ :: bs => unitsFrom n bs
  | 0, b :: bs =>
    let u := unit b bs
    u.1 :: unitsFrom u.2 bs

/-- A text cut into characters and, as `none`, ill-formed stretches. -/
def units (t : Bytes) : List (Option Char) := unitsFrom 0 t

/-- The characters of a well-formed text. -/
def decode? (t : Bytes) : Option String := ((units t).mapM id).map String.ofList

/-- The characters of a text, with U+FFFD for each ill-formed stretch. -/
def decodeLossy (t : Bytes) : String :=
  String.ofList ((units t).map fun u => u.getD (Char.ofNat 0xFFFD))

end Utf8

end RueSyntax
