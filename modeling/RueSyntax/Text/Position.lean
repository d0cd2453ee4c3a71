import RueSyntax.Text.Byte

/-!
# Positions and spans

A position counts bytes from the start of the text, rows by their line feeds, and columns in bytes
since the row began.  Walking over a byte moves a position (`Position.next`), walking over a text
is the fold of that (`Position.after`).
-/

namespace RueSyntax

/-- A place between two bytes of a text. -/
structure Position where
  byte : Nat
  row : Nat
  column : Nat
deriving DecidableEq, Repr, Inhabited

namespace Position

/-- The place before the first byte. -/
def start : Position := ⟨0, 0, 0⟩

/-- The place behind the byte `b` that stands at `p`; only a line feed begins a row. -/
def next (p : Position) (b : UInt8) : Position :=
  if b == Byte.newline then ⟨p.byte + 1, p.row + 1, 0⟩ else ⟨p.byte + 1, p.row, p.column + 1⟩

/-- The place behind the text `t` that stands at `p`. -/
def after (p : Position) (t : Bytes) : Position := t.foldl next p

@[simp] theorem after_nil (p : Position) : p.after [] = p := rfl

@[simp] theorem after_cons (p : Position) (b : UInt8) (t : Bytes) :
    p.after (b :: t) = (p.next b).after t := rfl

theorem after_append (p : Position) (s t : Bytes) : p.after (s ++ t) = (p.after s).after t :=
  List.foldl_append

theorem byte_next (p : Position) (b : UInt8) : (p.next b).byte = p.byte + 1 := by
  unfold next
  split <;> rfl

theorem byte_after (p : Position) (t : Bytes) : (p.after t).byte = p.byte + t.length := by
  induction t generalizing p with
  | nil => rfl
  | cons b t ih =>
    rw [after_cons, ih, byte_next, List.length_cons]
    omega

theorem byte_start_after (t : Bytes) : (start.after t).byte = t.length :=
  (byte_after start t).trans (Nat.zero_add _)

end Position

/-- The stretch of text from `start` up to, not including, `stop`. -/
structure Span where
  start : Position
  stop : Position
deriving DecidableEq, Repr, Inhabited

/-- The span of the text `t` that stands at `p`. -/
def Span.of (p : Position) (t : Bytes) : Span := ⟨p, p.after t⟩

end RueSyntax
