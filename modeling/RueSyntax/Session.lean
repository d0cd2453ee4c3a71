import RueSyntax.Text.Byte

/-!
# Sessions

A session holds a text that is set as a whole or edited stretch by stretch.  What is asked about
the text is answered from the text alone, so no history is kept.
-/

namespace RueSyntax

/-- A text under edit; empty at the start. -/
structure Session where
  text : Bytes := []

namespace Session

/-- Replaces the whole text. -/
def set (_ : Session) (text : Bytes) : Session := ⟨text⟩

/-- Replaces the bytes from `start` up to, not including, `stop`, if these are places in the text
and in this order. -/
def edit (s : Session) (start stop : Nat) (text : Bytes) : Option Session :=
  if start ≤ stop ∧ stop ≤ s.text.length then
    some ⟨s.text.take start ++ text ++ s.text.drop stop⟩
  else none

end Session

end RueSyntax
