/-!
# Numerals

A numeral is a sign, whole digits, a fraction and an exponent; whole digits have no zero in front.
What it means is limited by doubles: a numeral whose double is infinite has no meaning.

The double is found in three steps.  The digits are gathered into a number of 64 bits and a power
of ten: whole digits for which there is no room are counted only, and digits of the fraction for
which there is no room are dropped.  The number and the power of ten each become the nearest
double.  The product of the two is the double of the numeral.
-/

namespace RueSyntax.Json

structure Numeral where
  /-- The numeral as it is written. -/
  text : String
  isNegative : Bool
  whole : List Nat
  fraction : List Nat
  exponent : Option Int
deriving DecidableEq, Repr

namespace Numeral

/-! ### Form -/

/-- The digits at the front. -/
def digits (cs : List Char) : List Nat := (cs.takeWhile Char.isDigit).map fun c => c.toNat - 48

/-- The number that digits spell. -/
def number (ds : List Nat) : Nat := ds.foldl (fun n d => n * 10 + d) 0

/-- A sign before the digits of an exponent. -/
def signed : List Char → Bool × List Char
  | '-' :: cs => (true, cs)
  | '+' :: cs => (false, cs)
  | cs => (false, cs)

/-- What stands behind the fraction: an exponent or nothing. -/
def exponentIn? : List Char → Option (Option Int)
  | [] => some none
  | c :: cs =>
    let (negative, ds) := signed cs
    if (c == 'e' || c == 'E') && !ds.isEmpty && ds.all Char.isDigit then
      let n : Int := number (digits ds)
      some (some (if negative then -n else n))
    else none

/-- What stands behind the whole digits: a fraction or nothing, and the rest. -/
def fractionIn? : List Char → Option (List Nat × List Char)
  | '.' :: cs =>
    if (digits cs).isEmpty then none else some (digits cs, cs.dropWhile Char.isDigit)
  | cs => some ([], cs)

/-- A numeral, if the characters are one. -/
def ofChars? (cs : List Char) : Option Numeral := do
  let (negative, ds) := match cs with
    | '-' :: ds => (true, ds)
    | ds => (false, ds)
  let whole := digits ds
  if whole.isEmpty || (whole.head? == some 0 && whole.length > 1) then none
  else
    let (fraction, rest) ← fractionIn? (ds.dropWhile Char.isDigit)
    return ⟨String.ofList cs, negative, whole, fraction, ← exponentIn? rest⟩

/-! ### Size -/

/-- Whether a number of 64 bits has room for a further digit. -/
def hasRoom (n d : Nat) : Bool := n * 10 + d < 18446744073709551616

/-- Adds whole digits to `n` as long as there is room; says how many are left over. -/
def gatherWhole (n : Nat) : List Nat → Nat × Nat
  | [] => (n, 0)
  | d :: ds => if hasRoom n d then gatherWhole (n * 10 + d) ds else (n, ds.length + 1)

/-- Adds digits of a fraction to `n` as long as there is room; says how many have been added. -/
def gatherFraction (n : Nat) : List Nat → Nat × Nat
  | [] => (n, 0)
  | d :: ds =>
    if hasRoom n d then
      let (m, k) := gatherFraction (n * 10 + d) ds
      (m, k + 1)
    else (n, 0)

/-- The number of 64 bits and the power of ten. -/
def gathered (n : Numeral) : Nat × Int :=
  let (w, left) := gatherWhole 0 n.whole
  let (f, added) := gatherFraction w n.fraction
  (f, left - added + n.exponent.getD 0)

/-- The double nearest to a number: 53 binary digits, and of two as near the even one. -/
def nearestDouble (n : Nat) : Nat :=
  let unit := Nat.pow 2 (n.log2 - 52)
  let q := n / unit
  let r := n % unit
  if 2 * r < unit ∨ (2 * r = unit ∧ q % 2 = 0) then q * unit else (q + 1) * unit

/-- The least number whose nearest double is infinite: half a unit above the greatest double. -/
def infinite : Nat := Nat.pow 2 1024 - Nat.pow 2 970

/-- The greatest power of ten that is a double. -/
def greatestPower : Nat := 308

/-- Whether the double is finite. -/
def isFinite (n : Numeral) : Bool :=
  let (number, power) := n.gathered
  if number = 0 ∨ power < 0 then true
  else if greatestPower < power.toNat then false
  else nearestDouble number * nearestDouble (Nat.pow 10 power.toNat) < infinite

/-- The integer that is written without fraction and exponent; minus zero is none. -/
def integer? (n : Numeral) : Option Int :=
  if n.fraction.isEmpty && n.exponent.isNone then
    match n.isNegative, number n.whole with
    | true, 0 => none
    | true, m => some (-m)
    | false, m => some m
  else none

end Numeral

end RueSyntax.Json
