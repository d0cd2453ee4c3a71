import RueSyntax.Json.Basic
import RueSyntax.Json.Numeral

/-!
# JSON as it is written

A text may have the form of JSON and still have no value: a numeral may be too large, an escape may
stand for half of a character, arrays and objects may be nested too deep.  `Written` is the form.
`Written.value?` gives the value if all parts have one; `Written.pick?` asks this only of the keys
that matter.
-/

namespace RueSyntax.Json

/-- The form of a JSON text.  A string is the numbers of its characters, where an escaped surrogate
counts as a character. -/
inductive Written where
  | null
  | boolean (b : Bool)
  | number (n : Numeral)
  | string (units : List Nat)
  | array (ws : List Written)
  | object (ps : List (List Nat × Written))

/-! ### Strings -/

def isHighSurrogate (u : Nat) : Bool := 0xD800 ≤ u && u ≤ 0xDBFF

def isLowSurrogate (u : Nat) : Bool := 0xDC00 ≤ u && u ≤ 0xDFFF

/-- Joins surrogates to characters; each must be part of a pair. -/
def joinUnits : List Nat → Option (List Char)
  | [] => some []
  | [u] => if isHighSurrogate u || isLowSurrogate u then none else some [Char.ofNat u]
  | u :: v :: us =>
    if isHighSurrogate u then
      if isLowSurrogate v then
        (joinUnits us).map (Char.ofNat (0x10000 + (u - 0xD800) * 0x400 + (v - 0xDC00)) :: ·)
      else none
    else if isLowSurrogate u then none
    else (joinUnits (v :: us)).map (Char.ofNat u :: ·)

/-- The string of these characters. -/
def stringOf? (us : List Nat) : Option String := (joinUnits us).map String.ofList

/-! ### Values -/

/-- The value of a numeral, if its double is finite. -/
def Numeral.value? (n : Numeral) : Option Value :=
  if n.isFinite then
    match n.integer? with
    | some i => some (.integer i)
    | none => some (.decimal n.text)
  else none

namespace Written

mutual

/-- The value, where arrays and objects may be nested to the given depth. -/
def valueWithin? : Nat → Written → Option Value
  | _, null => some .null
  | _, boolean b => some (.boolean b)
  | _, number n => n.value?
  | _, string us => (stringOf? us).map .string
  | 0, array _ => none
  | depth + 1, array ws => (valuesWithin? depth ws).map .array
  | 0, object _ => none
  | depth + 1, object ps => (pairsWithin? depth ps).map .object

def valuesWithin? : Nat → List Written → Option (List Value)
  | _, [] => some []
  | depth, w :: ws => return (← valueWithin? depth w) :: (← valuesWithin? depth ws)

def pairsWithin? : Nat → List (List Nat × Written) → Option (List (String × Value))
  | _, [] => some []
  | depth, (us, w) :: ps => do
    let key ← stringOf? us
    return (key, ← valueWithin? depth w) :: (← pairsWithin? depth ps)

end

/-- How deep arrays and objects may be nested. -/
def maxDepth : Nat := 127

def value? (w : Written) : Option Value := w.valueWithin? maxDepth

/-- The object with these keys alone.  Other keys have to be strings, but what is written for them
may be without a value. -/
def pick? (keys : List String) : Written → Option Value
  | object ps => do
    let picked ← ps.mapM fun p => do
      let key ← stringOf? p.1
      if keys.contains key then return some (key, ← p.2.valueWithin? (maxDepth - 1))
      else return none
    return .object (picked.filterMap id)
  | w => w.value?

end Written

end RueSyntax.Json
