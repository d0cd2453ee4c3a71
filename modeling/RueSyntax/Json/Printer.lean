import RueSyntax.Json.Basic

/-!
# Writing JSON

Values are written without blanks.  Within a string the quote, the backslash and the characters
below space are escaped, and no others.
-/

namespace RueSyntax.Json

/-- One of the sixteen digits. -/
def hexDigit (n : Nat) : Char := if n < 10 then Char.ofNat (48 + n) else Char.ofNat (87 + n)

/-- A character within a string. -/
def escaped (c : Char) : List Char :=
  if c = '"' then ['\\', '"']
  else if c = '\\' then ['\\', '\\']
  else if c.toNat < 32 then
    ['\\', 'u', '0', '0', hexDigit (c.toNat / 16), hexDigit (c.toNat % 16)]
  else [c]

/-- A string with its quotes. -/
def quoted (s : String) : String := String.ofList ('"' :: s.toList.flatMap escaped ++ ['"'])

namespace Value

mutual

def text : Value → String
  | null => "null"
  | boolean b => if b then "true" else "false"
  | integer n => toString n
  | decimal numeral => numeral
  | string s => quoted s
  | array vs => "[" ++ elementsText vs ++ "]"
  | object ps => "\x7b" ++ pairsText ps ++ "\x7d"

def elementsText : List Value → String
  | [] => ""
  | [v] => text v
  | v :: vs => text v ++ "," ++ elementsText vs

def pairsText : List (String × Value) → String
  | [] => ""
  | [(k, v)] => quoted k ++ ":" ++ text v
  | (k, v) :: ps => quoted k ++ ":" ++ text v ++ "," ++ pairsText ps

end

end Value

end RueSyntax.Json
