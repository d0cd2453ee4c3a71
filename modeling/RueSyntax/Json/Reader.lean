import RueSyntax.Json.Written

/-!
# Reading JSON

The text is cut into tokens and the tokens drive a machine whose stack holds the arrays and objects
that are open.  The reader is strict about form: blanks are space, tab, line feed and carriage
return, strings hold no control characters, and nothing may follow the value.
-/

namespace RueSyntax.Json

/-- A token.  Numbers and the three words are values at once. -/
inductive Token where
  | beginArray | endArray | beginObject | endObject | comma | colon
  | literal (w : Written)
  | string (units : List Nat)

/-! ### Strings -/

def hexValue? (c : Char) : Option Nat :=
  let n := c.toNat
  if 48 ≤ n && n ≤ 57 then some (n - 48)
  else if 65 ≤ n && n ≤ 70 then some (n - 55)
  else if 97 ≤ n && n ≤ 102 then some (n - 87)
  else none

/-- The number that four digits spell. -/
def hexUnit? (a b c d : Char) : Option Nat := do
  return (← hexValue? a) * 4096 + (← hexValue? b) * 256 + (← hexValue? c) * 16 + (← hexValue? d)

/-- What a letter behind a backslash stands for. -/
def escape? : Char → Option Char
  | '"' => some '"'
  | '\\' => some '\\'
  | '/' => some '/'
  | 'b' => some '\x08'
  | 'f' => some '\x0c'
  | 'n' => some '\n'
  | 'r' => some '\r'
  | 't' => some '\t'
  | _ => none

/-- The characters up to the closing quote, and how many characters of the text they take, the
quote included.  Those before are given, the last one first, with what they take. -/
def stringUnits (before : List Nat) (taken : Nat) : List Char → Option (List Nat × Nat)
  | '"' :: _ => some (before.reverse, taken + 1)
  | '\\' :: 'u' :: a :: b :: c :: d :: cs =>
    match hexUnit? a b c d with
    | some u => stringUnits (u :: before) (taken + 6) cs
    | none => none
  | '\\' :: e :: cs =>
    match escape? e with
    | some c => stringUnits (c.toNat :: before) (taken + 2) cs
    | none => none
  | c :: cs => if c.toNat < 32 then none else stringUnits (c.toNat :: before) (taken + 1) cs
  | [] => none

/-! ### Tokens -/

/-- The characters of numerals. -/
def isNumeral (c : Char) : Bool :=
  c.isDigit || c == '-' || c == '+' || c == '.' || c == 'e' || c == 'E'

/-- The rest of a word that stands for a value. -/
def word? (rest : String) (w : Written) (cs : List Char) : Option (Token × Nat) :=
  if rest.toList.isPrefixOf cs then some (.literal w, rest.length) else none

/-- The token that begins with `c`, and how many characters it has behind that one. -/
def token? (c : Char) (cs : List Char) : Option (Token × Nat) :=
  match c with
  | '[' => some (.beginArray, 0)
  | ']' => some (.endArray, 0)
  | '\x7b' => some (.beginObject, 0)
  | '\x7d' => some (.endObject, 0)
  | ',' => some (.comma, 0)
  | ':' => some (.colon, 0)
  | 'n' => word? "ull" .null cs
  | 't' => word? "rue" (.boolean true) cs
  | 'f' => word? "alse" (.boolean false) cs
  | '"' => (stringUnits [] 0 cs).map fun s => (.string s.1, s.2)
  | _ =>
    let numeral := c :: cs.takeWhile isNumeral
    (Numeral.ofChars? numeral).map fun n => (.literal (.number n), numeral.length - 1)

def isBlank (c : Char) : Bool := c == ' ' || c == '\t' || c == '\n' || c == '\r'

/-- The tokens of a text of which the first `n` characters are part of the last token so far.
Those so far are given, the last one first. -/
def tokensFrom (before : List Token) : Nat → List Char → Option (List Token)
  | _, [] => some before.reverse
  | n + 1, _ :: cs => tokensFrom before n cs
  | 0, c :: cs =>
    if isBlank c then tokensFrom before 0 cs
    else
      match token? c cs with
      | some (t, n) => tokensFrom (t :: before) n cs
      | none => none

/-! ### The machine -/

/-- An array or object that is open, with its parts so far, the last one first. -/
inductive Frame where
  | array (ws : List Written)
  | object (ps : List (List Nat × Written)) (key : List Nat)

/-- What may come next. -/
inductive State where
  | value (fs : List Frame)
  | arrayStart (fs : List Frame)
  | objectStart (fs : List Frame)
  | key (ps : List (List Nat × Written)) (fs : List Frame)
  | colon (ps : List (List Nat × Written)) (key : List Nat) (fs : List Frame)
  | after (w : Written) (fs : List Frame)

/-- A token at which a value begins. -/
def beginValue (fs : List Frame) : Token → Option State
  | .literal w => some (.after w fs)
  | .string us => some (.after (.string us) fs)
  | .beginArray => some (.arrayStart fs)
  | .beginObject => some (.objectStart fs)
  | _ => none

def step : State → Token → Option State
  | .value fs, t => beginValue fs t
  | .arrayStart fs, .endArray => some (.after (.array []) fs)
  | .arrayStart fs, t => beginValue (.array [] :: fs) t
  | .objectStart fs, .endObject => some (.after (.object []) fs)
  | .objectStart fs, .string k => some (.colon [] k fs)
  | .key ps fs, .string k => some (.colon ps k fs)
  | .colon ps k fs, .colon => some (.value (.object ps k :: fs))
  | .after w (.array ws :: fs), .comma => some (.value (.array (w :: ws) :: fs))
  | .after w (.array ws :: fs), .endArray => some (.after (.array (w :: ws).reverse) fs)
  | .after w (.object ps k :: fs), .comma => some (.key ((k, w) :: ps) fs)
  | .after w (.object ps k :: fs), .endObject =>
    some (.after (.object ((k, w) :: ps).reverse) fs)
  | _, _ => none

/-- What a text has written, if it has the form of JSON. -/
def read? (text : String) : Option Written := do
  let ts ← tokensFrom [] 0 text.toList
  match ← ts.foldlM step (.value []) with
  | .after w [] => some w
  | _ => none

/-- The value of a text. -/
def Value.ofText? (text : String) : Option Value := (read? text).bind Written.value?

end RueSyntax.Json
