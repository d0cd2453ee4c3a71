/-!
# JSON values

Objects keep their pairs in the order of the text.  A numeral without fraction and exponent is an
integer, any other is kept as it is written, since nothing here computes with it; minus zero is of
the second sort.
-/

namespace RueSyntax.Json

inductive Value where
  | null
  | boolean (b : Bool)
  | integer (n : Int)
  | decimal (numeral : String)
  | string (s : String)
  | array (vs : List Value)
  | object (ps : List (String × Value))
deriving Inhabited

namespace Value

/-- The pairs of an object. -/
def pairs? : Value → Option (List (String × Value))
  | object ps => some ps
  | _ => none

/-- The elements of an array. -/
def elements? : Value → Option (List Value)
  | array vs => some vs
  | _ => none

def string? : Value → Option String
  | string s => some s
  | _ => none

def boolean? : Value → Option Bool
  | boolean b => some b
  | _ => none

/-- An array of strings. -/
def ofStrings (ss : List String) : Value := array (ss.map string)

/-- The object with the first pair of key `k` given the value `v`; other values as they are. -/
def replace (w : Value) (k : String) (v : Value) : Value :=
  match w with
  | object ps => object (put ps)
  | w => w
where
  put : List (String × Value) → List (String × Value)
    | [] => []
    | p :: ps => if p.1 == k then (k, v) :: ps else p :: put ps

/-- The pairs with `(k, v)` before them: where `k` is a key already, the later value stands. -/
def pushFront (k : String) (v : Value) (ps : List (String × Value)) : List (String × Value) :=
  match ps.find? fun p => p.1 == k with
  | some p => (k, p.2) :: ps.filter fun q => !(q.1 == k)
  | none => (k, v) :: ps

mutual

/-- The value with every key given once in each object: in the place of the first pair of that key,
with the value of the last. -/
def lastOfEachKey : Value → Value
  | array vs => array (lastInEach vs)
  | object ps => object (lastInPairs ps)
  | v => v

def lastInEach : List Value → List Value
  | [] => []
  | v :: vs => lastOfEachKey v :: lastInEach vs

def lastInPairs : List (String × Value) → List (String × Value)
  | [] => []
  | (k, v) :: ps => pushFront k (lastOfEachKey v) (lastInPairs ps)

end

end Value

end RueSyntax.Json
