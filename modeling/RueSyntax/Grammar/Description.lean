import RueSyntax.Grammar.Basic
import RueSyntax.Grammar.CommentLine
import RueSyntax.Json.Printer
import RueSyntax.Json.Reader

/-!
# Grammar descriptions

A grammar is described by a JSON object.  Each production is an object with a `type` and, according
to the type, the keys `value`, `name`, `content`, `members`, `named` and `flags`.  Instead of such
an object there may be an array of the values for all its keys in their order, the type first; and
within another production the type may be given by its number.

`Grammar.describe` writes a description, `Grammar.ofDescription?` reads one, and `Grammar.ofText?`
reads one from a text, which may hold comment lines.
-/

namespace RueSyntax

open Json

/-! ### Writing -/

/-- An object with a `type`. -/
def typed (type : String) (ps : List (String × Value)) : Value :=
  .object (("type", .string type) :: ps)

def Rank.describe : Rank → Value
  | number n => .integer n
  | named s => .string s

def Grouping.typeName : Grouping → String
  | plain => "PREC"
  | left => "PREC_LEFT"
  | right => "PREC_RIGHT"
  | dynamic => "PREC_DYNAMIC"

namespace Production

mutual

def describe : Production → Value
  | blank => typed "BLANK" []
  | literal text => typed "STRING" [("value", .string text)]
  | pattern regex flags =>
    typed "PATTERN"
      (("value", .string regex) :: flags.toList.map fun f => ("flags", .string f))
  | symbol name => typed "SYMBOL" [("name", .string name)]
  | seq ps => typed "SEQ" [("members", .array (describeAll ps))]
  | choice ps => typed "CHOICE" [("members", .array (describeAll ps))]
  | repetition atLeastOnce p =>
    typed (if atLeastOnce then "REPEAT1" else "REPEAT") [("content", describe p)]
  | field name p => typed "FIELD" [("name", .string name), ("content", describe p)]
  | renamed name isNamed p =>
    typed "ALIAS"
      [("content", describe p), ("named", .boolean isNamed), ("value", .string name)]
  | ranked g r p => typed g.typeName [("value", r.describe), ("content", describe p)]
  | token immediate p =>
    typed (if immediate then "IMMEDIATE_TOKEN" else "TOKEN") [("content", describe p)]

def describeAll : List Production → List Value
  | [] => []
  | p :: ps => describe p :: describeAll ps

end

end Production

def Precedent.describe : Precedent → Value
  | rank name => (Production.literal name).describe
  | rule name => (Production.symbol name).describe

/-- The description of a grammar. -/
def Grammar.describe (g : Grammar) : Value :=
  .object [
    ("name", .string g.name),
    ("word", (g.word.map Value.string).getD .null),
    ("rules", .object (g.rules.map fun r => (r.1, r.2.describe))),
    ("extras", .array (g.extras.map Production.describe)),
    ("conflicts", .array (g.conflicts.map Value.ofStrings)),
    ("precedences", .array (g.precedences.map fun ps => .array (ps.map Precedent.describe))),
    ("externals", .array (g.externals.map Production.describe)),
    ("inline", .ofStrings g.inlined),
    ("supertypes", .ofStrings g.supertypes)]

/-! ### Reading -/

/-- The value of a key that may be missing but may not be given twice. -/
def member? {α : Type} (ps : List (String × α)) (key : String) : Option (Option α) :=
  match ps.filter fun p => p.1 == key with
  | [] => some none
  | [p] => some (some p.2)
  | _ => none

/-- The value of a key that must be given. -/
def required? {α : Type} (ps : List (String × α)) (key : String) : Option α :=
  (member? ps key).join

/-- Values for these keys in their order. -/
def inOrder? {α : Type} (keys : List String) (vs : List α) : Option (List (String × α)) :=
  if keys.length = vs.length then some (keys.zip vs) else none

/-- A number of 32 bits with sign. -/
def rankNumber? (n : Int) : Option Rank :=
  if -2147483648 ≤ n ∧ n ≤ 2147483647 then some (.number n) else none

def Rank.ofValue? : Value → Option Rank
  | .integer n => rankNumber? n
  | .string s => some (.named s)
  | _ => none

/-- The precedence that a grouping admits: a dynamic one is a number. -/
def Grouping.rank? : Grouping → Value → Option Rank
  | .dynamic, .integer n => rankNumber? n
  | .dynamic, _ => none
  | _, v => Rank.ofValue? v

namespace Production

/-- The types of productions in the order of their numbers. -/
def types : List String := [
  "ALIAS", "BLANK", "STRING", "PATTERN", "SYMBOL", "CHOICE", "FIELD", "SEQ", "REPEAT", "REPEAT1",
  "PREC_DYNAMIC", "PREC_LEFT", "PREC_RIGHT", "PREC", "TOKEN", "IMMEDIATE_TOKEN"]

/-- A type by its name or its number. -/
def type? : Value → Option String
  | .string s => if types.contains s then some s else none
  | .integer n => if n < 0 then none else types[n.toNat]?
  | _ => none

/-- The keys of a type in their order. -/
def keysOf : String → List String
  | "BLANK" => []
  | "STRING" => ["value"]
  | "PATTERN" => ["value", "flags"]
  | "SYMBOL" => ["name"]
  | "SEQ" | "CHOICE" => ["members"]
  | "FIELD" => ["name", "content"]
  | "ALIAS" => ["content", "named", "value"]
  | "PREC" | "PREC_LEFT" | "PREC_RIGHT" | "PREC_DYNAMIC" => ["value", "content"]
  | _ => ["content"]

/-- What a JSON value may stand for: itself, a production, or the elements of an array as
productions. -/
structure Part where
  value : Value
  production : Option Production
  productions : Option (List Production)

/-- The parts of an object by their keys. -/
abbrev Parts := List (String × Part)

namespace Parts

def value? (ps : Parts) (key : String) : Option Value := (required? ps key).map Part.value

def string? (ps : Parts) (key : String) : Option String := (ps.value? key).bind Value.string?

def content? (ps : Parts) : Option Production := (required? ps "content").bind Part.production

def members? (ps : Parts) : Option (List Production) :=
  (required? ps "members").bind Part.productions

/-- The `flags` of a pattern: a string, or nothing. -/
def flags? (ps : Parts) : Option (Option String) :=
  match member? ps "flags" with
  | none => none
  | some none => some none
  | some (some p) =>
    match p.value with
    | .null => some none
    | .string f => some (some f)
    | _ => none

/-- The content under a precedence. -/
def ranked? (ps : Parts) (g : Grouping) : Option Production := do
  return .ranked g (← g.rank? (← ps.value? "value")) (← ps.content?)

/-- The production of that type with these parts. -/
def assemble? (ps : Parts) : String → Option Production
  | "BLANK" => some .blank
  | "STRING" => return .literal (← ps.string? "value")
  | "PATTERN" => return .pattern (← ps.string? "value") (← ps.flags?)
  | "SYMBOL" => return .symbol (← ps.string? "name")
  | "SEQ" => return .seq (← ps.members?)
  | "CHOICE" => return .choice (← ps.members?)
  | "REPEAT" => return .repetition false (← ps.content?)
  | "REPEAT1" => return .repetition true (← ps.content?)
  | "FIELD" => return .field (← ps.string? "name") (← ps.content?)
  | "ALIAS" => do
    let isNamed ← (← ps.value? "named").boolean?
    return .renamed (← ps.string? "value") isNamed (← ps.content?)
  | "PREC" => ps.ranked? .plain
  | "PREC_LEFT" => ps.ranked? .left
  | "PREC_RIGHT" => ps.ranked? .right
  | "PREC_DYNAMIC" => ps.ranked? .dynamic
  | "TOKEN" => return .token false (← ps.content?)
  | "IMMEDIATE_TOKEN" => return .token true (← ps.content?)
  | _ => none

end Parts

mutual

/-- The production that a value describes. -/
def ofValue? : Value → Option Production
  | .object ps =>
    let parts : Parts := partsOf ps
    ((parts.value? "type").bind type?).bind parts.assemble?
  | .array (t :: vs) =>
    match type? t with
    | some type => (inOrder? (keysOf type) (unkeyedParts vs)).bind fun ps => Parts.assemble? ps type
    | none => none
  | _ => none

def ofValues? : List Value → Option (List Production)
  | [] => some []
  | v :: vs => return (← ofValue? v) :: (← ofValues? vs)

/-- The productions that the elements of an array describe. -/
def ofElements? : Value → Option (List Production)
  | .array vs => ofValues? vs
  | _ => none

def partsOf : List (String × Value) → List (String × Part)
  | [] => []
  | (key, v) :: ps => (key, ⟨v, ofValue? v, ofElements? v⟩) :: partsOf ps

def unkeyedParts : List Value → List Part
  | [] => []
  | v :: vs => ⟨v, ofValue? v, ofElements? v⟩ :: unkeyedParts vs

end

/-- Whether a value gives its type by name. -/
def isTypedByName : Value → Bool
  | .object ps => ((required? ps "type").bind Value.string?).isSome
  | .array (.string _ :: _) => true
  | _ => false

/-- The production that a value describes which is not part of another one. -/
def ofOuter? (v : Value) : Option Production := if isTypedByName v then ofValue? v else none

/-- The productions that the elements of an array describe, of which none is part of another. -/
def ofOuters? (v : Value) : Option (List Production) := do (← v.elements?).mapM ofOuter?

end Production

/-- A precedence is written as a literal, a rule as its symbol. -/
def Precedent.ofProduction? : Production → Option Precedent
  | .literal name => some (rank name)
  | .symbol name => some (rule name)
  | _ => none

/-- What the elements of an array put in order. -/
def Precedent.ofElements? (v : Value) : Option (List Precedent) := do
  (← Production.ofOuters? v).mapM ofProduction?

/-- The value of a key that may be missing, or the given one. -/
def listed? {α : Type} (ps : List (String × Value)) (key : String)
    (f : Value → Option (List α)) : Option (List α) :=
  match member? ps key with
  | none => none
  | some none => some []
  | some (some v) => f v

def strings? (v : Value) : Option (List String) := do (← v.elements?).mapM Value.string?

def lists? {α : Type} (f : Value → Option (List α)) (v : Value) : Option (List (List α)) := do
  (← v.elements?).mapM f

/-- A name that may be missing or null. -/
def name? (ps : List (String × Value)) (key : String) : Option (Option String) :=
  match member? ps key with
  | none => none
  | some none => some none
  | some (some .null) => some none
  | some (some (.string s)) => some (some s)
  | some (some _) => none

namespace Grammar

/-- The rules, one production each.  Of pairs with the same key, here and within the productions,
the value is that of the last one and the place that of the first one. -/
def rules? (v : Value) : Option (List (String × Production)) := do
  (← v.lastOfEachKey.pairs?).mapM fun r => return (r.1, ← Production.ofOuter? r.2)

/-- The keys of a description in their order. -/
def descriptionKeys : List String := [
  "name", "rules", "precedences", "conflicts", "externals", "extras", "inline", "supertypes",
  "word"]

/-- The pairs of a description. -/
def descriptionPairs? : Value → Option (List (String × Value))
  | .object ps => some ps
  | .array vs => inOrder? descriptionKeys vs
  | _ => none

/-- The grammar that a description gives.  Keys that mean nothing are passed over. -/
def ofDescription? (v : Value) : Option Grammar := do
  let ps ← descriptionPairs? v
  let name ← (← required? ps "name").string?
  let rules ← rules? (← required? ps "rules")
  let precedences ← listed? ps "precedences" (lists? Precedent.ofElements?)
  let conflicts ← listed? ps "conflicts" (lists? strings?)
  let externals ← listed? ps "externals" Production.ofOuters?
  let extras ← listed? ps "extras" Production.ofOuters?
  let inlined ← listed? ps "inline" strings?
  let supertypes ← listed? ps "supertypes" strings?
  let word ← name? ps "word"
  return { name, word, rules, extras, externals, conflicts, precedences, inlined, supertypes }

/-- The grammar that a text describes, comment lines aside.  What is written for keys that mean
nothing need not have a value. -/
def ofText? (text : String) : Option Grammar := do
  ofDescription? (← (← Json.read? (withoutCommentLines text)).pick? descriptionKeys)

end Grammar

end RueSyntax
