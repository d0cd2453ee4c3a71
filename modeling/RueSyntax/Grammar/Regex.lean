import RueSyntax.Grammar.Rue
import RueSyntax.Text.Byte

/-!
# Regular expressions

A grammar gives the text of a leaf by literals and regular expressions.  A `Regex` is a regular
expression over bytes; `Regex.ofText?` reads what a grammar writes, with groups, classes, escapes
and repetitions, and refuses all else.  `Production.regex?` puts together what the production of a
token consists of.
-/

namespace RueSyntax

/-- A set of bytes: those in one of the ranges, or all others. -/
structure ByteClass where
  negated : Bool
  ranges : List (UInt8 × UInt8)
deriving DecidableEq, Repr

namespace ByteClass

def contains (c : ByteClass) (b : UInt8) : Bool :=
  c.negated != c.ranges.any fun r => r.1 ≤ b && b ≤ r.2

def only (b : UInt8) : ByteClass := ⟨false, [(b, b)]⟩

/-- The byte of a character that is encoded as one. -/
def byte? (c : Char) : Option UInt8 := if c.toNat < 128 then some c.toNat.toUInt8 else none

/-- What an escaped character stands for; letters only where they have a meaning. -/
def ofEscape? : Char → Option ByteClass
  | 'd' => some ⟨false, [(48, 57)]⟩
  | 's' => some ⟨false, [(9, 13), (32, 32)]⟩
  | c => if c.isAlphanum then none else (byte? c).map only

end ByteClass

/-- A regular expression over bytes. -/
inductive Regex where
  | empty
  | byte (c : ByteClass)
  | seq (p q : Regex)
  | star (p : Regex)
deriving DecidableEq, Repr

namespace Regex

def plus (p : Regex) : Regex := seq p (star p)

/-- The regular expressions one after the other. -/
def sequence (ps : List Regex) : Regex := ps.foldr seq empty

/-- The one of a single text. -/
def verbatim (w : Bytes) : Regex := sequence (w.map fun b => byte (.only b))

/-! ### Reading -/

mutual

/-- Reads on: `groups` are the groups that are open around it, innermost first, and
`parts` is what stands in it so far, each of them backwards. -/
def readFrom (groups : List (List Regex)) (parts : List Regex) : List Char → Option Regex
  | [] => if groups.isEmpty then some (sequence parts.reverse) else none
  | '(' :: cs => readFrom (parts :: groups) [] cs
  | ')' :: cs =>
    match groups with
    | [] => none
    | outer :: groups => readFrom groups (sequence parts.reverse :: outer) cs
  | '*' :: cs =>
    match parts with
    | [] => none
    | p :: parts => readFrom groups (star p :: parts) cs
  | '+' :: cs =>
    match parts with
    | [] => none
    | p :: parts => readFrom groups (plus p :: parts) cs
  | '.' :: cs => readFrom groups (byte ⟨true, [(Byte.newline, Byte.newline)]⟩ :: parts) cs
  | '\\' :: c :: cs =>
    match ByteClass.ofEscape? c with
    | some k => readFrom groups (byte k :: parts) cs
    | none => none
  | '[' :: '^' :: cs => readClass groups parts true [] cs
  | '[' :: cs => readClass groups parts false [] cs
  | c :: cs =>
    if c ∈ ['|', '?', '\x7b', '\x7d', '^', '$', ']', '\\'] then none
    else
      match ByteClass.byte? c with
      | some b => readFrom groups (byte (.only b) :: parts) cs
      | none => none

/-- Reads on in a class, behind its first ranges. -/
def readClass (groups : List (List Regex)) (parts : List Regex) (negated : Bool)
    (ranges : List (UInt8 × UInt8)) : List Char → Option Regex
  | [] => none
  | ']' :: cs => readFrom groups (byte ⟨negated, ranges.reverse⟩ :: parts) cs
  | c :: '-' :: d :: cs =>
    if c ∈ ['[', '\\'] ∨ d ∈ ['[', '\\', ']'] then none
    else
      match ByteClass.byte? c, ByteClass.byte? d with
      | some low, some high => readClass groups parts negated ((low, high) :: ranges) cs
      | _, _ => none
  | c :: cs =>
    if c ∈ ['[', '\\'] then none
    else
      match ByteClass.byte? c with
      | some b => readClass groups parts negated ((b, b) :: ranges) cs
      | none => none

end

/-- The regular expression that a text says. -/
def ofText? (text : String) : Option Regex := readFrom [] [] text.toList

example : ofText? "[a-z_]\\d+" = some (sequence [byte ⟨false, [(97, 122), (95, 95)]⟩,
    plus (byte ⟨false, [(48, 57)]⟩)]) := by decide

end Regex

namespace Production

mutual

/-- The regular expression of a token. -/
def regex? : Production → Option Regex
  | literal text => some (.verbatim (Bytes.ofString text))
  | pattern text none => Regex.ofText? text
  | seq ps => (regexesOf? ps).map .sequence
  | token _ p => regex? p
  | _ => none

def regexesOf? : List Production → Option (List Regex)
  | [] => some []
  | p :: ps => do
    let q ← regex? p
    let qs ← regexesOf? ps
    return q :: qs

end

end Production

/-- The regular expression of the rule of that name, if its production is that of a token. -/
def Grammar.regex? (g : Grammar) (name : String) : Option Regex :=
  (g.rules.lookup name).bind Production.regex?

example : ∀ name ∈ ["identifier", "integer_literal", "line_comment", "block_comment"],
    (Grammar.rue.regex? name).isSome = true := by decide

end RueSyntax
