import RueSyntax.Grammar.Rue
import RueSyntax.Grammar.Symbol

/-!
# Loading parser tables

A parser table comes from an entry point, which may hand back nothing.  A table is only of use to a
runtime that knows its version, so the version is looked at before anything else: a table of another
version may be laid out in any way.

Loading has effects, and they are part of its meaning: the entry point is called, numbers of the
table are read, and an event is logged.  They are recorded in their order (`Effect`).  `load` takes
one entry point, `Call.run` either of the two operations, `runAll` any number of them.
-/

namespace RueSyntax

namespace Loading

/-- What is read of a table: its version and how many kinds of nodes and how many fields it has. -/
structure Table where
  abi : Nat
  nodeKinds : Nat
  fields : Nat
deriving DecidableEq, Repr

/-- The oldest version that the runtime accepts. -/
def oldest : Nat := 13

/-- The newest version that the runtime accepts, and the one that new tables get. -/
def newest : Nat := 14

/-- The table for a grammar. -/
def Table.ofGrammar (g : Grammar) : Table := ⟨newest, g.symbols.length, g.fields.length⟩

/-- What calling an entry point hands back. -/
abbrev EntryPoint := Option Table

/-- The entry point for Rue. -/
def EntryPoint.rue : EntryPoint := some (Table.ofGrammar Grammar.rue)

/-! ### Events and failures -/

inductive Level where
  | warn | debug
deriving DecidableEq, Repr

/-- What is logged. -/
inductive Event where
  | noTable
  | refused (found least greatest : Nat)
  | loaded (abi nodeKinds fields : Nat)
deriving DecidableEq, Repr

namespace Event

def level : Event → Level
  | noTable | refused _ _ _ => .warn
  | loaded _ _ _ => .debug

def message : Event → String
  | noTable => "grammar entry point returned a null table"
  | refused _ _ _ => "grammar ABI version not supported"
  | loaded _ _ _ => "grammar loaded"

/-- The numbers that go with the message. -/
def values : Event → List (String × Nat)
  | noTable => []
  | refused found least greatest => [("found", found), ("min", least), ("max", greatest)]
  | loaded abi nodeKinds fields => [("abi", abi), ("node_kinds", nodeKinds), ("fields", fields)]

end Event

/-- Why an entry point gives no table of use. -/
inductive Failure where
  | nullTable
  | incompatibleVersion (found least greatest : Nat)
deriving DecidableEq, Repr

namespace Failure

/-- The reason in words. -/
def reason : Failure → String
  | nullTable => "binding returned a null grammar table"
  | incompatibleVersion found least greatest =>
    "grammar ABI version " ++ toString found ++ " is outside the supported range "
      ++ toString least ++ "..=" ++ toString greatest

def message (f : Failure) : String := "Error loading Rue grammar: " ++ f.reason

end Failure

/-! ### Effects -/

/-- The numbers of a table. -/
inductive Quantity where
  | abi | nodeKinds | fields
deriving DecidableEq, Repr

inductive Effect where
  | entryCall
  | read (q : Quantity)
  | event (e : Event)
deriving DecidableEq, Repr

/-- A computation with effects, the last effect at the end. -/
abbrev Traced := StateM (List Effect)

def record (e : Effect) : Traced Unit := modify (· ++ [e])

def Effect.event? : Effect → Option Event
  | event e => some e
  | _ => none

namespace EntryPoint

def call (p : EntryPoint) : Traced (Option Table) := do
  record .entryCall
  return p

end EntryPoint

namespace Table

/-- Reads one of the numbers. -/
def read (t : Table) (q : Quantity) : Traced Nat := do
  record (.read q)
  return match q with
    | .abi => t.abi
    | .nodeKinds => t.nodeKinds
    | .fields => t.fields

/-- Whether the runtime takes the table, which is a question of the version alone. -/
def isAccepted (t : Table) : Traced Bool := do
  let abi ← t.read .abi
  return oldest ≤ abi && abi ≤ newest

end Table

/-! ### Operations -/

/-- Calls an entry point and hands on its table if that is one of use. -/
def load (p : EntryPoint) : Traced (Except Failure Table) := do
  match ← p.call with
  | none =>
    record (.event .noTable)
    return .error .nullTable
  | some t =>
    let found ← t.read .abi
    if ← t.isAccepted then
      record (.event (.loaded found (← t.read .nodeKinds) (← t.read .fields)))
      return .ok t
    else
      record (.event (.refused found oldest newest))
      return .error (.incompatibleVersion found oldest newest)

/-- Whether the table of the library's own entry point, which is the one for Rue, can be loaded. -/
def verify (own : EntryPoint := .rue) : Traced (Except Failure Unit) := do
  return (← load own).map fun _ => ()

/-- One use of the library. -/
inductive Call where
  | load (p : EntryPoint)
  | verify (own : EntryPoint := .rue)

/-- What a use answers: a table where it loads one. -/
def Call.run : Call → Traced (Except Failure (Option Table))
  | load p => do return (← Loading.load p).map some
  | verify own => do return (← Loading.verify own).map fun _ => none

/-- One use after the other. -/
def runAll (calls : List Call) : Traced (List (Except Failure (Option Table))) :=
  calls.mapM Call.run

end Loading

end RueSyntax
