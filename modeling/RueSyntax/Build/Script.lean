import RueSyntax.Build.FileSystem
import RueSyntax.Grammar.Description
import RueSyntax.Grammar.Usable

/-!
# The build

The build makes a library from the description of a grammar.  It reads the description, generates
the code of a parser and sees that it is for the grammar of the right name, before it touches any
file.  Then it writes the header that the code needs and the code, compiles the code, and tells the
caller what to link with.  Whatever fails ends it, and nothing is undone.  A compiler that makes no
library ends the process itself, so that no failure is reported then (`Ending`).

What does the real work is a `Toolchain`, about which nothing is assumed.
-/

namespace RueSyntax

namespace Build

/-- The tools of a build. -/
structure Toolchain where
  /-- The name of the grammar that a text describes, and the code of a parser for it. -/
  generate : String → Option (String × Bytes)
  /-- The header that generated code needs. -/
  header : Bytes
  /-- The library that compiling code with a header gives, if it gives one. -/
  archive : (code header : Bytes) → Option Bytes

/-- A run of the compiler, with what it found at the places of the code and of the header. -/
structure Compilation where
  code : Option Bytes
  header : Option Bytes
deriving DecidableEq, Repr

/-- The library that a run of the compiler makes.  It makes none without code or header. -/
def Toolchain.library? (tools : Toolchain) (run : Compilation) : Option Bytes := do
  tools.archive (← run.code) (← run.header)

/-- All that a build changes. -/
structure World where
  files : FileSystem
  printed : List String := []
  compilations : List Compilation := []

/-- Why a build fails. -/
inductive Failure where
  | variableNotSet (name : String)
  | unreadable (p : Path)
  | notGenerated
  | otherName (name : String)
  | io (e : IoError)
deriving DecidableEq, Repr

/-- How a build ends that has come to compile. -/
inductive Ending where
  | linked
  /-- There was no library, and the compiler has ended the process. -/
  | stopped
deriving DecidableEq, Repr

/-- The name that the grammar has to have. -/
def grammarName : String := "rue"

def Failure.message : Failure → String
  | variableNotSet _ => "environment variable not found"
  | unreadable p => "reading " ++ p.display
  | notGenerated => "generating parser tables for the Rue grammar"
  | otherName name => "grammar.json declares `" ++ name ++ "`, expected `" ++ grammarName ++ "`"
  | io e => e.message

/-- A build, or part of one. -/
abbrev Script := ExceptT Failure (StateM World)

def print (line : String) : Script Unit :=
  modify fun w => { w with printed := w.printed ++ [line] }

/-- Uses the file system, with a name for what may fail. -/
def onDisk {α : Type} (d : Disk α) (failure : IoError → Failure) : Script α := do
  let w ← get
  let (r, files) := d.run w.files
  set { w with files }
  match r with
  | .ok a => return a
  | .error e => throw (failure e)

/-- The directory that a variable of the environment names. -/
def directoryOf (environment : String → Option Path) (name : String) : Script Path :=
  match environment name with
  | some p => return p
  | none => throw (.variableNotSet name)

/-! ### Places -/

/-- Where a package keeps the description of its grammar. -/
def descriptionPath (package : Path) : Path := .entry (.entry package "src") "grammar.json"

def headerDirectory (out : Path) : Path := .entry out "tree_sitter"

def headerPath (out : Path) : Path := .entry (headerDirectory out) "parser.h"

def codePath (out : Path) : Path := .entry out "parser.c"

/-- What the library is linked as. -/
def libraryName : String := "tree-sitter-rue"

def libraryPath (out : Path) : Path := .entry out ("lib" ++ libraryName ++ ".a")

/-! ### Stages -/

/-- The text at a path, which has to be UTF-8. -/
def readText (p : Path) : Script String := do
  match Utf8.decode? (← onDisk (Disk.read p) fun _ => .unreadable p) with
  | some text => return text
  | none => throw (.unreadable p)

/-- Generates the parser and writes it with its header; answers where the code is. -/
def generateParser (tools : Toolchain) (description out : Path) : Script Path := do
  match tools.generate (← readText description) with
  | none => throw .notGenerated
  | some (name, code) =>
    if name ≠ grammarName then throw (.otherName name)
    onDisk (Disk.createDirectories (headerDirectory out)) .io
    onDisk (Disk.write (headerPath out) tools.header) .io
    onDisk (Disk.write (codePath out) code) .io
    return codePath out

/-- Runs the compiler once, and answers the library that it makes. -/
def runCompiler (tools : Toolchain) (code out : Path) : Script (Option Bytes) := do
  let files := (← get).files
  let run : Compilation := ⟨files.content? code, files.content? (headerPath out)⟩
  modify fun w => { w with compilations := w.compilations ++ [run] }
  return tools.library? run

/-- Compiles the parser to a library and says how to link with it. -/
def compileParser (tools : Toolchain) (code out : Path) : Script Ending := do
  match ← runCompiler tools code out with
  | none => return .stopped
  | some library =>
    modify fun w => { w with files := w.files.put (libraryPath out) (.file library) }
    print ("cargo:rustc-link-lib=static=" ++ libraryName)
    print ("cargo:rustc-link-search=native=" ++ out.display)
    return .linked

/-- The whole build.  The caller is told first that it depends on the description, also where the
rest fails. -/
def script (tools : Toolchain) (environment : String → Option Path) : Script Ending := do
  let package ← directoryOf environment "CARGO_MANIFEST_DIR"
  let out ← directoryOf environment "OUT_DIR"
  print ("cargo:rerun-if-changed=" ++ (descriptionPath package).display)
  compileParser tools (← generateParser tools (descriptionPath package) out) out

/-! ### Checking -/

/-- The name of the grammar that a text describes, if a parser can be made for it. -/
def nameOfUsable? (text : String) : Option String := do
  let g ← Grammar.ofText? text
  if g.isUsable then some g.name else none

/-- Tools that check the description as far as `Grammar.isUsable` goes.  The description stands for
the code, and the code for the library. -/
def checking (header : Bytes) : Toolchain where
  generate := fun text => (nameOfUsable? text).map fun name => (name, Bytes.ofString text)
  header := header
  archive := fun code _ => some code

end Build

end RueSyntax
