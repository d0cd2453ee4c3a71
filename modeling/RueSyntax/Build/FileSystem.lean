import RueSyntax.Build.Path
import RueSyntax.Text.Utf8

/-!
# File systems without links

A file system says what each path holds: a file with its bytes, a directory, or nothing.  A path
can be reached only if every path that it goes through is a directory.

An operation that the file system itself admits may fail all the same, for want of permission or
space.  `faults` says which operations do, and a write that fails may leave part of its bytes
behind.  Operations that fail otherwise change nothing, except that `createDirectories` may have
made some of the directories.
-/

namespace RueSyntax

/-- A failure as the operating system reports it. -/
structure IoError where
  code : Nat
  text : String
deriving DecidableEq, Repr

namespace IoError

def message (e : IoError) : String := e.text ++ " (os error " ++ toString e.code ++ ")"

def notFound : IoError := ⟨2, "No such file or directory"⟩

def alreadyExists : IoError := ⟨17, "File exists"⟩

def notADirectory : IoError := ⟨20, "Not a directory"⟩

def isADirectory : IoError := ⟨21, "Is a directory"⟩

end IoError

inductive Entry where
  | file (content : Bytes)
  | directory
deriving DecidableEq, Repr

/-- What may be asked of a file system. -/
inductive Operation where
  | read (p : Path)
  | makeDirectory (p : Path)
  | write (p : Path)
deriving DecidableEq, Repr

/-- A failure for reasons that are not described, and for a write what the file holds then, if
it has been touched at all. -/
structure Fault where
  error : IoError
  left : Option Bytes

structure FileSystem where
  entries : Path → Option Entry
  faults : Operation → Option Fault

namespace FileSystem

/-- What stands at a path that can be reached. -/
def find (fs : FileSystem) : Path → Except IoError Entry
  | .root name =>
    match fs.entries (.root name) with
    | some e => .ok e
    | none => .error .notFound
  | .entry d name =>
    match fs.find d with
    | .ok .directory =>
      match fs.entries (.entry d name) with
      | some e => .ok e
      | none => .error .notFound
    | .ok (.file _) => .error .notADirectory
    | .error e => .error e

/-- What stands at a path or may be put there: all before it has to be a directory. -/
def place (fs : FileSystem) (p : Path) : Except IoError (Option Entry) :=
  match p.parent? with
  | none => .ok (fs.entries p)
  | some d =>
    match fs.find d with
    | .ok .directory => .ok (fs.entries p)
    | .ok (.file _) => .error .notADirectory
    | .error e => .error e

def isDirectory (fs : FileSystem) (p : Path) : Bool :=
  match fs.find p with
  | .ok .directory => true
  | _ => false

def isFile (fs : FileSystem) (p : Path) : Bool :=
  match fs.find p with
  | .ok (.file _) => true
  | _ => false

/-- The bytes of the file at a path, if there is one. -/
def content? (fs : FileSystem) (p : Path) : Option Bytes :=
  match fs.find p with
  | .ok (.file content) => some content
  | _ => none

/-- Puts an entry at a path. -/
def put (fs : FileSystem) (p : Path) (e : Entry) : FileSystem where
  entries := fun q => if q = p then some e else fs.entries q
  faults := fs.faults

/-- Puts a file at a path if there are bytes to put there. -/
def putPart (fs : FileSystem) (p : Path) : Option Bytes → FileSystem
  | some content => fs.put p (.file content)
  | none => fs

end FileSystem

/-! ### Operations -/

/-- A use of a file system that may fail; what it has changed by then stays changed. -/
abbrev Disk := ExceptT IoError (StateM FileSystem)

namespace Disk

/-- What the file system says of itself. -/
def ask {α : Type} (f : FileSystem → Except IoError α) : Disk α := do
  MonadExcept.ofExcept (f (← get))

/-- Fails where an operation is bound to. -/
def check (o : Operation) : Disk Unit := do
  match (← get).faults o with
  | some f => throw f.error
  | none => pure ()

/-- The bytes of a file. -/
def read (p : Path) : Disk Bytes := do
  match ← ask (·.find p) with
  | .directory => throw .isADirectory
  | .file content =>
    check (.read p)
    return content

/-- Makes one directory where there is nothing yet. -/
def makeDirectory (p : Path) : Disk Unit := do
  match ← ask (·.place p) with
  | some _ => throw .alreadyExists
  | none =>
    check (.makeDirectory p)
    modify (·.put p .directory)

/-- Makes one directory, or finds it made. -/
def ensureDirectory (p : Path) : Disk Unit :=
  tryCatch (makeDirectory p) fun e => do
    if (← get).isDirectory p then pure () else throw e

/-- Makes a directory and, where it has no place yet, first the directory that it is to stand
in. -/
def createDirectories : Path → Disk Unit
  | .root name => ensureDirectory (.root name)
  | .entry d name =>
    tryCatch (ensureDirectory (.entry d name)) fun e => do
      if e = .notFound then
        createDirectories d
        ensureDirectory (.entry d name)
      else throw e

/-- Makes a file, or replaces all that it holds. -/
def write (p : Path) (content : Bytes) : Disk Unit := do
  match ← ask (·.place p) with
  | some .directory => throw .isADirectory
  | _ =>
    match (← get).faults (.write p) with
    | some f =>
      modify (·.putPart p f.left)
      throw f.error
    | none => modify (·.put p (.file content))

end Disk

end RueSyntax
