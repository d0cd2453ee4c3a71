/-!
# Paths

A path begins at a root and goes from directory to entry.  A root stands in surroundings that are
not described further, except that they are a directory.
-/

namespace RueSyntax

inductive Path where
  | root (name : String)
  | entry (directory : Path) (name : String)
deriving DecidableEq, Repr

namespace Path

/-- The names from the root on, with slashes between. -/
def display : Path → String
  | root name => name
  | entry d name => d.display ++ "/" ++ name

/-- The directory that a path is an entry of; that of a root is not described. -/
def parent? : Path → Option Path
  | root _ => none
  | entry d _ => some d

end Path

end RueSyntax
