import Unalias.Files.Attempt

/-!
The compiled files below a directory, in the order of their paths, name by name. A walk that comes
to a halt gives no files at all.
-/

namespace Unalias

/-- A file that is to be looked through: its path, and its key in reports, which shows the way to it
from the directory that was scanned. -/
structure Scanned where
  path : Path
  key : String
  deriving DecidableEq, Repr

namespace Scanned

def extensions : List String := ["js", "jsx", "ts", "tsx"]

/-- What stands behind the last dot of a name, if anything stands before that dot. -/
def extension? (name : String) : Option String :=
  match (Text.split '.' name.toList).reverse with
  | [_] => none
  | [_, []] => none
  | last :: _ => some (String.ofList last)
  | [] => none

/-- What stands behind the dot that a name begins with. -/
def undotted? (name : String) : Option String :=
  match name.toList with
  | '.' :: cs => some (String.ofList cs)
  | _ => none

/-- A name without an extension counts for one if it begins with a dot. -/
def isCompiled (name : String) : Bool :=
  ((extension? name).or (undotted? name)).any extensions.contains

def below (root : Path) (names : List String) : Scanned :=
  ⟨root.down names, Path.joined (names.map String.toUTF8)⟩

/-- Whether names stand in order, the first that differ deciding. -/
def precedes : List String → List String → Bool
  | [], _ => true
  | _ :: _, [] => false
  | a :: as, b :: bs => if a = b then precedes as bs else a < b

def ofEntries (root : Path) (entries : List Below) : List Scanned :=
  let found := entries.filter fun e => e.isFile && e.names.getLast?.any isCompiled
  ((found.map Below.names).mergeSort precedes).map (below root)

end Scanned

namespace Files

/-- Whether a path stands for standard input, below which nothing lies. -/
def isInput (p : Path) : Bool :=
  p.components = [.name "-"]

/-- The compiled files below a directory; there are none below anything else. -/
def scan (root : Path) : Attempt (List Scanned) := do
  if isInput root then return []
  if ← isDirectory root then return Scanned.ofEntries root (← Attempt.entries root)
  return []

end Files

end Unalias
