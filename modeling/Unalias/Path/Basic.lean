import Unalias.Text.Split
import Unalias.Text.Utf8

/-!
Slash-separated paths. A path keeps the text it was written with; `components` reads that text as
a walk, so that repeated and trailing slashes and inner `.` pieces do not count.

Paths are Unicode text throughout: a name on a disk whose bytes are not UTF-8 is in no path, and
what is said of all paths is not said of it. Only where names are printed are they taken as bytes,
as `joined` does, since that is where two of them can come to look alike.
-/

namespace Unalias

structure Path where
  text : String
  deriving DecidableEq, Inhabited, Repr

namespace Path

/-- One step of the walk a path describes. -/
inductive Component where
  | root
  | current
  | parent
  | name (s : String)
  deriving DecidableEq, Repr

def Component.text : Component → String
  | .root => "/"
  | .current => "."
  | .parent => ".."
  | .name s => s

/-- The step a piece stands for; an empty piece and `.` stand for none. -/
def Component.ofPiece? (piece : List Char) : Option Component :=
  if piece = [] ∨ piece = ['.'] then none
  else if piece = ['.', '.'] then some .parent
  else some (.name (String.ofList piece))

/-- A relative path that starts with `.` starts with the step `current`; no other `.` is a step. -/
def components (p : Path) : List Component :=
  match p.text.toList with
  | '/' :: cs => .root :: (Text.split '/' cs).filterMap Component.ofPiece?
  | cs =>
    match Text.split '/' cs with
    | ['.'] :: ps => .current :: ps.filterMap Component.ofPiece?
    | ps => ps.filterMap Component.ofPiece?

/-- The path that takes the given steps, written without a slash too many. -/
def ofComponents : List Component → Path
  | .root :: cs => ⟨"/" ++ "/".intercalate (cs.map Component.text)⟩
  | cs => ⟨"/".intercalate (cs.map Component.text)⟩

def isAbsolute (p : Path) : Bool :=
  p.text.toList.head? = some '/'

/-- An absolute `q` replaces `p`; any other is appended after one slash. -/
def join (p q : Path) : Path :=
  if q.isAbsolute then q
  else if p.text = "" ∨ p.text.toList.getLast? = some '/' then ⟨p.text ++ q.text⟩
  else ⟨p.text ++ "/" ++ q.text⟩

/-- The path without its last step; a path without steps and the root have no parent. -/
def parent? (p : Path) : Option Path :=
  match p.components.getLast? with
  | none => none
  | some .root => none
  | some _ => some (ofComponents p.components.dropLast)

/-- What is left of `p` below `base`, if the steps of `p` start with those of `base`. -/
def stripPrefix? (p base : Path) : Option Path :=
  (base.components.isPrefixOf? p.components).map ofComponents

/-- Names joined by slashes, each as it is shown. -/
def joined (names : List ByteArray) : String :=
  "/".intercalate (names.map Text.shown)

/-- The steps joined by slashes. The root is itself a step, written as a slash. -/
def toSlash (p : Path) : String :=
  joined (p.components.map fun c => c.text.toUTF8)

def maxLength : Nat := 4095

def fits (p : Path) : Bool :=
  p.text.utf8ByteSize ≤ maxLength

/-- The path at the end of names below `p`. -/
def down (p : Path) (names : List String) : Path :=
  names.foldl (fun p name => p.join ⟨name⟩) p

def addSuffix (p : Path) (suffix : String) : Path :=
  ⟨p.text ++ suffix⟩

end Path

end Unalias
