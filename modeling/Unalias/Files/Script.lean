import Unalias.Path.Basic

/-!
Computations over a file system. A script is a tree of file operations, each followed by a script
for every answer, so that it can be performed, run on a tree in memory, or interleaved with others
one operation at a time.
-/

namespace Unalias

inductive OsError where
  | notFound
  | notDirectory
  | isDirectory
  | nameTooLong
  | tooManyLinks
  | nulInName
  | notUtf8
  | other (text : String)
  deriving DecidableEq, Repr

def OsError.message : OsError → String
  | .notFound => "No such file or directory (os error 2)"
  | .notDirectory => "Not a directory (os error 20)"
  | .isDirectory => "Is a directory (os error 21)"
  | .nameTooLong => "File name too long (os error 36)"
  | .tooManyLinks => "Too many levels of symbolic links (os error 40)"
  | .nulInName => "file name contained an unexpected NUL byte"
  | .notUtf8 => "stream did not contain valid UTF-8"
  | .other text => text

/-- What a path leads to once all links are followed. -/
inductive Kind where
  | file
  | directory
  deriving DecidableEq, Repr

/-- An entry below a directory, by the names on the way down to it, which are text. -/
structure Below where
  names : List String
  isFile : Bool
  deriving DecidableEq, Repr

/-- Why a walk over the entries below a directory came to a halt, and at which path, if the walk
knows of one. -/
structure Halt where
  path : Option Path
  cause : OsError
  deriving DecidableEq, Repr

/-- A halt at a path, of which the cause tells too. -/
def Halt.ofPath (p : Path) (cause : OsError) : Halt where
  path := some p
  cause := .other ("IO error for operation on " ++ p.text ++ ": " ++ cause.message)

inductive FileOp where
  | workingDirectory
  | kind (p : Path)
  | read (p : Path)
  | overwrite (p : Path) (text : String)
  | entries (root : Path)
  deriving DecidableEq, Repr

/-- The answers to an operation: a path that leads nowhere has no kind, and the entries below a
directory come in any order, links among them not followed, unless the walk comes to a halt. -/
def FileOp.Answer : FileOp → Type
  | .workingDirectory => Path
  | .kind _ => Option Kind
  | .read _ => Except OsError String
  | .overwrite _ _ => Except OsError Unit
  | .entries _ => Except Halt (List Below)

inductive Script (α : Type) : Type where
  | done (a : α)
  | perform (op : FileOp) (next : op.Answer → Script α)

namespace Script

variable {α β : Type}

def bind : Script α → (α → Script β) → Script β
  | .done a, f => f a
  | .perform op next, f => .perform op fun answer => (next answer).bind f

instance : Monad Script where
  pure := .done
  bind := .bind

@[simp]
theorem pure_eq (a : α) : (pure a : Script α) = .done a :=
  rfl

@[simp]
theorem done_bind (a : α) (f : α → Script β) : (Script.done a >>= f) = f a :=
  rfl

@[simp]
theorem perform_bind (op : FileOp) (next : op.Answer → Script α) (f : α → Script β) :
    (Script.perform op next >>= f) = .perform op fun answer => next answer >>= f :=
  rfl

theorem bind_done (s : Script α) : s.bind .done = s := by
  induction s with
  | done a => rfl
  | perform op next ih => exact congrArg (perform op) (funext ih)

theorem bind_assoc {γ : Type} (s : Script α) (f : α → Script β) (g : β → Script γ) :
    (s.bind f).bind g = s.bind fun a => (f a).bind g := by
  induction s with
  | done a => rfl
  | perform op next ih => exact congrArg (perform op) (funext ih)

instance : LawfulMonad Script :=
  LawfulMonad.mk' Script bind_done (fun _ _ => rfl) bind_assoc

def op (o : FileOp) : Script o.Answer :=
  .perform o .done

end Script

namespace Files

def workingDirectory : Script Path := Script.op .workingDirectory

def kind? (p : Path) : Script (Option Kind) := Script.op (.kind p)

def read (p : Path) : Script (Except OsError String) := Script.op (.read p)

def overwrite (p : Path) (text : String) : Script (Except OsError Unit) :=
  Script.op (.overwrite p text)

def entries (root : Path) : Script (Except Halt (List Below)) := Script.op (.entries root)

def doesExist (p : Path) : Script Bool := do
  return (← kind? p).isSome

def isFile (p : Path) : Script Bool := do
  return (← kind? p) = some .file

def isDirectory (p : Path) : Script Bool := do
  return (← kind? p) = some .directory

end Files

end Unalias
