import Unalias.CommandLine.Command
import Unalias.Text.Utf8

/-!
The program: scripts are performed on the file system, and replies are printed.
-/

namespace Unalias

/-- The number of a refusal; some operations give it with a minus. -/
def errorNumber (e : IO.Error) : UInt32 :=
  match e with
  | .noFileOrDirectory _ n _ | .inappropriateType _ n _ | .invalidArgument _ n _ => min n (0 - n)
  | _ => 0

def OsError.ofSystem (e : IO.Error) : OsError :=
  match errorNumber e with
  | 2 => .notFound
  | 20 => .notDirectory
  | 21 => .isDirectory
  | 36 => .nameTooLong
  | 40 => .tooManyLinks
  | _ => .other (toString e)

/-- The answer of the system, or why it refuses one. -/
def asked {α : Type} (action : IO α) : IO (Except OsError α) := do
  try return .ok (← action) catch e => return .error (.ofSystem e)

def kindOnDisk (p : Path) : IO (Option Kind) := do
  match ← asked (do return (← (← IO.FS.realPath p.text).metadata).type) with
  | .ok .dir => return some .directory
  | .ok _ => return some .file
  | .error _ => return none

def readFromDisk (p : Path) : IO (Except OsError String) := do
  match ← asked (IO.FS.readBinFile p.text) with
  | .error e => return .error e
  | .ok bytes =>
    match String.fromUTF8? bytes with
    | some text => return .ok text
    | none => return .error .notUtf8

/-- What a walk does at a path; it comes to a halt there if the system refuses. -/
def walked {α : Type} (p : Path) (action : IO α) : ExceptT Halt IO α := do
  match ← asked action with
  | .ok a => return a
  | .error e => throw (.ofPath p e)

/-- The entries below the directory `p`, to which `names` lead. -/
partial def entriesOnDisk (p : Path) (names : List String) : ExceptT Halt IO (List Below) := do
  let mut found := []
  for e in ← walked p (do (← IO.FS.realPath p.text).readDir) do
    let below := p.join ⟨e.fileName⟩
    let type := (← walked below e.path.symlinkMetadata).type
    found := ⟨names ++ [e.fileName], type == .file⟩ :: found
    if type == .dir then found := (← entriesOnDisk below (names ++ [e.fileName])) ++ found
  return found

def FileOp.perform : (op : FileOp) → IO op.Answer
  | .workingDirectory => do return ⟨(← IO.currentDir).toString⟩
  | .kind p => kindOnDisk p
  | .read p => readFromDisk p
  | .overwrite p text => asked (IO.FS.writeFile p.text text)
  | .entries root => (entriesOnDisk root []).run

def Script.execute {α : Type} : Script α → IO α
  | .done a => return a
  | .perform op next => do (next (← op.perform)).execute

def environment : IO (List (String × String)) := do
  let bytes ← IO.FS.readBinFile "/proc/self/environ"
  let entries := Text.split '\x00' (Text.decode bytes.toList)
  return entries.map fun entry =>
    let name := entry.takeWhile (· ≠ '=')
    (String.ofList name, String.ofList (entry.drop (name.length + 1)))

end Unalias

open Unalias in
def main (args : List String) : IO UInt32 := do
  let reply ← (Command.respond args (← environment)).execute
  for text in reply.printed do IO.println text
  for line in reply.remarks do IO.eprintln line
  return reply.exitCode.toUInt32
