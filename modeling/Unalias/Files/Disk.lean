import Unalias.Files.Script
import Unalias.Keyed

/-!
A file tree in memory, as the system sees it: paths are walked name by name, symbolic links are
followed, and a script can be run on it. All names in a tree are text, every file in it can be
written, and no file has two names.
-/

namespace Unalias

/-- Where an entry lies: the names on the way down from the root directory. -/
abbrev Location := List String

inductive Entry where
  | file (bytes : ByteArray)
  | directory
  | link (target : Path)

def Entry.isDirectory : Entry → Bool
  | .directory => true
  | _ => false

def Entry.isFile : Entry → Bool
  | .file _ => true
  | _ => false

/-- The root directory itself is always there and not listed. -/
structure Disk where
  workingDirectory : Location
  entries : List (Location × Entry)
  nodup : (entries.map Prod.fst).Nodup

namespace Disk

def get? (d : Disk) (l : Location) : Option Entry :=
  if l = [] then some .directory else d.entries.lookup l

def maxName : Nat := 255

def maxLinks : Nat := 40

/-- The names a path leads through. A slash at the end asks for a directory, as a last `.` does. -/
def namesOf (p : Path) : List String :=
  let pieces := (Text.split '/' p.text.toList).filter (· ≠ [])
  let asked := if p.text.toList.getLast? = some '/' then pieces ++ [['.']] else pieces
  asked.map String.ofList

def startOf (here : Location) (p : Path) : Location :=
  if p.isAbsolute then [] else here

/-- Walks on from `here`, which is no link, and follows at most `links` links. -/
def walk (d : Disk) (links : Nat) (here : Location) (names : List String) :
    Except OsError Location :=
  match names with
  | [] => .ok here
  | name :: rest =>
    if !(d.get? here).any Entry.isDirectory then .error .notDirectory
    else if name = "." then d.walk links here rest
    else if name = ".." then d.walk links here.dropLast rest
    else if maxName < name.utf8ByteSize then .error .nameTooLong
    else
      match d.get? (here ++ [name]) with
      | none => .error .notFound
      | some (.link target) =>
        match links with
        | 0 => .error .tooManyLinks
        | links + 1 => d.walk links (startOf here target) (namesOf target ++ rest)
      | some _ => d.walk links (here ++ [name]) rest
termination_by (links, names.length)

def locate (d : Disk) (p : Path) : Except OsError Location :=
  if '\x00' ∈ p.text.toList then .error .nulInName
  else if p.text = "" then .error .notFound
  else if ¬ p.fits then .error .nameTooLong
  else d.walk maxLinks (startOf d.workingDirectory p) (namesOf p)

def kind? (d : Disk) (p : Path) : Option Kind :=
  match d.locate p with
  | .error _ => none
  | .ok l =>
    match d.get? l with
    | some .directory => some .directory
    | some (.file _) => some .file
    | _ => none

def read (d : Disk) (p : Path) : Except OsError String :=
  match d.locate p with
  | .error e => .error e
  | .ok l =>
    match d.get? l with
    | some (.file bytes) =>
      match String.fromUTF8? bytes with
      | some text => .ok text
      | none => .error .notUtf8
    | some .directory => .error .isDirectory
    | _ => .error .notFound

/-- Replaces the entry at a location, or adds it after all others. -/
def set (d : Disk) (l : Location) (e : Entry) : Disk where
  workingDirectory := d.workingDirectory
  entries := Keyed.set l e d.entries
  nodup := Keyed.nodup_keys_set d.nodup

theorem get?_set (d : Disk) (l k : Location) (e : Entry) (hk : k ≠ []) :
    (d.set l e).get? k = if k = l then some e else d.get? k := by
  rw [get?, if_neg hk, get?, if_neg hk]
  exact Keyed.lookup_set l k e d.entries

/-- Any file can be written, and it alone changes: no tree has files that are guarded against it,
or a full disk, or a file with a second name. -/
def overwrite (d : Disk) (p : Path) (text : String) : Except OsError Unit × Disk :=
  match d.locate p with
  | .error e => (.error e, d)
  | .ok l =>
    match d.get? l with
    | some (.file _) => (.ok (), d.set l (.file text.toUTF8))
    | some .directory => (.error .isDirectory, d)
    | _ => (.error .notFound, d)

/-- What lies below a directory, by the names on the way down. -/
def inside (d : Disk) (root : Path) : List (List String × Entry) :=
  match d.locate root with
  | .error _ => []
  | .ok l =>
    d.entries.filterMap fun (k, e) =>
      match l.isPrefixOf? k with
      | none => none
      | some [] => none
      | some names => some (names, e)

/-- Whether an entry is a directory that a walk from `root` comes to and cannot open. -/
def isShut (root : Path) (x : List String × Entry) : Bool :=
  x.2.isDirectory && (root.down x.1.dropLast).fits && !(root.down x.1).fits

/-- The first directory that a walk cannot open, if there is one. -/
def halt? (d : Disk) (root : Path) : Option Halt :=
  ((d.inside root).find? (isShut root)).map fun x => .ofPath (root.down x.1) .nameTooLong

def listing (d : Disk) (root : Path) : List Below :=
  (d.inside root).map fun x => ⟨x.1, x.2.isFile⟩

def below (d : Disk) (root : Path) : Except Halt (List Below) :=
  match d.halt? root with
  | some halt => .error halt
  | none => .ok (d.listing root)

/-- The answer to one operation, and the tree after it. -/
def answer (d : Disk) : (op : FileOp) → op.Answer × Disk
  | .workingDirectory => (⟨"/" ++ "/".intercalate d.workingDirectory⟩, d)
  | .kind p => (d.kind? p, d)
  | .read p => (d.read p, d)
  | .overwrite p text => d.overwrite p text
  | .entries root => (d.below root, d)

end Disk

def Script.run {α : Type} : Script α → Disk → α × Disk
  | .done a, d => (a, d)
  | .perform op next, d => (next (d.answer op).1).run (d.answer op).2

namespace Script

variable {α β : Type}

@[simp]
theorem run_done (a : α) (d : Disk) : (Script.done a).run d = (a, d) :=
  rfl

theorem run_bind (s : Script α) (f : α → Script β) (d : Disk) :
    (s >>= f).run d = (f (s.run d).1).run (s.run d).2 := by
  induction s generalizing d with
  | done a => rfl
  | perform op next ih => exact ih _ _

end Script

namespace Disk

/-! ### Building a tree -/

def bare (here : Location) : Disk :=
  (List.range here.length).foldl (fun d n => d.set (here.take (n + 1)) .directory)
    ⟨here, [], List.nodup_nil⟩

/-- Steps into a directory below `here`, which is made if nothing is there. -/
def enter : Disk × Location → String → Disk × Location
  | (d, here), name =>
    match d.get? (here ++ [name]) with
    | none => (d.set (here ++ [name]) .directory, here ++ [name])
    | some (.link target) =>
      match d.walk maxLinks (startOf here target) (namesOf target) with
      | .ok l => (d, l)
      | .error _ => (d, here ++ [name])
    | some _ => (d, here ++ [name])

/-- The directory that names lead to from `here`, made where it is missing. -/
def enterAll (d : Disk) (here : Location) (names : List String) : Disk × Location :=
  names.foldl
    (fun s name =>
      if name = "." then s else if name = ".." then (s.1, s.2.dropLast) else enter s name)
    (d, here)

/-- Where a file at the end of `names` lies or would lie. Links are followed; only the directory
of the file must be there. -/
def place (d : Disk) (links : Nat) (here : Location) (names : List String) :
    Except OsError Location :=
  match names.getLast? with
  | none => .error .isDirectory
  | some name =>
    if name = "." ∨ name = ".." then .error .isDirectory
    else
      match d.walk maxLinks here names.dropLast with
      | .error e => .error e
      | .ok here =>
        if !(d.get? here).any Entry.isDirectory then .error .notDirectory
        else
          match d.get? (here ++ [name]), links with
          | some (.link target), links + 1 => d.place links (startOf here target) (namesOf target)
          | some (.link _), 0 => .error .tooManyLinks
          | some .directory, _ => .error .isDirectory
          | _, _ => .ok (here ++ [name])

/-- Puts an entry at a path, with the directories above it. A file put where a link stands goes to
where the link leads. -/
def put (d : Disk) (p : Path) (e : Entry) : Disk :=
  let names := namesOf p
  let start := startOf d.workingDirectory p
  match e, names.getLast? with
  | .directory, _ => (d.enterAll start names).1
  | _, none => d
  | .file bytes, some name =>
    let (d, here) := d.enterAll start names.dropLast
    match d.place maxLinks here [name] with
    | .ok l => d.set l (.file bytes)
    | .error _ => d
  | .link target, some name =>
    let (d, here) := d.enterAll start names.dropLast
    d.set (here ++ [name]) (.link target)

def filter (d : Disk) (keep : Location → Bool) : Disk where
  workingDirectory := d.workingDirectory
  entries := d.entries.filter fun x => keep x.1
  nodup := d.nodup.sublist (List.filter_sublist.map Prod.fst)

/-- Where the entry itself lies that a path names: a link at the end is followed only if a slash
stands after it. -/
def entryAt (d : Disk) (p : Path) : Except OsError Location :=
  let names := namesOf p
  let start := startOf d.workingDirectory p
  match names.getLast? with
  | none => .ok start
  | some name =>
    if name = "." ∨ name = ".." then d.walk maxLinks start names
    else (d.walk maxLinks start names.dropLast).map (· ++ [name])

/-- Removes the entry at a path and all that lies below it. The working directory and those above
it stay. -/
def remove (d : Disk) (p : Path) : Disk :=
  match d.entryAt p with
  | .error _ => d
  | .ok l => d.filter fun k => k.isPrefixOf d.workingDirectory || !l.isPrefixOf k

/-- The regular files below the working directory, by the path on the way down, in order. -/
def files (d : Disk) : List (String × ByteArray) :=
  let found := d.entries.filterMap fun (l, e) =>
    match d.workingDirectory.isPrefixOf? l, e with
    | some names, .file bytes => some ("/".intercalate names, bytes)
    | _, _ => none
  found.mergeSort fun a b => a.1 ≤ b.1

/-- The files of `d` that are not in `before` with the same content. -/
def changedSince (d before : Disk) : List (String × ByteArray) :=
  d.files.filter fun file => !before.files.contains file

end Disk

end Unalias
