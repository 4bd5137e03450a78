import Unalias.Reference.Unaliased
import Unalias.Index

/-!
The report of a run: under each file what was replaced in it and what stayed unresolved, the files
that changed, and how many there were. A file of which there is nothing to say is not listed.
-/

namespace Unalias

structure Report where
  replacements : Index (List (String × String)) := {}
  errors : Index (List String) := {}
  changedFiles : Index Unit := {}
  filesScanned : Nat := 0
  deriving Inhabited

/-- Adds items behind those under a key; no items make no entry. -/
def Index.append {α : Type} (x : Index (List α)) (key : String) (items : List α) :
    Index (List α) :=
  if items.isEmpty then x else x.update key fun old => old.getD [] ++ items

namespace Report

/-- Adds what became of the references of `file`. -/
def record (r : Report) (file : String) (o : Outcome) : Report where
  replacements := r.replacements.append file o.replacements
  errors := r.errors.append file o.unresolved
  changedFiles := if o.changed then r.changedFiles.update file fun _ => () else r.changedFiles
  filesScanned := r.filesScanned

def ofOutcomes (filesScanned : Nat) (outcomes : List (String × Outcome)) : Report :=
  outcomes.foldl (fun r x => r.record x.1 x.2) { filesScanned := filesScanned }

def replacementCount (r : Report) : Nat :=
  r.replacements.values.flatten.length

def errorCount (r : Report) : Nat :=
  r.errors.values.flatten.length

def hasErrors (r : Report) : Bool :=
  !r.errors.entries.isEmpty

end Report

end Unalias
