import Unalias.Files.Attempt
import Unalias.Files.Scan
import Unalias.Keyed
import Unalias.Report.Basic
import Unalias.Run.Job

/-!
Files processed one after another: each is read, its references are replaced, and it is written
if its text changed. The first failure ends the work.
-/

namespace Unalias

/-- What came of processing files: the outcomes of those that were done, in the order in which they
were recorded, whether all were, and the writes that were begun but not done when the first failure
came. -/
structure Processed where
  outcomes : List (String × Outcome) := []
  result : Except Error Unit := .ok ()
  leftover : List (Path × String) := []

namespace Processed

/-- The record of a run holds one outcome under each key, the last that was put there. -/
def record (p : Processed) : List (String × Outcome) :=
  p.outcomes.foldl (fun kept x => Keyed.set x.1 x.2 kept) []

def report (p : Processed) (filesScanned : Nat) : Report :=
  Report.ofOutcomes filesScanned p.record

/-- Work done before all other. -/
def after (earlier : List (String × Outcome)) (p : Processed) : Processed :=
  { p with outcomes := earlier ++ p.outcomes }

/-- Lands writes; nobody is told whether one fails. -/
def land : List (Path × String) → Script Unit
  | [] => return ()
  | (path, text) :: writes => do
    let _ ← Files.overwrite path text
    land writes

end Processed

namespace Job

def writes (job : Job) (new : Unaliased) : Bool :=
  new.outcome.changed && !job.dryRun

def finish (file : Scanned) (new : Unaliased) : Attempt Outcome := do
  Attempt.overwrite file.path new.text
  return new.outcome

/-- Replaces the references in the text that was read from a file. -/
def proceed (job : Job) (file : Scanned) (text : String) : Attempt Outcome := do
  let new ← job.unalias file.path text
  if job.writes new then finish file new else return new.outcome

def process (job : Job) (file : Scanned) : Attempt Outcome := do
  job.proceed file (← Attempt.read file.path)

def processAll (job : Job) : List Scanned → Script Processed
  | [] => return {}
  | file :: files => do
    match ← (job.process file).run with
    | .error e => return { result := .error e }
    | .ok outcome => return (← job.processAll files).after [(file.key, outcome)]

end Job

end Unalias
