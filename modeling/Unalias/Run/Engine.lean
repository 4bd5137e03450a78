import Unalias.Report.Rendered
import Unalias.Run.Pool

/-!
Runs. At most one run of an engine is in flight; a second is refused until the first has ended,
however it ended. The report of a run goes to the engine's sink, if the job shows its report, and
so does the report of what was done before a failure.
-/

namespace Unalias

inductive Flight where
  | idle
  | running
  deriving DecidableEq, Inhabited, Repr

def Flight.isRunning (f : Flight) : Bool :=
  f = .running

/-- Runs of one engine, whose sink keeps a state of its own. -/
abbrev Runner (σ : Type) := StateT Flight (StateT σ Script)

structure Engine (σ : Type) where
  job : Job
  concurrency : Nat
  concurrency_pos : 0 < concurrency
  sink : Option (RunReport → Runner σ (Except Error Unit))

/-- A run that has ended, or one that waits for its files. -/
inductive Started where
  | ended (result : Except Error RunReport)
  | waiting (filesScanned : Nat) (pool : Pool)

namespace Runner

variable {σ : Type}

def script {α : Type} (s : Script α) : Runner σ α :=
  liftM s

def acquire : Runner σ Bool := do
  match ← get with
  | .running => return false
  | .idle =>
    set Flight.running
    return true

def release : Runner σ Unit :=
  set Flight.idle

end Runner

namespace Engine

variable {σ : Type}

/-- An engine for a job; no limit on tasks is below one. -/
def ofJob (job : Job) (concurrency : Nat)
    (sink : Option (RunReport → Runner σ (Except Error Unit))) : Engine σ :=
  ⟨job, max concurrency 1, Nat.lt_of_lt_of_le Nat.one_pos (Nat.le_max_right _ _), sink⟩

def emit (e : Engine σ) (report : RunReport) : Runner σ (Except Error Unit) :=
  match e.sink with
  | none => return .ok ()
  | some sink => if e.job.emitsReport then sink report else return .ok ()

/-- Ends a run: the report is emitted, and another run may start. A failed run keeps its error,
whatever the sink says. -/
def conclude (e : Engine σ) (filesScanned : Nat) (processed : Processed) :
    Runner σ (Except Error RunReport) := do
  let report := ⟨e.job, processed.report filesScanned⟩
  let emitted ← e.emit report
  Runner.release
  return do
    processed.result
    emitted
    return report

/-- Ends a run whose files could not be found; there is nothing to report. -/
def abandon (error : Error) : Runner σ (Except Error RunReport) := do
  Runner.release
  return .error error

def runSync (e : Engine σ) : Runner σ (Except Error RunReport) := do
  if ← Runner.acquire then
    match ← Runner.script (Files.scan e.job.outRoot).run with
    | .error error => abandon error
    | .ok files =>
      let processed ← Runner.script (e.job.processAll files)
      e.conclude files.length processed
  else return .error .alreadyRunning

/-- Starts a run that processes files together. Without a file it has nothing to wait for. -/
def start (e : Engine σ) : Runner σ Started := do
  if ← Runner.acquire then
    match ← Runner.script (Files.scan e.job.outRoot).run with
    | .error error => return .ended (← abandon error)
    | .ok files =>
      if files.isEmpty then return .ended (← e.conclude 0 {})
      return .waiting files.length (.start e.concurrency files)
  else return .ended (.error .alreadyRunning)

/-- Ends a run that was started. Writes left over by a failure land after it. -/
def await (e : Engine σ) (schedule : List Nat) : Started → Runner σ (Except Error RunReport)
  | .ended result => return result
  | .waiting filesScanned pool => do
    let processed ← Runner.script (pool.run e.job e.concurrency schedule)
    let result ← e.conclude filesScanned processed
    Runner.script (Processed.land processed.leftover)
    return result

/-- A run that processes files together. -/
def run (e : Engine σ) (schedule : List Nat := []) : Runner σ (Except Error RunReport) := do
  e.await schedule (← e.start)

end Engine

end Unalias
