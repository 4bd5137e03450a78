import Unalias.CommandLine.Options
import Unalias.Run.Engine

/-!
The command: it loads the settings and the job, runs it, prints the report if the job shows it,
and sums the run up in a few lines beside it.
-/

namespace Unalias

/-- How the command ended, and the texts it wrote: reports, and lines beside them. -/
structure Reply where
  exitCode : Nat
  printed : List String := []
  remarks : List String := []
  deriving DecidableEq, Repr

namespace Command

def name : String := "alias-rewrite"

def version : String := "0.1.0"

def success (message : String) : String := "✓ " ++ message

def warning (message : String) : String := "⚠ " ++ message

/-- The line that tells of an error; its first word is red. -/
def errorLine (e : Error) : String := "\x1b[31mError:\x1b[0m " ++ e.message

def countLine (r : RunReport) : String :=
  toString r.report.filesScanned ++ " files scanned, " ++
    toString r.report.changedFiles.entries.length ++
    (if r.job.dryRun then " would change, " else " changed, ") ++
    toString r.report.replacementCount ++ " references rewritten"

def unresolvedLines (report : Report) : List String :=
  if report.hasErrors then
    warning (toString report.errorCount ++ " unresolved alias references:") ::
      report.errors.entries.flatMap fun e =>
        e.2.map fun reference => "  " ++ e.1 ++ " " ++ reference
  else []

def summary (r : RunReport) : List String :=
  success (countLine r) :: unresolvedLines r.report ++
    (if r.job.dryRun then [warning "Dry run: no files were written"] else [])

/-- A sink that keeps the texts of reports. -/
def printer (r : RunReport) : Runner (List String) (Except Error Unit) := do
  (modifyThe (List String) (· ++ [r.render]) : StateT (List String) Script Unit)
  return .ok ()

def execute (options : Options) (environment : List (String × String)) :
    ExceptT Error (StateT (List String) Script) RunReport := do
  let settings ← ExceptT.mk (pure (Settings.load environment options.overrides))
  let job ← ExceptT.mk (liftM (Job.load options.project options.src options.out settings).run)
  let engine := Engine.ofJob job settings.concurrency (some printer)
  ExceptT.mk do
    return (← (if settings.sync then engine.runSync else engine.run).run .idle).1

def run (options : Options) (environment : List (String × String)) : Script Reply := do
  let (result, printed) ← ((execute options environment).run).run []
  match result with
  | .error e => return ⟨1, printed, [errorLine e]⟩
  | .ok report => return ⟨0, printed, if options.quiet then [] else summary report⟩

/-- The command with its arguments; only a wrong command line ends with the code 2. -/
def respond (args : List String) (environment : List (String × String)) : Script Reply :=
  match Options.ofArguments args with
  | .error .misuse => return ⟨2, [], []⟩
  | .error .help => return ⟨0, [], []⟩
  | .error .version => return ⟨0, [name ++ " " ++ version], []⟩
  | .ok options => run options environment

end Command

end Unalias
