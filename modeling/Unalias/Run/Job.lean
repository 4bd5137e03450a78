import Unalias.Config.Project
import Unalias.Resolver
import Unalias.Settings.Load

/-!
What a run is to do: the rules and roots by which references are resolved, and whether files are
written and the report is shown.
-/

namespace Unalias

structure Job extends Resolver where
  projectRoot : Path
  dryRun : Bool
  verbose : Bool
  deriving DecidableEq, Repr

namespace Job

/-- A dry run always shows its report. -/
def emitsReport (job : Job) : Bool :=
  job.dryRun || job.verbose

/-- The job that a configuration document and settings describe; `out` stands over the output
directory that the document names. -/
def load (document src : Path) (out : Option Path) (settings : Settings) : Attempt Job := do
  let project ← Project.load document
  let here ← Files.workingDirectory
  return {
    rules := project.rules
    resolveFrom := settings.resolveFrom
    aliasRoot := project.aliasRoot
    srcRoot := Path.absolutize here src
    outRoot := (out.map (Path.absolutize here)).getD project.outRoot
    projectRoot := project.root
    dryRun := settings.dryRun
    verbose := settings.emitsReport }

end Job

end Unalias
