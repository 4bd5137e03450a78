import Unalias.Json.Printer
import Unalias.Report.Basic
import Unalias.Run.Job

/-!
Reports as JSON. The report of a run starts with the job that was run.
-/

namespace Unalias

def Rule.toJson (rule : Rule) : Json :=
  .object [("prefix", .string rule.stem), ("targets", .strings rule.targets)]

def Job.members (job : Job) : List (String × Json) :=
  [("projectRoot", .string job.projectRoot.text),
    ("srcRoot", .string job.srcRoot.text),
    ("outRoot", .string job.outRoot.text),
    ("aliasRoot", .string job.aliasRoot.text),
    ("aliases", .array (job.rules.map Rule.toJson)),
    ("resolveFrom", .string job.resolveFrom.name),
    ("dryRun", .bool job.dryRun),
    ("verbose", .bool job.verbose)]

/-- An object with the keys of the index in their order. -/
def Index.toJson {α : Type} (value : α → Json) (x : Index α) : Json :=
  .object (x.entries.map fun e => (e.1, value e.2))

def Report.members (r : Report) : List (String × Json) :=
  [("replacements",
      r.replacements.toJson fun pairs => .array (pairs.map fun p => .strings [p.1, p.2])),
    ("errors", r.errors.toJson .strings),
    ("changedFiles", .strings r.changedFiles.keys),
    ("filesScanned", .ofNat r.filesScanned)]

structure RunReport where
  job : Job
  report : Report

def RunReport.toJson (r : RunReport) : Json :=
  .object (r.job.members ++ r.report.members)

def RunReport.render (r : RunReport) : String :=
  r.toJson.pretty

end Unalias
