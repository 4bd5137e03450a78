import Unalias.Run.Process

/-!
Files processed together. A pool holds tasks in flight, each at a stage, and a schedule tells which
of them goes on next; once the schedule has run out, the tasks are ended one after another.
-/

namespace Unalias

inductive Stage where
  | reading
  | loaded (text : String)
  | writing (new : Unaliased)
  | written (outcome : Outcome)
  deriving DecidableEq, Repr

structure Task where
  file : Scanned
  stage : Stage := .reading
  deriving DecidableEq, Repr

namespace Task

/-- The next step of a task: its next stage, or its outcome. -/
def advance (job : Job) (t : Task) : Attempt (Stage ⊕ Outcome) :=
  match t.stage with
  | .reading => do return .inl (.loaded (← Attempt.read t.file.path))
  | .loaded text => do
    let new ← job.unalias t.file.path text
    return if job.writes new then .inl (.writing new) else .inr new.outcome
  | .writing new => do return .inl (.written (← Job.finish t.file new))
  | .written outcome => return .inr outcome

def complete (job : Job) (t : Task) : Attempt Outcome :=
  match t.stage with
  | .reading => job.process t.file
  | .loaded text => job.proceed t.file text
  | .writing new => Job.finish t.file new
  | .written outcome => return outcome

/-- The write that was begun and not done; nothing can call it back. -/
def leftover? (t : Task) : Option (Path × String) :=
  match t.stage with
  | .writing new => some (t.file.path, new.text)
  | _ => none

end Task

/-- Files that wait, tasks in flight, and the outcomes of the files that are done. -/
structure Pool where
  waiting : List Scanned
  flying : List Task := []
  outcomes : List (String × Outcome) := []
  deriving DecidableEq, Repr

namespace Pool

/-- Starts tasks as long as fewer than `limit` are in flight. -/
def refill (limit : Nat) (pool : Pool) : Pool where
  waiting := pool.waiting.drop (limit - pool.flying.length)
  flying :=
    pool.flying ++ (pool.waiting.take (limit - pool.flying.length)).map fun file => { file := file }
  outcomes := pool.outcomes

def start (limit : Nat) (files : List Scanned) : Pool :=
  ({ waiting := files } : Pool).refill limit

def failed (pool : Pool) (e : Error) : Processed where
  outcomes := pool.outcomes
  result := .error e
  leftover := pool.flying.filterMap Task.leftover?

/-- One step of a task in flight; a number that no task has makes no step. -/
def step (job : Job) (limit : Nat) (pool : Pool) (choice : Nat) : Script (Except Processed Pool) :=
  match pool.flying[choice]? with
  | none => return .ok pool
  | some task => do
    let others := pool.flying.eraseIdx choice
    match ← (task.advance job).run with
    | .error e => return .error ({ pool with flying := others }.failed e)
    | .ok (.inl stage) =>
      return .ok { pool with flying := pool.flying.set choice { task with stage := stage } }
    | .ok (.inr outcome) =>
      let outcomes := pool.outcomes ++ [(task.file.key, outcome)]
      return .ok (refill limit { pool with flying := others, outcomes := outcomes })

/-- Ends the tasks in flight in order, and then processes the files that wait. -/
def drain (job : Job) (waiting : List Scanned) : List Task → Script Processed
  | [] => job.processAll waiting
  | task :: tasks => do
    match ← (task.complete job).run with
    | .error e => return ({ waiting := waiting, flying := tasks } : Pool).failed e
    | .ok outcome => return (← drain job waiting tasks).after [(task.file.key, outcome)]

def run (job : Job) (limit : Nat) (pool : Pool) : (schedule : List Nat) → Script Processed
  | [] => do return (← drain job pool.waiting pool.flying).after pool.outcomes
  | choice :: schedule => do
    match ← pool.step job limit choice with
    | .error processed => return processed
    | .ok pool => pool.run job limit schedule

end Pool

end Unalias
