import Unalias.Proofs.Files.Tree
import Unalias.Run.Engine

/-!
How a run goes from an idle engine to its end: it is admitted, its files are found and processed,
and its report is delivered. If they cannot be found, it ends there.
-/

namespace Unalias

namespace Runner

variable {σ α β : Type}

/-- What comes of a runner in a flight, with a state of the sink and a tree. -/
def on (x : Runner σ α) (flight : Flight) (s : σ) (d : Disk) : ((α × Flight) × σ) × Disk :=
  ((x.run flight).run s).run d

variable (flight : Flight) (s : σ) (d : Disk)

@[simp]
theorem pure_on (a : α) : (pure a : Runner σ α).on flight s d = (((a, flight), s), d) :=
  rfl

theorem bind_on (x : Runner σ α) (f : α → Runner σ β) :
    (x >>= f).on flight s d =
      (f (x.on flight s d).1.1.1).on (x.on flight s d).1.1.2 (x.on flight s d).1.2
        (x.on flight s d).2 := by
  change ((x.run flight).run s >>= fun r => ((f r.1.1).run r.1.2).run r.2).run d = _
  rw [Script.run_bind]
  rfl

theorem script_on (script : Script α) :
    (Runner.script script : Runner σ α).on flight s d =
      ((((script.run d).1, flight), s), (script.run d).2) := by
  change (((liftM script : StateT σ Script α) >>= fun a =>
    (pure (a, flight) : StateT σ Script (α × Flight))).run s).run d = _
  rw [StateT.run_bind, Script.run_bind, Script.liftM_run]
  rfl

@[simp]
theorem acquire_on_idle :
    (acquire : Runner σ Bool).on .idle s d = (((true, .running), s), d) :=
  rfl

@[simp]
theorem release_on : (release : Runner σ Unit).on flight s d = ((((), .idle), s), d) :=
  rfl

end Runner

namespace Engine

variable {σ : Type} (e : Engine σ) (report : Report) (s : σ) (d : Disk)

/-- What the sink answers to a report, its state then, and the tree. It is asked once if the job
shows its report, and never otherwise. -/
def delivery : Except Error Unit × σ × Disk :=
  match e.sink, e.job.emitsReport with
  | some sink, true =>
    let r := (sink ⟨e.job, report⟩).on .running s d
    (r.1.1.1, r.1.2, r.2)
  | _, _ => (.ok (), s, d)

/-- The end of a run. -/
def concluded (filesScanned : Nat) (processed : Processed) :
    ((Except Error RunReport × Flight) × σ) × Disk :=
  let report := processed.report filesScanned
  let delivered := e.delivery report s d
  (((do
    processed.result
    delivered.1
    return ⟨e.job, report⟩, .idle), delivered.2.1), delivered.2.2)

theorem conclude_on (filesScanned : Nat) (processed : Processed) :
    (e.conclude filesScanned processed).on .running s d =
      e.concluded s d filesScanned processed := by
  rw [conclude, concluded, delivery, emit]
  cases e.sink with
  | none => rfl
  | some sink =>
    cases e.job.emitsReport with
    | false => rfl
    | true =>
      simp only [if_true]
      rw [Runner.bind_on, Runner.bind_on]
      rfl

theorem scan_on (flight : Flight) :
    (Runner.script (Files.scan e.job.outRoot).run : Runner σ _).on flight s d =
      (((d.scan e.job.outRoot, flight), s), d) := by
  rw [Runner.script_on, ← Attempt.on, Disk.scan_on]

theorem runSync_on :
    e.runSync.on .idle s d =
      match d.scan e.job.outRoot with
      | .error error => (((.error error, .idle), s), d)
      | .ok files =>
        let processed := (e.job.processAll files).run d
        e.concluded s processed.2 files.length processed.1 := by
  rw [runSync, Runner.bind_on, Runner.acquire_on_idle]
  dsimp only
  rw [if_pos rfl, Runner.bind_on, scan_on]
  cases d.scan e.job.outRoot with
  | error error => rfl
  | ok files =>
    dsimp only
    rw [Runner.bind_on, Runner.script_on]
    exact conclude_on e s _ _ _

theorem concluded_of_error (n : Nat) {p : Processed} {error : Error}
    (h : p.result = .error error) : (e.concluded s d n p).1.1.1 = .error error := by
  simp only [concluded, h]
  rfl

/-- Delivering a report leaves the file tree as it is. -/
def SparesTree : Prop :=
  ∀ report s d, (e.delivery report s d).2.2 = d

/-- Every report that is delivered is accepted. -/
def AcceptsReports : Prop :=
  ∀ report s d, (e.delivery report s d).1 = .ok ()

variable {e}

theorem runSync_of_scan {files : List Scanned} (h : d.scan e.job.outRoot = .ok files) :
    e.runSync.on .idle s d =
      (let processed := (e.job.processAll files).run d
      e.concluded s processed.2 files.length processed.1) := by
  rw [runSync_on, h]

theorem runSync_of_error {error : Error} (h : d.scan e.job.outRoot = .error error) :
    e.runSync.on .idle s d = (((.error error, .idle), s), d) := by
  rw [runSync_on, h]

/-- An engine without a sink, or whose job does not show its report, delivers nothing. -/
theorem delivery_of_quiet (h : e.sink = none ∨ e.job.emitsReport = false) :
    e.delivery report s d = (.ok (), s, d) := by
  rw [delivery]
  obtain h | h := h
  · rw [h]
  · rw [h]
    cases e.sink <;> rfl

theorem sparesTree_of_quiet (h : e.sink = none ∨ e.job.emitsReport = false) : e.SparesTree := by
  intro report s d
  rw [delivery_of_quiet report s d h]

theorem acceptsReports_of_quiet (h : e.sink = none ∨ e.job.emitsReport = false) :
    e.AcceptsReports := by
  intro report s d
  rw [delivery_of_quiet report s d h]

theorem tree_concluded (h : e.SparesTree) (n : Nat) (p : Processed) :
    (e.concluded s d n p).2 = d :=
  h _ s d

end Engine

end Unalias
