import Unalias.Files.Attempt
import Unalias.Files.Disk

/-!
What the single operations on files give on a file tree, and how a script that may fail goes on.
-/

namespace Unalias

/-- A script among others that keep a state leaves the state as it is. -/
theorem Script.liftM_run {α τ : Type} (s : Script α) (t : τ) (d : Disk) :
    ((liftM s : StateT τ Script α).run t).run d = (((s.run d).1, t), (s.run d).2) := by
  change (s >>= fun a => (pure (a, t) : Script (α × τ))).run d = _
  rw [run_bind]
  rfl

namespace Files

variable (d : Disk) (p : Path)

@[simp]
theorem workingDirectory_run :
    workingDirectory.run d = (⟨"/" ++ "/".intercalate d.workingDirectory⟩, d) :=
  rfl

@[simp]
theorem kind?_run : (kind? p).run d = (d.kind? p, d) :=
  rfl

@[simp]
theorem read_run : (read p).run d = (d.read p, d) :=
  rfl

@[simp]
theorem overwrite_run (text : String) : (overwrite p text).run d = d.overwrite p text :=
  rfl

@[simp]
theorem entries_run : (entries p).run d = (d.below p, d) :=
  rfl

@[simp]
theorem doesExist_run : (doesExist p).run d = ((d.kind? p).isSome, d) :=
  rfl

@[simp]
theorem isFile_run : (isFile p).run d = (decide (d.kind? p = some .file), d) :=
  rfl

@[simp]
theorem isDirectory_run : (isDirectory p).run d = (decide (d.kind? p = some .directory), d) :=
  rfl

end Files

namespace Attempt

variable {α β : Type}

/-- What an attempt gives on a tree, and the tree after it. -/
def on (x : Attempt α) (d : Disk) : Except Error α × Disk :=
  x.run.run d

@[simp]
theorem pure_on (a : α) (d : Disk) : (pure a : Attempt α).on d = (.ok a, d) :=
  rfl

@[simp]
theorem throw_on (e : Error) (d : Disk) : (throw e : Attempt α).on d = (.error e, d) :=
  rfl

theorem bind_on (x : Attempt α) (f : α → Attempt β) (d : Disk) :
    (x >>= f).on d = match x.on d with
      | (.ok a, d) => (f a).on d
      | (.error e, d) => (.error e, d) := by
  change (x.run >>= ExceptT.bindCont f).run d = _
  rw [Script.run_bind]
  rw [on]
  rcases x.run.run d with ⟨e | a, d⟩ <;> rfl

theorem bind_on_ok {x : Attempt α} {d d' : Disk} {a : α} (h : x.on d = (.ok a, d'))
    (f : α → Attempt β) : (x >>= f).on d = (f a).on d' := by
  rw [bind_on, h]

theorem bind_on_error {x : Attempt α} {d d' : Disk} {e : Error} (h : x.on d = (.error e, d'))
    (f : α → Attempt β) : (x >>= f).on d = (.error e, d') := by
  rw [bind_on, h]

theorem exists_of_bind_on_ok {x : Attempt α} {f : α → Attempt β} {d d' : Disk} {b : β}
    (h : (x >>= f).on d = (.ok b, d')) :
    ∃ a d₁, x.on d = (.ok a, d₁) ∧ (f a).on d₁ = (.ok b, d') := by
  rw [bind_on] at h
  split at h
  · rename_i a d₁ hx
    exact ⟨a, d₁, hx, h⟩
  · cases h

theorem lift_on (s : Script α) (d : Disk) :
    (liftM s : Attempt α).on d = (.ok (s.run d).1, (s.run d).2) := by
  change ((s >>= fun a => pure (Except.ok a) : Script (Except Error α))).run d = _
  rw [Script.run_bind]
  rfl

theorem read_on (d : Disk) (p : Path) :
    (read p).on d = ((d.read p).mapError (Error.filesAt p), d) :=
  rfl

theorem read_on_ok {d : Disk} {p : Path} {text : String} (h : d.read p = .ok text) :
    (read p).on d = (.ok text, d) := by
  rw [read_on, h]
  rfl

theorem read_on_error {d : Disk} {p : Path} {cause : OsError} (h : d.read p = .error cause) :
    (read p).on d = (.error (.filesAt p cause), d) := by
  rw [read_on, h]
  rfl

theorem entries_on (d : Disk) (root : Path) :
    (entries root).on d = ((d.below root).mapError (Halt.error root), d) :=
  rfl

theorem overwrite_on (d : Disk) (p : Path) (text : String) :
    (overwrite p text).on d =
      ((d.overwrite p text).1.mapError (Error.filesAt p), (d.overwrite p text).2) :=
  rfl

end Attempt

end Unalias
