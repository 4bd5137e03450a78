import Unalias.Proofs.Report.Recorded
import Unalias.Proofs.Run.Pool
import Unalias.Proofs.Run.Sequential

/-!
Runs that process files together. The order of steps shows neither in the tree nor in the report,
which are those of a run that processes one file after another; and a run that fails leaves each
file as it was or with its new text.
-/

namespace Unalias

/-- Every file of `d'` holds what it held in `d`, or the new text that is to be written to it. -/
structure Rewritten (job : Job) (d d' : Disk) : Prop where
  outline : d'.outline = d.outline
  entries : ∀ l, d'.get? l = d.get? l ∨ ∃ f ∈ d.scanned job.outRoot, ∃ text,
    d.locate f.path = .ok l ∧ d.read f.path = .ok text ∧
      job.writes (job.unaliased d f.path text) = true ∧
      d'.get? l = some (.file (job.unaliased d f.path text).text.toUTF8)

section Rewritten

variable {job : Job} {d d' : Disk}

theorem Committed.rewritten {done : List Scanned} (h : Committed job d done d') :
    Rewritten job d d' where
  outline := h.outline
  entries l := by
    by_cases hl : ∃ f ∈ done, d.locate f.path = .ok l
    · obtain ⟨f, hf, hl⟩ := hl
      obtain ⟨text, htext, hfile', hfile⟩ := h.exists_text hf hl
      by_cases hwrites : job.writes (job.unaliased d f.path text) = true
      · rw [Job.textAfter, if_pos hwrites] at hfile
        exact .inr ⟨f, h.scanned f hf, text, hl, htext, hwrites, hfile⟩
      · rw [Job.textAfter, if_neg hwrites] at hfile
        exact .inl (hfile.trans hfile'.symm)
    · apply Or.inl
      apply h.others l
      intro f hf he
      exact hl ⟨f, hf, he⟩

/-- Writes that land late write the new texts of files. -/
theorem Rewritten.land {writes : List (Path × String)} (h : Rewritten job d d')
    (hwrites : ∀ write ∈ writes, ∃ f ∈ d.scanned job.outRoot, ∃ text,
      d.read f.path = .ok text ∧ job.writes (job.unaliased d f.path text) = true ∧
        write = (f.path, (job.unaliased d f.path text).text)) :
    Rewritten job d ((Processed.land writes).run d').2 := by
  induction writes generalizing d' with
  | nil => exact h
  | cons write writes ih =>
    obtain ⟨hwrite, hrest⟩ := List.forall_mem_cons.1 hwrites
    obtain ⟨f, hf, text, htext, hnew, rfl⟩ := hwrite
    obtain ⟨l, hl, hfile⟩ := Disk.exists_of_read htext
    obtain ⟨bytes, hfile'⟩ := Disk.exists_file_of_outline h.outline hfile
    have hl' : d'.locate f.path = .ok l := (Disk.locate_congr h.outline f.path).trans hl
    rw [Processed.land, Script.run_bind, Files.overwrite_run, Disk.overwrite_file _ hl' hfile']
    refine ih ⟨(Disk.outline_set hfile').trans h.outline, fun k => ?_⟩ hrest
    rw [Disk.get?_set_of_file hfile']
    by_cases hk : k = l
    · subst hk
      exact .inr ⟨f, hf, text, hl, htext, hnew, by rw [if_pos rfl]⟩
    · rw [if_neg hk]
      exact h.entries k

end Rewritten

namespace Engine

variable {σ : Type}

theorem start_on (e : Engine σ) (s : σ) (d : Disk) :
    e.start.on .idle s d =
      match d.scan e.job.outRoot with
      | .error error => (((.ended (.error error), .idle), s), d)
      | .ok files =>
        if files.isEmpty then
          let ended := e.concluded s d 0 {}
          (((.ended ended.1.1.1, ended.1.1.2), ended.1.2), ended.2)
        else (((.waiting files.length (Pool.start e.concurrency files), .running), s), d) := by
  rw [start, Runner.bind_on, Runner.acquire_on_idle]
  dsimp only
  rw [if_pos rfl, Runner.bind_on, scan_on]
  cases d.scan e.job.outRoot with
  | error error => rfl
  | ok files =>
    dsimp only
    cases files.isEmpty with
    | true =>
      rw [if_pos rfl, if_pos rfl, Runner.bind_on, conclude_on]
      rfl
    | false => rfl

section Schedule

variable (e : Engine σ) (schedule : List Nat) (s : σ) {d : Disk} {files : List Scanned}

theorem run_of_error {error : Error} (hscan : d.scan e.job.outRoot = .error error) :
    (e.run schedule).on .idle s d = (((.error error, .idle), s), d) := by
  rw [run, Runner.bind_on, start_on, hscan]
  rfl

theorem run_of_empty (hscan : d.scan e.job.outRoot = .ok []) :
    (e.run schedule).on .idle s d = e.concluded s d 0 {} := by
  rw [run, Runner.bind_on, start_on, hscan]
  rfl

/-- A run over files is the work on a pool, and then its end. -/
theorem run_of_pool {p : Processed} {d' : Disk} (hscan : d.scan e.job.outRoot = .ok files)
    (hfiles : files ≠ [])
    (hpool : ((Pool.start e.concurrency files).run e.job e.concurrency schedule).run d = (p, d')) :
    (e.run schedule).on .idle s d =
      (let ended := e.concluded s d' files.length p
      (ended.1, ((Processed.land p.leftover).run ended.2).2)) := by
  have hempty : ¬files.isEmpty = true := by simpa using hfiles
  rw [run, Runner.bind_on, start_on, hscan]
  dsimp only
  rw [if_neg hempty]
  dsimp only [await]
  rw [Runner.bind_on, Runner.script_on, hpool]
  dsimp only
  rw [Runner.bind_on, conclude_on, Runner.bind_on, Runner.script_on]
  rfl

/-- A run over files works on them, and ends in one of two ways. -/
theorem run_ended (hd : d.IsTree) (hscan : d.scan e.job.outRoot = .ok files) (hfiles : files ≠ []) :
    ∃ p d', Pool.Ended e.job d [] p d' ∧ (e.run schedule).on .idle s d =
      (let ended := e.concluded s d' files.length p
      (ended.1, ((Processed.land p.leftover).run ended.2).2)) := by
  have hsound := (Pool.Sound.start e.job d).refill e.concurrency
  obtain ⟨p, d', hrun, hended⟩ := Pool.run_ended hd hsound e.concurrency schedule
  rw [Disk.scanned_of_scan hscan] at hrun
  exact ⟨p, d', hended, run_of_pool e schedule s hscan hfiles hrun⟩

theorem run_eq_runSync (hd : d.IsTree)
    (hread : ∀ f ∈ d.scanned e.job.outRoot, ∃ text, d.read f.path = .ok text) :
    (e.run schedule).on .idle s d = e.runSync.on .idle s d := by
  cases hscan : d.scan e.job.outRoot with
  | error error => rw [run_of_error e schedule s hscan, runSync_of_error s d hscan]
  | ok files =>
    have hscanned := Disk.scanned_of_scan hscan
    rw [hscanned] at hread
    obtain ⟨d', htree, hsync⟩ := e.runSync_readable s hd hscan hread
    by_cases hfiles : files = []
    · subst hfiles
      rw [run_of_empty e schedule s hscan, runSync_of_scan s d hscan]
      rfl
    · obtain ⟨p, d'', hended, hrun⟩ := run_ended e schedule s hd hscan hfiles
      rw [hrun, hsync]
      cases hended with
      | complete houtcomes htree' =>
        rw [hscanned] at htree'
        rw [hscanned, List.map_nil, List.nil_append] at houtcomes
        have hkeys := Job.nodup_keys_noted hd (hscanned ▸ Disk.nodup_scanned hd e.job.outRoot)
          htree.scanned
        have hkeys' := (houtcomes.map Prod.fst).nodup_iff.2 hkeys
        rw [concluded_of_nodup e s d'' files.length hkeys', htree'.unique hd htree]
        dsimp only
        rw [Report.ofOutcomes_perm files.length hkeys' houtcomes, resultOf_ok]
        rfl
      | failed h =>
        obtain ⟨f, hf, cause, herror, -⟩ := h.result
        rw [hscanned] at hf
        obtain ⟨text, htext⟩ := hread f hf
        cases herror.symm.trans htext

theorem run_fails (hd : d.IsTree)
    (hread : ∃ f ∈ d.scanned e.job.outRoot, ∀ text, d.read f.path ≠ .ok text) :
    ∃ error, ((e.run schedule).on .idle s d).1.1.1 = .error error := by
  obtain ⟨f, hf, hfail⟩ := hread
  obtain ⟨p, d', hended, hrun⟩ :=
    run_ended e schedule s hd (Disk.scan_of_mem hf) (List.ne_nil_of_mem hf)
  rw [hrun]
  cases hended with
  | complete _ htree =>
    obtain ⟨-, text, -, htext, -⟩ := htree.texts f hf
    exact absurd htext (hfail text)
  | failed h =>
    obtain ⟨g, -, cause, -, hresult⟩ := h.result
    exact ⟨_, concluded_of_error e s d' _ hresult⟩

theorem runSync_fails (hd : d.IsTree)
    (hread : ∃ f ∈ d.scanned e.job.outRoot, ∀ text, d.read f.path ≠ .ok text) :
    ∃ error, (e.runSync.on .idle s d).1.1.1 = .error error := by
  obtain ⟨f, hf, hfail⟩ := hread
  obtain ⟨d', -, htree, hsync⟩ := e.runSync_found s hd (Disk.scan_of_mem hf)
  obtain ⟨left, hleft, hok, herror⟩ := Disk.exists_left d (d.scanned e.job.outRoot)
  cases left with
  | nil =>
    have hreadable : f ∈ d.readable (d.scanned e.job.outRoot) := by
      rw [List.append_nil] at hleft
      rwa [← hleft]
    obtain ⟨-, text, -, htext, -⟩ := htree.texts f hreadable
    exact absurd htext (hfail text)
  | cons g rest =>
    obtain ⟨cause, -, hrefusal⟩ := herror g rest rfl
    rw [hsync, hrefusal]
    exact ⟨_, resultOf_error e _ s d' _⟩

end Schedule

end Engine

end Unalias
