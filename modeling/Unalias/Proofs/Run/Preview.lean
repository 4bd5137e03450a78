import Unalias.Proofs.Run.Sequential

/-!
A dry run tells what a run would do. A run that writes reads each file before it writes it, and no
write moves anything in the tree, so it finds at every file what a dry run finds there.
-/

namespace Unalias

/-- Processing without writing leaves the tree as it is. -/
theorem Committed.eq_self_of_dry {job : Job} {d d' : Disk} {done : List Scanned} (hd : d.IsTree)
    (hdry : job.dryRun = true) (h : Committed job d done d') : d' = d := by
  apply h.eq_self_of_textAfter hd
  intro f _ text _
  simp [Job.textAfter, Job.writes, hdry]

/-- Either all files can be read, or the first that cannot gives the error. -/
theorem Disk.refusal_cases (d : Disk) (files : List Scanned) :
    (∀ f ∈ files, ∃ text, d.read f.path = .ok text) ∧ d.refusal files = .ok () ∨
      ∃ f ∈ files, ∃ cause, d.read f.path = .error cause ∧
        d.refusal files = .error (.filesAt f.path cause) := by
  induction files with
  | nil => exact .inl ⟨fun _ h => absurd h List.not_mem_nil, rfl⟩
  | cons f files ih =>
    cases hread : d.read f.path with
    | error cause =>
      exact .inr ⟨f, List.mem_cons_self, cause, hread, refusal_cons_error hread⟩
    | ok text =>
      rw [refusal_cons_ok hread]
      obtain ⟨hall, hok⟩ | ⟨g, hg, hrest⟩ := ih
      · exact .inl ⟨List.forall_mem_cons.2 ⟨⟨text, hread⟩, hall⟩, hok⟩
      · exact .inr ⟨g, List.mem_cons_of_mem _ hg, hrest⟩

namespace Engine

variable {σ : Type}

/-- What comes of a tree `d` under two engines of which the first does not write files and the
second does. Both make the same report of the same work on `files`; `d'` is the tree that the second
has written before its sink is given the report. -/
structure Previews (e e' : Engine σ) (d : Disk) (s : σ) (files : List Scanned) (report : Report)
    (d' : Disk) (result result' : Except Error RunReport) : Prop where
  scan : d.scan e.job.outRoot = .ok files
  processes : ∃ processed, (e.job.processAll files).run d = (processed, d) ∧
    (e'.job.processAll files).run d = (processed, d') ∧
    report = Report.ofOutcomes files.length processed.outcomes
  alike :
    (∀ f ∈ files, ∃ text, d.read f.path = .ok text) ∧
      result = (e.delivery report s d).1.map (fun _ => ⟨e.job, report⟩) ∧
      result' = (e'.delivery report s d').1.map (fun _ => ⟨e'.job, report⟩) ∨
    ∃ f ∈ files, ∃ cause, d.read f.path = .error cause ∧
      result = .error (.filesAt f.path cause) ∧ result' = .error (.filesAt f.path cause)
  agrees : e.AcceptsReports → e'.AcceptsReports →
    result.map RunReport.report = result'.map RunReport.report
  ends : e.runSync.on .idle s d =
    (((result, .idle), (e.delivery report s d).2.1), (e.delivery report s d).2.2)
  ends' : e'.runSync.on .idle s d =
    (((result', .idle), (e'.delivery report s d').2.1), (e'.delivery report s d').2.2)

/-- A dry run leaves the tree to its sink as it was, with the report that the run that writes makes
of its work; the two give that report or fail alike, unless a sink that is given the report
refuses it. If a directory cannot be opened, both fail alike and do nothing. -/
theorem runSync_previews (e e' : Engine σ) (hdry : e.job.dryRun = true)
    (hjob : e'.job = { e.job with dryRun := false }) (d : Disk) (hd : d.IsTree) (s : σ) :
    (∃ files report d' result result', e.Previews e' d s files report d' result result') ∨
      ∃ p cause, d.IsShut e.job.outRoot p ∧
        d.scan e.job.outRoot = .error (.filesAt p cause) ∧
        e.runSync.on .idle s d = (((.error (.filesAt p cause), .idle), s), d) ∧
        e'.runSync.on .idle s d = (((.error (.filesAt p cause), .idle), s), d) := by
  have hroot : e'.job.outRoot = e.job.outRoot := by rw [hjob]
  have hnoted : e'.job.noted d = e.job.noted d := by
    rw [hjob]
    rfl
  cases hscan : d.scan e.job.outRoot with
  | error error =>
    obtain ⟨p, cause, hshut, rfl⟩ := Disk.exists_isShut_of_scan hscan
    have hscan' : d.scan e'.job.outRoot = .error (.filesAt p cause) := hroot ▸ hscan
    exact .inr ⟨p, cause, hshut, rfl, runSync_of_error s d hscan, runSync_of_error s d hscan'⟩
  | ok files =>
    have hscan' : d.scan e'.job.outRoot = .ok files := hroot ▸ hscan
    obtain ⟨d₁, hrun, htree, hends⟩ := e.runSync_found s hd hscan
    obtain ⟨d', hrun', htree', hends'⟩ := e'.runSync_found s hd hscan'
    rw [htree.eq_self_of_dry hd hdry] at hrun hends
    rw [hnoted] at hrun' hends'
    let report := Report.ofOutcomes files.length ((d.readable files).map (e.job.noted d))
    have halike := d.refusal_cases files
    refine .inl ⟨files, report, d', e.resultOf report s d (d.refusal files),
      e'.resultOf report s d' (d.refusal files), hscan, ⟨_, hrun, hrun', rfl⟩, ?_, ?_, hends,
      hends'⟩
    · obtain ⟨hall, hok⟩ | ⟨f, hf, cause, hread, herror⟩ := halike
      · rw [hok, resultOf_ok, resultOf_ok]
        exact .inl ⟨hall, rfl, rfl⟩
      · rw [herror]
        exact .inr ⟨f, hf, cause, hread, rfl, rfl⟩
    · intro haccepts haccepts'
      obtain ⟨-, hok⟩ | ⟨f, -, cause, -, herror⟩ := halike
      · rw [hok, resultOf_ok, resultOf_ok, haccepts report s d, haccepts' report s d']
        rfl
      · rw [herror]
        rfl

end Engine

/-! ### A sink that refuses -/

/-- An engine that gives its report to a sink only because it does not write files. -/
def cautious : Engine Unit where
  job := { Sample.job with dryRun := true, verbose := false }
  concurrency := 1
  concurrency_pos := Nat.one_pos
  sink := refusing.sink

def writing : Engine Unit :=
  { cautious with job := { cautious.job with dryRun := false } }

theorem cautious_delivery (report : Report) (d : Disk) :
    cautious.delivery report () d = (.error (.report "sink refused"), (), d) :=
  rfl

theorem writing_delivery (report : Report) (d : Disk) :
    writing.delivery report () d = (.ok (), (), d) :=
  rfl

theorem runSync_cautious :
    (cautious.runSync.on .idle () oneFile).1.1.1 = .error (.report "sink refused") := by
  obtain ⟨d', -, hrun⟩ :=
    cautious.runSync_readable () oneFile.isTree oneFile.scan_dist oneFile.readable
  rw [hrun]
  simp only [cautious_delivery]
  rfl

theorem runSync_writing :
    ∃ report, (writing.runSync.on .idle () oneFile).1.1.1 = .ok report := by
  obtain ⟨d', -, hrun⟩ :=
    writing.runSync_readable () oneFile.isTree oneFile.scan_dist oneFile.readable
  rw [hrun]
  simp only [writing_delivery]
  exact ⟨_, rfl⟩

/-- A dry run does not always give what the run gives that writes, since its sink has a say. -/
theorem not_runSync_agrees :
    ¬∀ (e e' : Engine Unit) (d : Disk), e.job.dryRun = true →
      e' = { e with job := { e.job with dryRun := false } } → d.IsTree →
      (e.runSync.on .idle () d).1.1.1.map RunReport.report =
        (e'.runSync.on .idle () d).1.1.1.map RunReport.report := by
  intro h
  have hagrees := h cautious writing oneFile rfl rfl oneFile.isTree
  obtain ⟨report, hok⟩ := runSync_writing
  rw [hok, runSync_cautious] at hagrees
  cases hagrees

/-- The dry run of `printing`, with the same sink. -/
def previewing : Engine (List String) :=
  { printing with job := { printing.job with dryRun := true } }

theorem runSync_previews_twins :
    previewing.job.dryRun = true ∧ printing.job = { previewing.job with dryRun := false } ∧
      twins.IsTree ∧
      ∃ files report d', previewing.Previews printing twins [] files report d'
          (.ok ⟨previewing.job, report⟩) (.ok ⟨printing.job, report⟩) ∧
        report.changedFiles.keys = ["a.js", "c.js"] ∧
        d'.get? ["w", "dist", "a.js"] = some (.file "require('./b.ts')".toUTF8) ∧
        d'.get? ["w", "dist", "c.js"] = some (.file "require('./b.ts')".toUTF8) := by
  refine ⟨rfl, rfl, twins.isTree, ?_⟩
  obtain ⟨files, report, d', result, result', h⟩ | ⟨p, cause, -, hscan, -⟩ :=
    previewing.runSync_previews printing rfl rfl twins twins.isTree []
  swap
  · cases hscan.symm.trans twins.scan_dist
  obtain rfl := Except.ok.inj (h.scan.symm.trans twins.scan_dist)
  obtain ⟨-, rfl, rfl⟩ | ⟨f, hf, cause, hcause, -⟩ := h.alike
  swap
  · obtain ⟨text, htext⟩ := twins.readable f hf
    cases htext.symm.trans hcause
  obtain ⟨processed, -, hwrites, hreport⟩ := h.processes
  obtain ⟨d'', hrun, htree, -⟩ := printing.runSync_found [] twins.isTree twins.scan_dist
  cases hwrites.symm.trans hrun
  rw [(Disk.readable_eq_self twins.readable).1] at hreport htree
  obtain ⟨hkeys, hfirst, hsecond⟩ := twins.rewritten htree
  exact ⟨_, report, d', h, hreport ▸ hkeys, hfirst, hsecond⟩

end Unalias
