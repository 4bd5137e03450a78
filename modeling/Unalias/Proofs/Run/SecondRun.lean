import Unalias.Proofs.Reference.Stability
import Unalias.Proofs.Run.Agreement

/-!
A run over a tree that a run has left finds nothing to do.
-/

namespace Unalias

/-- How a run goes over its files: one after another, or together. -/
inductive Manner where
  | sequential
  | concurrent (schedule : List Nat)

/-- Processing that finds nothing to replace leaves the tree as it is. -/
theorem Committed.eq_self {job : Job} {d d' : Disk} {done : List Scanned} (hd : d.IsTree)
    (h : Committed job d done d')
    (hsame : ∀ f ∈ done, ∀ text, d.read f.path = .ok text →
      (job.unaliased d f.path text).text = text) : d' = d := by
  apply h.eq_self_of_textAfter hd
  intro f hf text htext
  simp [Job.textAfter, hsame f hf text htext]

namespace Engine

variable {σ : Type} (e : Engine σ)

def runAs : Manner → Runner σ (Except Error RunReport)
  | .sequential => e.runSync
  | .concurrent schedule => e.run schedule

variable {e} {d : Disk} {s : σ} {manner : Manner}

theorem runAs_eq_runSync (hd : d.IsTree)
    (hread : ∀ f ∈ d.scanned e.job.outRoot, ∃ text, d.read f.path = .ok text) :
    (e.runAs manner).on .idle s d = e.runSync.on .idle s d := by
  cases manner with
  | sequential => rfl
  | concurrent schedule => exact run_eq_runSync e schedule s hd hread

theorem exists_text_of_runAs (hd : d.IsTree) {r : RunReport}
    (h : ((e.runAs manner).on .idle s d).1.1.1 = .ok r) :
    ∀ f ∈ d.scanned e.job.outRoot, ∃ text, d.read f.path = .ok text := by
  intro f hf
  apply Classical.byContradiction
  intro hnone
  have hread : ∃ f ∈ d.scanned e.job.outRoot, ∀ text, d.read f.path ≠ .ok text :=
    ⟨f, hf, fun text htext => hnone ⟨text, htext⟩⟩
  have herror : ∃ error, ((e.runAs manner).on .idle s d).1.1.1 = .error error := by
    cases manner with
    | sequential => exact runSync_fails e s hd hread
    | concurrent schedule => exact run_fails e schedule s hd hread
  obtain ⟨error, herror⟩ := herror
  cases h.symm.trans herror

theorem exists_scan_of_runAs {r : RunReport} (h : ((e.runAs manner).on .idle s d).1.1.1 = .ok r) :
    ∃ files, d.scan e.job.outRoot = .ok files := by
  cases hscan : d.scan e.job.outRoot with
  | ok files => exact ⟨files, rfl⟩
  | error error =>
    have hrun : (e.runAs manner).on .idle s d = (((.error error, .idle), s), d) := by
      cases manner with
      | sequential => exact runSync_of_error s d hscan
      | concurrent schedule => exact run_of_error e schedule s hscan
    rw [hrun] at h
    cases h

/-- A run over files that can all be read succeeds if its report is accepted. -/
theorem runAs_of_readable (manner : Manner) (s : σ) (hd : d.IsTree)
    (haccepts : e.AcceptsReports) (hspares : e.SparesTree) {files : List Scanned}
    (hscan : d.scan e.job.outRoot = .ok files)
    (hread : ∀ f ∈ files, ∃ text, d.read f.path = .ok text) :
    ∃ s' d', Committed e.job d files d' ∧
      (e.runAs manner).on .idle s d =
        (((.ok ⟨e.job, Report.ofOutcomes files.length (files.map (e.job.noted d))⟩, .idle), s'),
          d') := by
  obtain ⟨d', htree, hsync⟩ := e.runSync_readable s hd hscan hread
  let report := Report.ofOutcomes files.length (files.map (e.job.noted d))
  refine ⟨(e.delivery report s d').2.1, d', htree, ?_⟩
  rw [runAs_eq_runSync hd (Disk.scanned_of_scan hscan ▸ hread), hsync]
  dsimp only
  rw [haccepts report s d', hspares report s d']
  rfl

/-- The texts of files after a run call for nothing. -/
theorem noted_after (hdry : e.job.dryRun = false) (hstems : e.job.HasPlainStems) {d' : Disk}
    {done : List Scanned} (htree : Committed e.job d done d') {f : Scanned} (hf : f ∈ done)
    (hinert : ∀ pair ∈ (e.job.noted d f).2.replacements, IsInert pair.2) :
    (∀ text, d'.read f.path = .ok text → (e.job.unaliased d' f.path text).text = text) ∧
      (e.job.noted d' f).2.replacements = [] ∧ (e.job.noted d' f).2.changed = false := by
  obtain ⟨l, text, hl, htext, hfile⟩ := htree.texts f hf
  have hread := htree.read_of_mem hf htext
  rw [Job.textAfter_eq hdry] at hread
  rw [Job.noted_of_read htext] at hinert
  obtain ⟨hsame, hquiet⟩ := Resolver.unaliased_unaliased hstems text hinert
  rw [Job.noted_of_read hread, Resolver.unaliased_congr _ _ htree.outline]
  refine ⟨?_, hquiet, ?_⟩
  · intro text' htext'
    cases hread.symm.trans htext'
    rw [Resolver.unaliased_congr _ _ htree.outline]
    exact hsame
  · rw [Resolver.changed_unaliased, hsame]
    simp

/-- A run over a tree that a run has left finds nothing to replace and writes nothing, each run in
either manner. The two hypotheses on the sink speak of what is outside: a sink that refuses the
report would fail a run, and one that writes to the tree could give the second run new work. An
engine without a sink meets both. -/
theorem second_run_changes_nothing (e : Engine σ) (haccepts : e.AcceptsReports)
    (hspares : e.SparesTree) (hdry : e.job.dryRun = false) (hstems : e.job.HasPlainStems)
    (d : Disk) (hd : d.IsTree) (s : σ) (first second : Manner) (r : RunReport)
    (hfirst : ((e.runAs first).on .idle s d).1.1.1 = .ok r)
    (hinert : ∀ entry ∈ r.report.replacements.entries, ∀ pair ∈ entry.2, IsInert pair.2) :
    let after := (e.runAs first).on .idle s d
    let again := (e.runAs second).on after.1.1.2 after.1.2 after.2
    ∃ r', again.1.1.1 = .ok r' ∧ r'.report.replacements.entries = [] ∧
      r'.report.changedFiles.entries = [] ∧ again.2 = after.2 := by
  obtain ⟨files, hscan⟩ := exists_scan_of_runAs hfirst
  have hread := exists_text_of_runAs hd hfirst
  rw [Disk.scanned_of_scan hscan] at hread
  obtain ⟨s', d', htree, hrun⟩ := runAs_of_readable first s hd haccepts hspares hscan hread
  rw [hrun] at hfirst
  cases hfirst
  have hnoted : ∀ f ∈ files,
      (∀ text, d'.read f.path = .ok text → (e.job.unaliased d' f.path text).text = text) ∧
        (e.job.noted d' f).2.replacements = [] ∧ (e.job.noted d' f).2.changed = false := by
    intro f hf
    apply noted_after hdry hstems htree hf
    intro pair hpair
    obtain ⟨entry, hentry, hmem⟩ := Report.exists_entry_of_mem files.length
      (List.mem_map_of_mem hf) hpair
    exact hinert entry hentry pair hmem
  have hd' := Disk.isTree_congr htree.outline hd
  have hscan' : d'.scan e.job.outRoot = .ok files :=
    (Disk.scan_congr htree.outline e.job.outRoot).trans hscan
  have hread' : ∀ f ∈ files, ∃ text, d'.read f.path = .ok text := by
    intro f hf
    obtain ⟨text, htext⟩ := hread f hf
    exact ⟨_, htree.read_of_mem hf htext⟩
  obtain ⟨s'', d'', htree', hrun'⟩ :=
    runAs_of_readable second s' hd' haccepts hspares hscan' hread'
  rw [hrun]
  dsimp only
  rw [hrun']
  refine ⟨_, rfl, ?_, ?_, ?_⟩
  · apply Report.replacements_eq_nil
    intro x hx
    obtain ⟨f, hf, rfl⟩ := List.mem_map.1 hx
    exact (hnoted f hf).2.1
  · apply Report.changedFiles_eq_nil
    intro x hx
    obtain ⟨f, hf, rfl⟩ := List.mem_map.1 hx
    exact (hnoted f hf).2.2
  · exact htree'.eq_self hd' fun f hf => (hnoted f hf).1

end Engine

theorem hasPlainStems_printing : printing.job.HasPlainStems := by
  intro rule hrule
  obtain rfl : rule = ⟨"@/", [""]⟩ := List.mem_singleton.1 hrule
  exact ⟨'@', ['/'], by decide +kernel, by decide, by decide⟩

/-- The first run rewrites a file; the second, whose tasks are scheduled, leaves it. -/
theorem second_run_oneFile :
    ∃ r, ((printing.runAs .sequential).on .idle [] oneFile).1.1.1 = .ok r ∧
      (∀ entry ∈ r.report.replacements.entries, ∀ pair ∈ entry.2, IsInert pair.2) ∧
      let after := (printing.runAs .sequential).on .idle [] oneFile
      let again := (printing.runAs (.concurrent [0, 0])).on after.1.1.2 after.1.2 after.2
      ∃ r', again.1.1.1 = .ok r' ∧ r'.report.replacements.entries = [] ∧
        r'.report.changedFiles.entries = [] ∧ again.2 = after.2 := by
  obtain ⟨s', d', -, hrun⟩ := Engine.runAs_of_readable .sequential [] oneFile.isTree
    printing_acceptsReports printing_sparesTree oneFile.scan_dist oneFile.readable
  have hfirst := congrArg (fun ended => ended.1.1.1) hrun
  have hinert : ∀ entry ∈ (Report.ofOutcomes 1 ([Sample.scanned "a.js"].map
      (printing.job.noted oneFile))).replacements.entries, ∀ pair ∈ entry.2, IsInert pair.2 := by
    intro entry hentry pair hpair
    obtain ⟨x, hx, hmem⟩ := Report.exists_outcome_of_entry _ hentry hpair
    have hnoted : printing.job.noted oneFile (Sample.scanned "a.js") = _ :=
      Sample.noted_file Sample.hasModule_src (by decide) oneFile.read_file
    rw [List.map_singleton, hnoted, List.mem_singleton] at hx
    rw [hx, List.mem_singleton] at hmem
    rw [hmem]
    exact Sample.isInert_new
  exact ⟨_, hfirst, hinert, printing.second_run_changes_nothing printing_acceptsReports
    printing_sparesTree rfl hasPlainStems_printing oneFile oneFile.isTree [] .sequential
    (.concurrent [0, 0]) _ hfirst hinert⟩

end Unalias
