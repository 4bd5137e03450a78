import Mathlib.Data.List.Perm.Subperm
import Unalias.Proofs.Reference.Frame
import Unalias.Proofs.Run.Agreement

/-!
What the report of a failed run leaves out. When a file cannot be read, others are in flight: some
have been written and not yet noted, and the writes of some land once the run has ended. No more of
them than are in flight beside the file are missing in the report, and it tells of all others.
-/

namespace Unalias

theorem Resolver.replacements_ne_nil {r : Resolver} {d : Disk} {file : Path} {text : String}
    (h : (r.unaliased d file text).text ≠ text) :
    (r.unaliased d file text).outcome.replacements ≠ [] := by
  intro hnil
  have hplain : ∀ pair ∈ (r.unaliased d file text).outcome.replacements, IsPlain pair.2.toList := by
    simp [hnil]
  obtain ⟨before, segs, hsearched⟩ := Resolver.exists_searched hplain
  apply h
  apply hsearched.text_eq_self
  simp [hnil]

namespace Job

/-- A file that can be read, and to which a new text is to be written. -/
def Rewrites (job : Job) (d : Disk) (f : Scanned) : Prop :=
  ∃ text, d.read f.path = .ok text ∧ job.writes (job.unaliased d f.path text) = true

/-- The write of the new text of a file. -/
def renewal (job : Job) (d : Disk) (f : Scanned) : Path × String :=
  (f.path, match d.read f.path with
    | .ok text => (job.unaliased d f.path text).text
    | .error _ => "")

variable {job : Job} {d : Disk} {f : Scanned} {text : String}

theorem renewal_of_read (h : d.read f.path = .ok text) :
    job.renewal d f = (f.path, (job.unaliased d f.path text).text) := by
  rw [renewal, h]

theorem changed_of_writes (h : job.writes (job.unaliased d f.path text) = true) :
    (job.unaliased d f.path text).outcome.changed = true ∧
      (job.unaliased d f.path text).text ≠ text := by
  rw [writes, Bool.and_eq_true] at h
  refine ⟨h.1, ?_⟩
  have hchanged := h.1
  rwa [Resolver.changed_unaliased, decide_eq_true_iff] at hchanged

end Job

namespace Committed

variable {job : Job} {d d' d'' : Disk} {done late : List Scanned} {f : Scanned} {l : Location}

/-- The files that differ from before are those to which a new text is written. -/
theorem get?_ne_iff (h : Committed job d done d') :
    d'.get? l ≠ d.get? l ↔ ∃ f ∈ done, d.locate f.path = .ok l ∧ job.Rewrites d f := by
  constructor
  · intro hdiffers
    by_contra hnone
    apply hdiffers
    by_cases hl : ∃ f ∈ done, d.locate f.path = .ok l
    · obtain ⟨f, hf, hl⟩ := hl
      obtain ⟨text, htext, hfile, hfile'⟩ := h.exists_text hf hl
      have hkeep : ¬job.writes (job.unaliased d f.path text) = true :=
        fun hwrites => hnone ⟨f, hf, hl, text, htext, hwrites⟩
      rw [hfile, hfile', Job.textAfter, if_neg hkeep]
    · exact h.others l fun f hf he => hl ⟨f, hf, he⟩
  · rintro ⟨f, hf, hl, text, htext, hwrites⟩ hsame
    obtain ⟨text', htext', hfile, hfile'⟩ := h.exists_text hf hl
    cases htext.symm.trans htext'
    rw [hfile, hfile', Job.textAfter, if_pos hwrites, Option.some.injEq, Entry.file.injEq] at hsame
    exact (Job.changed_of_writes hwrites).2 (String.toByteArray_inj.1 hsame)

/-- A write that lands late does what it would have done in time. -/
theorem land (hd : d.IsTree) (h : Committed job d done d')
    (hlate : ∀ f ∈ late, f ∈ d.scanned job.outRoot ∧ job.Rewrites d f) :
    Committed job d (late ++ done) ((Processed.land (late.map (job.renewal d))).run d').2 := by
  induction late generalizing done d' with
  | nil => exact h
  | cons f late ih =>
    obtain ⟨⟨hf, text, htext, hwrites⟩, hlate⟩ := List.forall_mem_cons.1 hlate
    obtain ⟨d₁, hoverwrite, h₁⟩ := h.overwrite_eq hd hf htext hwrites
    rw [List.map_cons, Job.renewal_of_read htext, Processed.land, Script.run_bind,
      Files.overwrite_run, hoverwrite]
    apply (ih h₁ hlate).of_mem_iff
    intro g
    simp only [List.cons_append, List.mem_cons, List.mem_append]
    exact or_left_comm

/-- What late writes change is in their files. -/
theorem exists_late (h : Committed job d done d') (h' : Committed job d (late ++ done) d'')
    (hdiffers : d''.get? l ≠ d'.get? l) : ∃ f ∈ late, d.locate f.path = .ok l := by
  by_contra hnone
  apply hdiffers
  by_cases hl : ∃ f ∈ done, d.locate f.path = .ok l
  · obtain ⟨f, hf, hl⟩ := hl
    obtain ⟨text, htext, -, hfile⟩ := h.exists_text hf hl
    obtain ⟨text', htext', -, hfile'⟩ := h'.exists_text (List.mem_append_right _ hf) hl
    cases htext.symm.trans htext'
    rw [hfile, hfile']
  · have hother : ∀ f ∈ done, d.locate f.path ≠ .ok l := fun f hf he => hl ⟨f, hf, he⟩
    rw [h.others l hother]
    apply h'.others
    intro f hf
    cases List.mem_append.1 hf with
    | inl hf => exact fun he => hnone ⟨f, hf, he⟩
    | inr hf => exact hother f hf

end Committed

/-! ### What a report tells of the files that are noted -/

namespace Report

variable {job : Job} {d : Disk} {done : List Scanned} {f : Scanned}

/-- A file that is noted is reported under its own key. -/
theorem reported_of_mem (hd : d.IsTree) (hnodup : done.Nodup)
    (hdone : ∀ f ∈ done, f ∈ d.scanned job.outRoot) (n : Nat) (hf : f ∈ done)
    (hrewrites : job.Rewrites d f) :
    f.key ∈ (ofOutcomes n (done.map (job.noted d))).changedFiles.keys ∧
      (job.noted d f).2.replacements ≠ [] ∧
      (ofOutcomes n (done.map (job.noted d))).replacements.get? f.key =
        some (job.noted d f).2.replacements := by
  have hmem : job.noted d f ∈ done.map (job.noted d) := List.mem_map_of_mem hf
  obtain ⟨text, htext, hwrites⟩ := hrewrites
  have hnoted : job.noted d f = _ := Job.noted_of_read htext
  obtain ⟨hchanged, hne⟩ := Job.changed_of_writes hwrites
  have hpairs : (job.noted d f).2.replacements ≠ [] := by
    rw [hnoted]
    exact Resolver.replacements_ne_nil hne
  have hitems : itemsOf Outcome.replacements f.key (done.map (job.noted d)) =
      (job.noted d f).2.replacements := by
    have hfilter := filter_file_eq (Job.nodup_keys_noted hd hnodup hdone) hmem
    have hkey : (job.noted d f).1 = f.key := rfl
    rw [hkey] at hfilter
    rw [itemsOf, hfilter, List.flatMap_singleton]
  refine ⟨?_, hpairs, ?_⟩
  · rw [mem_changedFiles_iff]
    refine ⟨_, hmem, rfl, ?_⟩
    rw [hnoted]
    exact hchanged
  · rw [get?_replacements, hitems, if_neg hpairs]

theorem not_reported_of_not_mem (hd : d.IsTree) (hdone : ∀ f ∈ done, f ∈ d.scanned job.outRoot)
    (n : Nat) (hf : f ∈ d.scanned job.outRoot) (hnew : f ∉ done) :
    f.key ∉ (ofOutcomes n (done.map (job.noted d))).changedFiles.keys ∧
      (ofOutcomes n (done.map (job.noted d))).replacements.get? f.key = none := by
  have hkey : ∀ x ∈ done.map (job.noted d), x.1 ≠ f.key := by
    intro x hx he
    obtain ⟨g, hg, rfl⟩ := List.mem_map.1 hx
    apply hnew
    have hkeys := Disk.keys_nodup_scanned hd job.outRoot
    have hsame : g = f := List.inj_on_of_nodup_map hkeys (hdone g hg) hf he
    exact hsame ▸ hg
  constructor
  · rw [mem_changedFiles_iff]
    rintro ⟨x, hx, he, -⟩
    exact hkey x hx he
  · have hitems : itemsOf Outcome.replacements f.key (done.map (job.noted d)) = [] := by
      have hnone : (done.map (job.noted d)).filter (·.1 = f.key) = [] :=
        List.filter_eq_nil_iff.2 fun x hx => by simpa using hkey x hx
      rw [itemsOf, hnone, List.flatMap_nil]
    rw [get?_replacements, hitems, if_pos rfl]

end Report

/-! ### What is in flight when a file cannot be read -/

def Stage.pending (f : Scanned) : Stage → List Scanned
  | .writing _ => [f]
  | _ => []

namespace Task

/-- The files whose write was begun and not done. -/
def pending (tasks : List Task) : List Scanned :=
  tasks.flatMap fun t => t.stage.pending t.file

theorem pending_cons (f : Scanned) (stage : Stage) (tasks : List Task) :
    pending (⟨f, stage⟩ :: tasks) = stage.pending f ++ pending tasks :=
  List.flatMap_cons

/-- No task counts twice. -/
theorem subperm_files (tasks : List Task) :
    (landed tasks ++ pending tasks).Subperm (tasks.map Task.file) := by
  induction tasks with
  | nil => exact List.Subperm.refl _
  | cons t tasks ih =>
    obtain ⟨f, stage⟩ := t
    rw [landed_cons, pending_cons, List.map_cons]
    cases stage with
    | reading => exact ih.trans (List.sublist_cons_self _ _).subperm
    | loaded text => exact ih.trans (List.sublist_cons_self _ _).subperm
    | writing new => exact List.perm_middle.subperm.trans ((List.subperm_cons f).2 ih)
    | written outcome => exact (List.subperm_cons f).2 ih

/-- The writes left over are those of the new texts of the files. -/
theorem leftover_eq {job : Job} {d : Disk} {tasks : List Task}
    (hfits : ∀ t ∈ tasks, t.stage.Fits job d t.file) :
    tasks.filterMap leftover? = (pending tasks).map (job.renewal d) ∧
      ∀ f ∈ pending tasks, job.Rewrites d f := by
  induction tasks with
  | nil => exact ⟨rfl, fun _ h => absurd h List.not_mem_nil⟩
  | cons t tasks ih =>
    obtain ⟨f, stage⟩ := t
    obtain ⟨hfit, hrest⟩ := List.forall_mem_cons.1 hfits
    have hfit : stage.Fits job d f := hfit
    obtain ⟨hleft, hrewrites⟩ := ih hrest
    rw [List.filterMap_cons, pending_cons, hleft]
    cases stage with
    | writing new =>
      obtain ⟨text, htext, rfl, hwrites⟩ := hfit
      constructor
      · rw [Stage.pending, List.singleton_append, List.map_cons, Job.renewal_of_read htext]
        rfl
      · exact List.forall_mem_cons.2 ⟨⟨text, htext, hwrites⟩, hrewrites⟩
    | _ => exact ⟨rfl, hrewrites⟩

end Task

namespace Pool

/-- How the work on files ends that one of them stops: the files `done` are noted, `silent` were
processed and not noted, and the writes of `late` are left over. -/
structure Stopped (job : Job) (d : Disk) (limit : Nat) (done silent late : List Scanned)
    (p : Processed) (d' : Disk) : Prop where
  result : ∃ f ∈ d.scanned job.outRoot, ∃ cause, d.read f.path = .error cause ∧
    p.result = .error (.filesAt f.path cause)
  outcomes : p.outcomes = done.map (job.noted d)
  apart : (done ++ (silent ++ late)).Nodup
  few : silent.length + late.length < limit
  scanned : ∀ f ∈ late, f ∈ d.scanned job.outRoot
  rewrites : ∀ f ∈ late, job.Rewrites d f
  leftover : p.leftover = late.map (job.renewal d)
  tree : Committed job d (silent ++ done) d'

variable {job : Job} {d d' d'' : Disk} {pool : Pool} {done : List Scanned} {p : Processed}

theorem Sound.stopped_of_refused (hd : d.IsTree) (h : Sound job d pool done d') {limit : Nat}
    (hflying : pool.flying.length ≤ limit) {f : Scanned} {stage : Stage} {others : List Task}
    (hperm : pool.flying.Perm (⟨f, stage⟩ :: others)) {cause : OsError}
    (hread : d.read f.path = .error cause) :
    Stopped job d limit done (Task.landed others) (Task.pending others)
      (Pool.failed { pool with flying := others } (.filesAt f.path cause)) d' := by
  obtain ⟨hfits, hf, hnew, htree⟩ := h.task hd hperm
  have hothers : ∀ t ∈ others, t.stage.Fits job d t.file :=
    fun t ht => h.fits t (hperm.mem_iff.2 (List.mem_cons_of_mem _ ht))
  obtain ⟨hleft, hrewrites⟩ := Task.leftover_eq hothers
  have hparts := h.parts_cons hperm
  have hnodup := hparts.nodup_iff.2 (Disk.nodup_scanned hd job.outRoot)
  have hsub := Task.subperm_files others
  have hreading : stage.landed f = [] := by
    cases stage with
    | written outcome =>
      obtain ⟨text, htext, -⟩ := hfits
      cases hread.symm.trans htext
    | _ => rfl
  rw [hreading] at htree
  refine ⟨⟨f, hf, cause, hread, rfl⟩, h.outcomes, ?_, ?_, ?_, hrewrites, hleft, htree⟩
  · have hrest : (done ++ (others.map Task.file ++ pool.waiting)).Nodup :=
      (List.nodup_cons.1 hnodup).2
    rw [← List.append_assoc] at hrest
    obtain ⟨files, hfiles, hsublist⟩ := (List.subperm_append_left done).2 hsub
    exact hfiles.nodup_iff.1 ((List.nodup_append.1 hrest).1.sublist hsublist)
  · -- the file that cannot be read is in flight too
    have hlength := hsub.length_le
    rw [List.length_append, List.length_map] at hlength
    have hflying' := hperm.length_eq
    rw [List.length_cons] at hflying'
    omega
  · intro g hg
    apply hparts.mem_iff.1
    apply List.mem_cons_of_mem
    apply List.mem_append_right
    apply List.mem_append_left
    exact hsub.subset (List.mem_append_right _ hg)

theorem Sound.stopped_of_emptied (hd : d.IsTree) {waiting : List Scanned}
    {outcomes : List (String × Outcome)} (h : Sound job d ⟨waiting, [], outcomes⟩ done d')
    {limit : Nat} (hlimit : 0 < limit) (hrun : (job.processAll waiting).run d' = (p, d''))
    (hfails : p.result ≠ .ok ()) :
    Stopped job d limit (done ++ d.readable waiting) [] [] (p.after outcomes) d'' := by
  have hparts : (done ++ waiting).Perm (d.scanned job.outRoot) := h.parts
  have hnodup := hparts.nodup_iff.2 (Disk.nodup_scanned hd job.outRoot)
  obtain ⟨d₁, hrun', htree⟩ := h.processAll_run hd
  cases hrun.symm.trans hrun'
  obtain ⟨left, hleft, hok, herror⟩ := Disk.exists_left d waiting
  cases left with
  | nil => exact absurd (hok rfl) hfails
  | cons f rest =>
    obtain ⟨cause, hread, hrefusal⟩ := herror f rest rfl
    have hf : f ∈ waiting := hleft ▸ List.mem_append_right _ List.mem_cons_self
    have houtcomes : outcomes = done.map (job.noted d) := h.outcomes
    refine ⟨⟨f, hparts.mem_iff.1 (List.mem_append_right _ hf), cause, hread, hrefusal⟩, ?_, ?_,
      hlimit, List.forall_mem_nil _, List.forall_mem_nil _, rfl, ?_⟩
    · rw [List.map_append, ← houtcomes]
      rfl
    · rw [hleft, ← List.append_assoc] at hnodup
      simpa using (List.nodup_append.1 hnodup).1
    · apply htree.of_mem_iff
      intro g
      rw [List.nil_append, List.mem_append, List.mem_append, or_comm]

theorem Sound.exists_stopped (hd : d.IsTree) (h : Sound job d pool done d') {limit : Nat}
    (hlimit : 0 < limit) (hflying : pool.flying.length ≤ limit)
    (hlast : Last job d pool d' (p, d'')) (hfails : p.result ≠ .ok ()) :
    ∃ done silent late, Stopped job d limit done silent late p d'' := by
  cases hlast with
  | refused hperm hread => exact ⟨_, _, _, h.stopped_of_refused hd hflying hperm hread⟩
  | emptied hempty hrun =>
    have hpool : Sound job d ⟨pool.waiting, [], pool.outcomes⟩ done d' := hempty ▸ h
    exact ⟨_, _, _, hpool.stopped_of_emptied hd hlimit hrun hfails⟩

/-- The work on a tree with a file that cannot be read comes to an early end. -/
theorem run_stopped (hd : d.IsTree) {limit : Nat} (hlimit : 0 < limit) (schedule : List Nat)
    (hread : ∃ f ∈ d.scanned job.outRoot, ∀ text, d.read f.path ≠ .ok text) :
    ∃ p d' done silent late,
      ((Pool.start limit (d.scanned job.outRoot)).run job limit schedule).run d = (p, d') ∧
        Stopped job d limit done silent late p d' := by
  obtain ⟨f, hf, hfail⟩ := hread
  have hstart := (Sound.start job d).refill limit
  obtain ⟨p, d', pool, earlier, d₀, hrun, hsound, hlength, hlast⟩ :=
    exists_last hd hstart limit schedule
  have hfails : p.result ≠ .ok () := by
    intro hok
    cases hsound.ended hd hlast with
    | complete _ htree =>
      obtain ⟨-, text, -, htext, -⟩ := htree.texts f hf
      exact hfail text htext
    | failed h =>
      obtain ⟨g, -, cause, -, hresult⟩ := h.result
      cases hok.symm.trans hresult
  have hstarted := length_refill { waiting := d.scanned job.outRoot } limit
  have hflying : pool.flying.length ≤ limit := by
    simp only [List.length_nil] at hstarted
    omega
  obtain ⟨done, silent, late, hstopped⟩ := hsound.exists_stopped hd hlimit hflying hlast hfails
  exact ⟨p, d', done, silent, late, hrun, hstopped⟩

end Pool

namespace Engine

variable {σ : Type}

/-- What a run hands to its end: its report, and the tree as it is then. -/
def handed (e : Engine σ) (schedule : List Nat) (d : Disk) : Report × Disk :=
  let files := d.scanned e.job.outRoot
  let processed := ((Pool.start e.concurrency files).run e.job e.concurrency schedule).run d
  (processed.1.report files.length, processed.2)

/-- A run whose report tells of every file that it changes, and that changes none once the report
is made. -/
structure ReportsAll (e : Engine σ) (schedule : List Nat) (s : σ) (d : Disk) : Prop where
  told : ∀ f ∈ d.scanned e.job.outRoot, ∀ l, d.locate f.path = .ok l →
    ((e.run schedule).on .idle s d).2.get? l ≠ d.get? l →
      f.key ∈ (e.handed schedule d).1.changedFiles.keys ∧
        (e.handed schedule d).1.replacements.get? f.key = some (e.job.noted d f).2.replacements
  settled : ((e.run schedule).on .idle s d).2 = (e.handed schedule d).2

/-- What a run does that a file stops. The files `done` are in its report, `silent` were processed
and are not, and the writes of `late` land once the run has ended: the tree is `d₁` when the report
is made and `d₂` at last. -/
structure Stops (e : Engine σ) (schedule : List Nat) (s : σ) (d : Disk)
    (done silent late : List Scanned) (d₁ d₂ : Disk) (report : Report) (error : Error) : Prop where
  names : ∃ f ∈ d.scanned e.job.outRoot, ∃ cause, d.Unreadable f.path cause ∧
    error = .filesAt f.path cause
  apart : (done ++ (silent ++ late)).Nodup
  few : silent.length + late.length < e.concurrency
  hands : e.handed schedule d = (report, d₁)
  runs : (e.run schedule).on .idle s d =
    (((.error error, .idle), (e.delivery report s d₁).2.1), d₂)
  ended : Committed e.job d (silent ++ done) d₁
  landed : Committed e.job d (late ++ (silent ++ done)) d₂
  rewrites : ∀ f ∈ late, e.job.Rewrites d f
  lands : ∀ l, d₂.get? l ≠ d₁.get? l → ∃ f ∈ late, d.locate f.path = .ok l
  alters : ∀ l, d₂.get? l ≠ d.get? l ↔
    ∃ f ∈ late ++ (silent ++ done), d.locate f.path = .ok l ∧ e.job.Rewrites d f
  reports : ∀ f ∈ done, e.job.Rewrites d f → f.key ∈ report.changedFiles.keys ∧
    (e.job.noted d f).2.replacements ≠ [] ∧
      report.replacements.get? f.key = some (e.job.noted d f).2.replacements
  omits : ∀ f ∈ silent ++ late, f.key ∉ report.changedFiles.keys ∧
    report.replacements.get? f.key = none

namespace Stops

variable {e : Engine σ} {schedule : List Nat} {s : σ} {d : Disk}
  {done silent late : List Scanned} {d₁ d₂ : Disk} {report : Report} {error : Error}

/-- The report is complete just if nothing was rewritten among the files in flight. -/
theorem reportsAll_iff (hd : d.IsTree)
    (h : e.Stops schedule s d done silent late d₁ d₂ report error) :
    e.ReportsAll schedule s d ↔ ∀ f ∈ silent ++ late, ¬e.job.Rewrites d f := by
  have hfinal : ((e.run schedule).on .idle s d).2 = d₂ := by rw [h.runs]
  constructor
  · intro hall f hf hrewrites
    have hmem : f ∈ late ++ (silent ++ done) := by
      rw [← List.append_assoc]
      apply List.mem_append_left
      exact List.mem_append.2 (List.mem_append.1 hf).symm
    obtain ⟨l, -, hl, -⟩ := h.landed.texts f hmem
    have hdiffers := (h.alters l).2 ⟨f, hmem, hl, hrewrites⟩
    have htold := hall.told f (h.landed.scanned f hmem) l hl (hfinal ▸ hdiffers)
    rw [h.hands] at htold
    exact (h.omits f hf).1 htold.1
  · intro hnone
    have hlate : late = [] := by
      apply List.eq_nil_iff_forall_not_mem.2
      intro f hf
      exact hnone f (List.mem_append_right _ hf) (h.rewrites f hf)
    have hlanded := h.landed
    rw [hlate, List.nil_append] at hlanded
    constructor
    · intro f hf l hl hdiffers
      rw [hfinal, hlanded.get?_ne_iff] at hdiffers
      obtain ⟨g, hg, hgl, hrewrites⟩ := hdiffers
      obtain rfl := Disk.eq_of_locate hd hf (hlanded.scanned g hg) hl hgl
      rw [h.hands]
      cases List.mem_append.1 hg with
      | inl hg => exact absurd hrewrites (hnone _ (List.mem_append_left _ hg))
      | inr hg =>
        obtain ⟨hchanged, -, hpairs⟩ := h.reports f hg hrewrites
        exact ⟨hchanged, hpairs⟩
    · rw [hfinal, h.hands]
      exact hlanded.unique hd h.ended

theorem reportsAll_of_one (hd : d.IsTree)
    (h : e.Stops schedule s d done silent late d₁ d₂ report error) (hone : e.concurrency = 1) :
    e.ReportsAll schedule s d := by
  have hfew := h.few
  obtain rfl : silent = [] := List.eq_nil_of_length_eq_zero (by omega)
  obtain rfl : late = [] := List.eq_nil_of_length_eq_zero (by omega)
  exact (h.reportsAll_iff hd).2 fun f hf => absurd hf List.not_mem_nil

end Stops

theorem stops_of_stopped {e : Engine σ} {schedule : List Nat} (hspares : e.SparesTree) (s : σ)
    {d d' : Disk} (hd : d.IsTree) {p : Processed} {done silent late : List Scanned}
    (hrun : ((Pool.start e.concurrency (d.scanned e.job.outRoot)).run e.job e.concurrency
      schedule).run d = (p, d'))
    (h : Pool.Stopped e.job d e.concurrency done silent late p d') :
    ∃ d₂ report error, e.Stops schedule s d done silent late d' d₂ report error := by
  obtain ⟨f, hf, cause, hcause, hresult⟩ := h.result
  obtain ⟨hnodup, -, hapart⟩ := List.nodup_append.1 h.apart
  have hdone : ∀ g ∈ done, g ∈ d.scanned e.job.outRoot :=
    fun g hg => h.tree.scanned g (List.mem_append_right _ hg)
  have hlanded := h.tree.land hd fun g hg => ⟨h.scanned g hg, h.rewrites g hg⟩
  have hends := run_of_pool e schedule s (Disk.scan_of_mem hf) (List.ne_nil_of_mem hf) hrun
  have hkeys : (p.outcomes.map Prod.fst).Nodup := by
    rw [h.outcomes]
    exact Job.nodup_keys_noted hd hnodup hdone
  let report := Report.ofOutcomes (d.scanned e.job.outRoot).length (done.map (e.job.noted d))
  refine ⟨((Processed.land (late.map (e.job.renewal d))).run d').2, report,
    .filesAt f.path cause, ?_⟩
  exact
    { names := ⟨f, hf, cause, Disk.unreadable_of_read hd hf hcause, rfl⟩
      apart := h.apart
      few := h.few
      hands := by rw [handed, hrun, Processed.report_of_nodup hkeys, h.outcomes]
      runs := by
        rw [hends, h.leftover]
        simp only [tree_concluded _ _ hspares]
        rw [concluded_of_nodup e s d' _ hkeys, hresult, h.outcomes]
        rfl
      ended := h.tree
      landed := hlanded
      rewrites := h.rewrites
      lands := fun _ => h.tree.exists_late hlanded
      alters := fun _ => hlanded.get?_ne_iff
      reports := fun g hg => Report.reported_of_mem hd hnodup hdone _ hg
      omits := fun g hg => by
        have hscanned : g ∈ d.scanned e.job.outRoot := by
          cases List.mem_append.1 hg with
          | inl hg => exact h.tree.scanned g (List.mem_append_left _ hg)
          | inr hg => exact h.scanned g hg
        exact Report.not_reported_of_not_mem hd hdone _ hscanned fun hg' => hapart g hg' g hg rfl }

/-- A run that a file stops, whatever the order of steps: its report is complete just if no other
file in flight was rewritten, as when there is none. -/
theorem run_stops (e : Engine σ) (schedule : List Nat) (hspares : e.SparesTree) (s : σ) (d : Disk)
    (hd : d.IsTree) (hread : ∃ f ∈ d.scanned e.job.outRoot, ∀ text, d.read f.path ≠ .ok text) :
    ∃ done silent late d₁ d₂ report error,
      e.Stops schedule s d done silent late d₁ d₂ report error ∧
      (e.ReportsAll schedule s d ↔ ∀ f ∈ silent ++ late, ¬e.job.Rewrites d f) ∧
      (e.concurrency = 1 → e.ReportsAll schedule s d) := by
  obtain ⟨p, d₁, done, silent, late, hrun, hstopped⟩ :=
    Pool.run_stopped hd e.concurrency_pos schedule hread
  obtain ⟨d₂, report, error, h⟩ := stops_of_stopped hspares s hd hrun hstopped
  exact ⟨done, silent, late, d₁, d₂, report, error, h, h.reportsAll_iff hd, h.reportsAll_of_one hd⟩

end Engine

/-! ### A file that is overtaken -/

namespace Pool

variable {job : Job} {d d' d'' : Disk} {limit : Nat} {waiting : List Scanned} {t u : Task}
  {others : List Task} {outcomes : List (String × Outcome)}

theorem step_first {next : Stage} (h : (t.advance job).on d' = (.ok (.inl next), d'')) :
    ((⟨waiting, t :: others, outcomes⟩ : Pool).step job limit 0).run d' =
      (.ok ⟨waiting, { t with stage := next } :: others, outcomes⟩, d'') := by
  rw [step, List.getElem?_cons_zero]
  dsimp only
  rw [Script.run_bind, ← Attempt.on, h]
  rfl

theorem step_second_error {error : Error}
    (h : (u.advance job).on d' = (.error error, d'')) :
    ((⟨waiting, t :: u :: others, outcomes⟩ : Pool).step job limit 1).run d' =
      (.error (Pool.failed ⟨waiting, t :: others, outcomes⟩ error), d'') := by
  rw [step, List.getElem?_cons_succ, List.getElem?_cons_zero]
  dsimp only
  rw [Script.run_bind, ← Attempt.on, h]
  rfl

theorem start_cons_cons (k : Nat) (a z : Scanned) (rest : List Scanned) :
    Pool.start (k + 2) (a :: z :: rest) = ⟨rest.drop k,
      ⟨a, .reading⟩ :: ⟨z, .reading⟩ :: (rest.take k).map fun f => { file := f }, []⟩ :=
  rfl

theorem leftover_of_reading (files : List Scanned) :
    (files.map fun f => ({ file := f } : Task)).filterMap Task.leftover? = [] := by
  rw [List.filterMap_map]
  exact List.filterMap_eq_nil_iff.2 fun _ _ => rfl

/-- The first file can come to its write, or past it, before the second is seen to be unreadable. -/
theorem run_overtaken (hd : d.IsTree) {a z : Scanned} (ha : a ∈ d.scanned job.outRoot)
    (hz : z ∈ d.scanned job.outRoot) {text : String} (htext : d.read a.path = .ok text)
    (hwrites : job.writes (job.unaliased d a.path text) = true) {cause : OsError}
    (hcause : d.read z.path = .error cause) (limit : Nat) (waiting : List Scanned)
    (others : List Task) :
    let pool : Pool := ⟨waiting, ⟨a, .reading⟩ :: ⟨z, .reading⟩ :: others, []⟩
    let stopped (stage : Stage) : Processed :=
      Pool.failed ⟨waiting, ⟨a, stage⟩ :: others, []⟩ (.filesAt z.path cause)
    (pool.run job limit [0, 0, 1]).run d =
        (stopped (.writing (job.unaliased d a.path text)), d) ∧
      ∃ d', Committed job d [a] d' ∧ (pool.run job limit [0, 0, 0, 1]).run d =
        (stopped (.written (job.unaliased d a.path text).outcome), d') := by
  have hnew : z ∉ [a] := by
    rw [List.mem_singleton]
    rintro rfl
    cases htext.symm.trans hcause
  obtain ⟨d', hfinish, htree⟩ := (Committed.nil job d).finish_on hd ha htext hwrites
  have hloaded := @Task.advance_loaded job d d a text rfl
  rw [if_pos hwrites] at hloaded
  intro pool stopped
  constructor
  · rw [run_of_step _ (step_first (Task.advance_reading htext)),
      run_of_step _ (step_first hloaded)]
    exact run_of_step_error _ (step_second_error (Task.advance_reading_error hcause))
  · refine ⟨d', htree, ?_⟩
    rw [run_of_step _ (step_first (Task.advance_reading htext)),
      run_of_step _ (step_first hloaded),
      run_of_step _ (step_first (Task.advance_writing hfinish))]
    have hcause' := (htree.read_of_not_mem hd hz hnew).trans hcause
    exact run_of_step_error _ (step_second_error (Task.advance_reading_error hcause'))

end Pool

namespace Engine

variable {σ : Type}

/-- With two files in flight, a file can be rewritten before a report is made that does not tell of
it, or after. -/
theorem run_overtaken (e : Engine σ) (hspares : e.SparesTree) (s : σ) {d : Disk} (hd : d.IsTree)
    (hlimit : 1 < e.concurrency) {a z : Scanned} {rest : List Scanned}
    (hscanned : d.scanned e.job.outRoot = a :: z :: rest) (ha : e.job.Rewrites d a)
    {cause : OsError} (hz : d.read z.path = .error cause) :
    let silence := Report.ofOutcomes (d.scanned e.job.outRoot).length []
    ∃ d', Committed e.job d [a] d' ∧
      e.handed [0, 0, 0, 1] d = (silence, d') ∧ ((e.run [0, 0, 0, 1]).on .idle s d).2 = d' ∧
      e.handed [0, 0, 1] d = (silence, d) ∧ ((e.run [0, 0, 1]).on .idle s d).2 = d' := by
  obtain ⟨text, htext, hwrites⟩ := ha
  obtain ⟨k, hk⟩ : ∃ k, e.concurrency = k + 2 := ⟨e.concurrency - 2, by omega⟩
  have hstart := Pool.start_cons_cons k a z rest
  rw [← hk, ← hscanned] at hstart
  have hamem : a ∈ d.scanned e.job.outRoot := by simp [hscanned]
  have hzmem : z ∈ d.scanned e.job.outRoot := by simp [hscanned]
  have hscan := Disk.scan_of_mem hamem
  have hfiles := List.ne_nil_of_mem hamem
  obtain ⟨hlate, d', htree, hsilent⟩ := Pool.run_overtaken hd hamem hzmem htext hwrites hz
    e.concurrency (rest.drop k) ((rest.take k).map fun f => { file := f })
  rw [← hstart] at hlate hsilent
  obtain ⟨d'', hoverwrite, htree'⟩ := (Committed.nil e.job d).overwrite_eq hd hamem htext hwrites
  refine ⟨d', htree, ?_, ?_, ?_, ?_⟩
  · rw [handed, hsilent]
    rfl
  · rw [run_of_pool e _ s hscan hfiles hsilent]
    simp only [tree_concluded _ _ hspares, Pool.failed, List.filterMap_cons, Task.leftover?,
      Pool.leftover_of_reading]
    rfl
  · rw [handed, hlate]
    rfl
  · rw [run_of_pool e _ s hscan hfiles hlate]
    simp only [tree_concluded _ _ hspares, Pool.failed, List.filterMap_cons, Task.leftover?,
      Pool.leftover_of_reading]
    rw [Processed.land, Script.run_bind, Files.overwrite_run, hoverwrite]
    exact htree'.unique hd htree

end Engine

/-! ### A tree with a file that cannot be read -/

def twoFiles : Disk :=
  Sample.tree [("a.js", "require('@/b.ts')".toUTF8), ("z.js", ⟨#[0xff]⟩)] (by decide)

namespace twoFiles

theorem isTree : twoFiles.IsTree := by
  decide

theorem scan_dist :
    twoFiles.scan ⟨"/w/dist"⟩ = .ok [Sample.scanned "a.js", Sample.scanned "z.js"] :=
  Sample.scan_dist (by decide) (by decide)

theorem locate_first :
    twoFiles.locate (Sample.scanned "a.js").path = .ok ["w", "dist", "a.js"] :=
  Sample.locate_file isTree List.mem_cons_self (by decide)

theorem read_first : twoFiles.read (Sample.scanned "a.js").path = .ok "require('@/b.ts')" :=
  Sample.read_file isTree List.mem_cons_self (by decide)

theorem read_second : twoFiles.read (Sample.scanned "z.js").path = .error .notUtf8 :=
  Sample.read_file_error isTree (List.mem_cons_of_mem _ List.mem_cons_self) (by decide) (by decide)

theorem rewrites_first : Sample.job.Rewrites twoFiles (Sample.scanned "a.js") := by
  have hmodule : twoFiles.hasModule ⟨"/w/src/b.ts"⟩ = true := Sample.hasModule_src
  refine ⟨_, read_first, ?_⟩
  rw [Sample.unaliased_file hmodule (by decide)]
  rfl

end twoFiles

def pairing : Engine Unit :=
  Engine.ofJob Sample.job 2 none

theorem pairing_sparesTree : pairing.SparesTree :=
  Engine.sparesTree_of_quiet (.inl rfl)

theorem scanned_pairing : twoFiles.scanned pairing.job.outRoot =
    [Sample.scanned "a.js", Sample.scanned "z.js"] :=
  Disk.scanned_of_scan twoFiles.scan_dist

theorem unreadable_twoFiles :
    ∃ f ∈ twoFiles.scanned pairing.job.outRoot, ∀ text, twoFiles.read f.path ≠ .ok text := by
  refine ⟨Sample.scanned "z.js", by simp [scanned_pairing], ?_⟩
  intro text htext
  cases twoFiles.read_second.symm.trans htext

theorem run_stops_twoFiles :
    pairing.SparesTree ∧ twoFiles.IsTree ∧
      (∃ f ∈ twoFiles.scanned pairing.job.outRoot, ∀ text, twoFiles.read f.path ≠ .ok text) ∧
      ∃ done silent late d₁ d₂ report error,
        pairing.Stops [0, 0, 0, 1] () twoFiles done silent late d₁ d₂ report error ∧
        (pairing.ReportsAll [0, 0, 0, 1] () twoFiles ↔
          ∀ f ∈ silent ++ late, ¬pairing.job.Rewrites twoFiles f) ∧
        (pairing.concurrency = 1 → pairing.ReportsAll [0, 0, 0, 1] () twoFiles) :=
  ⟨pairing_sparesTree, twoFiles.isTree, unreadable_twoFiles,
    pairing.run_stops [0, 0, 0, 1] pairing_sparesTree () twoFiles twoFiles.isTree
      unreadable_twoFiles⟩

/-- The report of a run that fails need not tell of every file that was changed. -/
theorem not_reportsAll_of_unreadable :
    ¬∀ (e : Engine Unit) (schedule : List Nat) (d : Disk), e.SparesTree → e.job.dryRun = false →
      d.IsTree → (∃ f ∈ d.scanned e.job.outRoot, ∀ text, d.read f.path ≠ .ok text) →
      e.ReportsAll schedule () d := by
  intro h
  have hlimit : 1 < pairing.concurrency := by decide
  obtain ⟨d', htree, hhands, hfinal, -⟩ := pairing.run_overtaken pairing_sparesTree ()
    twoFiles.isTree hlimit scanned_pairing twoFiles.rewrites_first twoFiles.read_second
  have hall := h pairing [0, 0, 0, 1] twoFiles pairing_sparesTree rfl twoFiles.isTree
    unreadable_twoFiles
  have hdiffers := htree.get?_ne_iff.2
    ⟨_, List.mem_cons_self, twoFiles.locate_first, twoFiles.rewrites_first⟩
  rw [← hfinal] at hdiffers
  have hfirst : Sample.scanned "a.js" ∈ twoFiles.scanned pairing.job.outRoot := by
    rw [scanned_pairing]
    exact List.mem_cons_self
  obtain ⟨htold, -⟩ := hall.told _ hfirst _ twoFiles.locate_first hdiffers
  rw [hhands, Report.mem_changedFiles_iff] at htold
  obtain ⟨x, hx, -⟩ := htold
  exact absurd hx List.not_mem_nil

end Unalias
