import Mathlib.Data.List.Perm.Basic
import Unalias.Proofs.Run.Commit
import Unalias.Run.Pool

/-!
Tasks in flight. Whatever task is chosen at each step, a task finds its file as it was at first and
writes what it would write alone; so a pool ends with all files done, or because a file cannot be
read.
-/

namespace Unalias

theorem Processed.after_after (earlier later : List (String × Outcome)) (p : Processed) :
    (p.after later).after earlier = p.after (earlier ++ later) := by
  simp [Processed.after]

namespace Stage

/-- What a task for `f` holds at a stage is what comes of the text that `f` held at first. -/
def Fits (job : Job) (d : Disk) (f : Scanned) : Stage → Prop
  | .reading => True
  | .loaded text => d.read f.path = .ok text
  | .writing new => ∃ text, d.read f.path = .ok text ∧ new = job.unaliased d f.path text ∧
      job.writes new = true
  | .written outcome => ∃ text, d.read f.path = .ok text ∧
      outcome = (job.unaliased d f.path text).outcome

def landed (f : Scanned) : Stage → List Scanned
  | .written _ => [f]
  | _ => []

theorem eq_of_mem_landed {f g : Scanned} {stage : Stage} (h : g ∈ stage.landed f) : g = f := by
  cases stage with
  | written _ => exact List.mem_singleton.1 h
  | _ => cases h

end Stage

namespace Task

section Advance

variable {job : Job} {d d' d'' : Disk} {f : Scanned} {text : String} {new : Unaliased}

theorem advance_reading (h : d'.read f.path = .ok text) :
    (advance job ⟨f, .reading⟩).on d' = (.ok (.inl (.loaded text)), d') := by
  rw [advance, Attempt.bind_on_ok (Attempt.read_on_ok h)]
  rfl

theorem advance_reading_error {cause : OsError} (h : d'.read f.path = .error cause) :
    (advance job ⟨f, .reading⟩).on d' = (.error (.filesAt f.path cause), d') := by
  rw [advance, Attempt.bind_on_error (Attempt.read_on_error h)]

theorem advance_loaded (h : d'.outline = d.outline) :
    (advance job ⟨f, .loaded text⟩).on d' =
      (.ok (if job.writes (job.unaliased d f.path text) then
        .inl (.writing (job.unaliased d f.path text))
        else .inr (job.unaliased d f.path text).outcome), d') := by
  rw [advance, Attempt.bind_on, Attempt.lift_on, Resolver.unalias_run,
    Resolver.unaliased_congr _ _ h]
  rfl

theorem advance_writing {outcome : Outcome} (h : (Job.finish f new).on d' = (.ok outcome, d'')) :
    (advance job ⟨f, .writing new⟩).on d' = (.ok (.inl (.written outcome)), d'') := by
  rw [advance, Attempt.bind_on_ok h]
  rfl

end Advance

section Step

variable {job : Job} {d d' : Disk} {f : Scanned} {stage : Stage} {done : List Scanned}

/-- One step of a task: its file cannot be read, or it goes on, or its file is done. -/
theorem advance_on (hd : d.IsTree) (hfits : stage.Fits job d f) (hf : f ∈ d.scanned job.outRoot)
    (hnew : f ∉ done) (h : Committed job d (stage.landed f ++ done) d') :
    (∃ cause, d.read f.path = .error cause ∧
      (advance job ⟨f, stage⟩).on d' = (.error (.filesAt f.path cause), d')) ∨
    (∃ next d'', (advance job ⟨f, stage⟩).on d' = (.ok (.inl next), d'') ∧
      next.Fits job d f ∧ Committed job d (next.landed f ++ done) d'') ∨
    (∃ d'', (advance job ⟨f, stage⟩).on d' = (.ok (.inr (job.noted d f).2), d'') ∧
      Committed job d (f :: done) d'') := by
  cases stage with
  | reading =>
    have hsame := h.read_of_not_mem hd hf hnew
    cases hread : d.read f.path with
    | error cause =>
      exact .inl ⟨cause, rfl, advance_reading_error (hsame.trans hread)⟩
    | ok text =>
      exact .inr (.inl ⟨.loaded text, d', advance_reading (hsame.trans hread), hread, h⟩)
  | loaded text =>
    have hadvance := @advance_loaded job _ _ f text h.outline
    by_cases hwrites : job.writes (job.unaliased d f.path text) = true
    · rw [if_pos hwrites] at hadvance
      exact .inr (.inl ⟨.writing _, d', hadvance, ⟨text, hfits, rfl, hwrites⟩, h⟩)
    · rw [if_neg hwrites] at hadvance
      refine .inr (.inr ⟨d', ?_, h.skip hd hf hnew hfits (Bool.eq_false_iff.2 hwrites)⟩)
      rw [Job.noted_of_read hfits]
      exact hadvance
  | writing new =>
    obtain ⟨text, htext, rfl, hwrites⟩ := hfits
    obtain ⟨d'', hfinish, h'⟩ := h.finish_on hd hf htext hwrites
    exact .inr (.inl ⟨.written _, d'', advance_writing hfinish, ⟨text, htext, rfl⟩, h'⟩)
  | written outcome =>
    obtain ⟨text, htext, rfl⟩ := hfits
    refine .inr (.inr ⟨d', ?_, h⟩)
    rw [Job.noted_of_read htext]
    rfl

theorem complete_on (hd : d.IsTree) (hfits : stage.Fits job d f) (hf : f ∈ d.scanned job.outRoot)
    (hnew : f ∉ done) (h : Committed job d (stage.landed f ++ done) d') :
    (∃ cause, d.read f.path = .error cause ∧
      (complete job ⟨f, stage⟩).on d' = (.error (.filesAt f.path cause), d')) ∨
    (∃ d'', (complete job ⟨f, stage⟩).on d' = (.ok (job.noted d f).2, d'') ∧
      Committed job d (f :: done) d'') := by
  cases stage with
  | reading =>
    cases hread : d.read f.path with
    | error cause => exact .inl ⟨cause, rfl, h.process_on_error hd hf hnew hread⟩
    | ok text =>
      rw [Job.noted_of_read hread]
      exact .inr (h.process_on hd hf hnew hread)
  | loaded text =>
    rw [Job.noted_of_read hfits]
    exact .inr (h.proceed_on hd hf hnew hfits)
  | writing new =>
    obtain ⟨text, htext, rfl, hwrites⟩ := hfits
    rw [Job.noted_of_read htext]
    exact .inr (h.finish_on hd hf htext hwrites)
  | written outcome =>
    obtain ⟨text, htext, rfl⟩ := hfits
    rw [Job.noted_of_read htext]
    exact .inr ⟨d', rfl, h⟩

end Step

def landed (tasks : List Task) : List Scanned :=
  tasks.flatMap fun t => t.stage.landed t.file

theorem landed_cons (f : Scanned) (stage : Stage) (tasks : List Task) :
    landed (⟨f, stage⟩ :: tasks) = stage.landed f ++ landed tasks :=
  List.flatMap_cons

theorem mem_files_of_landed {tasks : List Task} {f : Scanned} (h : f ∈ landed tasks) :
    f ∈ tasks.map Task.file := by
  obtain ⟨t, ht, hf⟩ := List.mem_flatMap.1 h
  exact Stage.eq_of_mem_landed hf ▸ List.mem_map_of_mem ht

end Task

namespace Pool

/-- How a pool stands to the tree `d'` after some steps of a run that began on `d`, when the files
`done` are done. -/
structure Sound (job : Job) (d : Disk) (pool : Pool) (done : List Scanned) (d' : Disk) :
    Prop where
  parts : (done ++ (pool.flying.map Task.file ++ pool.waiting)).Perm (d.scanned job.outRoot)
  outcomes : pool.outcomes = done.map (job.noted d)
  fits : ∀ t ∈ pool.flying, t.stage.Fits job d t.file
  tree : Committed job d (Task.landed pool.flying ++ done) d'

namespace Sound

variable {job : Job} {d d' d'' : Disk} {pool : Pool} {done : List Scanned} {f : Scanned}
  {stage next : Stage} {others flying : List Task}

theorem start (job : Job) (d : Disk) :
    Sound job d { waiting := d.scanned job.outRoot } [] d where
  parts := .refl _
  outcomes := rfl
  fits _ h := absurd h List.not_mem_nil
  tree := .nil job d

theorem refill (h : Sound job d pool done d') (limit : Nat) :
    Sound job d (pool.refill limit) done d' where
  parts := by
    have hfiles : ((pool.refill limit).flying.map Task.file ++ (pool.refill limit).waiting) =
        pool.flying.map Task.file ++ pool.waiting := by
      simp [Pool.refill, Function.comp_def]
    rw [hfiles]
    exact h.parts
  outcomes := h.outcomes
  fits t ht := by
    cases List.mem_append.1 ht with
    | inl ht => exact h.fits t ht
    | inr ht =>
      obtain ⟨f, -, rfl⟩ := List.mem_map.1 ht
      trivial
  tree := by
    have hlanded : Task.landed (pool.refill limit).flying = Task.landed pool.flying := by
      simp only [Pool.refill, Task.landed, List.flatMap_append, List.flatMap_map]
      simp [Stage.landed]
    rw [hlanded]
    exact h.tree

/-- Every file is in one place: done, in flight or waiting. -/
theorem parts_cons (h : Sound job d pool done d')
    (hflying : pool.flying.Perm (⟨f, stage⟩ :: others)) :
    (f :: (done ++ (others.map Task.file ++ pool.waiting))).Perm (d.scanned job.outRoot) := by
  have hfiles : ((⟨f, stage⟩ :: others).map Task.file).Perm (pool.flying.map Task.file) :=
    (hflying.map Task.file).symm
  apply List.perm_middle.symm.trans
  apply List.Perm.trans _ h.parts
  exact (hfiles.append_right _).append_left _

theorem landed_perm {tasks tasks' : List Task} (h : tasks.Perm tasks') (done : List Scanned) :
    ∀ g, g ∈ Task.landed tasks ++ done ↔ g ∈ Task.landed tasks' ++ done :=
  fun _ => ((h.flatMap_right _).append_right done).mem_iff

theorem task (hd : d.IsTree) (h : Sound job d pool done d')
    (hflying : pool.flying.Perm (⟨f, stage⟩ :: others)) :
    stage.Fits job d f ∧ f ∈ d.scanned job.outRoot ∧ f ∉ Task.landed others ++ done ∧
      Committed job d (stage.landed f ++ (Task.landed others ++ done)) d' := by
  have hparts := h.parts_cons hflying
  have hnodup := hparts.nodup_iff.2 (Disk.nodup_scanned hd job.outRoot)
  refine ⟨?_, hparts.mem_iff.1 List.mem_cons_self, ?_, ?_⟩
  · exact h.fits _ (hflying.mem_iff.2 List.mem_cons_self)
  · intro hmem
    apply (List.nodup_cons.1 hnodup).1
    cases List.mem_append.1 hmem with
    | inl hmem =>
      apply List.mem_append_right
      apply List.mem_append_left
      exact Task.mem_files_of_landed hmem
    | inr hmem => exact List.mem_append_left _ hmem
  · apply h.tree.of_mem_iff
    intro g
    rw [landed_perm hflying, Task.landed_cons, List.append_assoc]

theorem goOn (h : Sound job d pool done d') (hflying : pool.flying.Perm (⟨f, stage⟩ :: others))
    (hflying' : flying.Perm (⟨f, next⟩ :: others)) (hnext : next.Fits job d f)
    (htree : Committed job d (next.landed f ++ (Task.landed others ++ done)) d'') :
    Sound job d { pool with flying := flying } done d'' where
  parts := by
    have hfiles : (flying.map Task.file).Perm (pool.flying.map Task.file) :=
      (hflying'.map Task.file).trans (hflying.map Task.file).symm
    apply List.Perm.trans _ h.parts
    exact (hfiles.append_right _).append_left _
  outcomes := h.outcomes
  fits t ht := by
    cases List.mem_cons.1 (hflying'.mem_iff.1 ht) with
    | inl ht => exact ht ▸ hnext
    | inr ht => exact h.fits t (hflying.mem_iff.2 (List.mem_cons_of_mem _ ht))
  tree := by
    apply htree.of_mem_iff
    intro g
    rw [landed_perm hflying', Task.landed_cons, List.append_assoc]

theorem finish (h : Sound job d pool done d')
    (hflying : pool.flying.Perm (⟨f, stage⟩ :: others))
    (htree : Committed job d (f :: (Task.landed others ++ done)) d'') :
    Sound job d
      { pool with flying := others, outcomes := pool.outcomes ++ [job.noted d f] }
      (done ++ [f]) d'' where
  parts := by
    rw [List.append_assoc]
    exact List.perm_middle.trans (h.parts_cons hflying)
  outcomes := by rw [h.outcomes, List.map_append, List.map_singleton]
  fits t ht := h.fits t (hflying.mem_iff.2 (List.mem_cons_of_mem _ ht))
  tree := by
    apply htree.of_mem_iff
    intro g
    simp only [List.mem_append, List.mem_cons, List.not_mem_nil, or_false]
    rw [← or_assoc, or_comm]

end Sound

/-- How the work on files may fail: one of them cannot be read, some are done, and what is left to
be written is the new text of some. -/
structure Failed (job : Job) (d : Disk) (p : Processed) (d' : Disk) : Prop where
  result : ∃ f ∈ d.scanned job.outRoot, ∃ cause, d.read f.path = .error cause ∧
    p.result = .error (.filesAt f.path cause)
  tree : ∃ done, Committed job d done d'
  leftover : ∀ write ∈ p.leftover, ∃ f ∈ d.scanned job.outRoot, ∃ text,
    d.read f.path = .ok text ∧ job.writes (job.unaliased d f.path text) = true ∧
      write = (f.path, (job.unaliased d f.path text).text)

/-- How the work that is left ends when the files `done` are done. -/
inductive Ended (job : Job) (d : Disk) (done : List Scanned) : Processed → Disk → Prop where
  | complete {outcomes : List (String × Outcome)} {d' : Disk}
      (houtcomes : (done.map (job.noted d) ++ outcomes).Perm
        ((d.scanned job.outRoot).map (job.noted d)))
      (htree : Committed job d (d.scanned job.outRoot) d') :
      Ended job d done ⟨outcomes, .ok (), []⟩ d'
  | failed {p : Processed} {d' : Disk} (h : Failed job d p d') : Ended job d done p d'

theorem Ended.after {job : Job} {d d' : Disk} {done earlier : List Scanned} {p : Processed}
    (h : Ended job d (done ++ earlier) p d') :
    Ended job d done (p.after (earlier.map (job.noted d))) d' := by
  cases h with
  | complete houtcomes htree =>
    refine .complete ?_ htree
    rwa [List.map_append, List.append_assoc] at houtcomes
  | failed h => exact .failed ⟨h.result, h.tree, h.leftover⟩

section Run

variable {job : Job} {d d' : Disk} {pool : Pool} {done : List Scanned}

theorem exists_of_leftover {f : Scanned} {stage : Stage} {write : Path × String}
    (hfits : stage.Fits job d f) (h : Task.leftover? ⟨f, stage⟩ = some write) :
    ∃ text, d.read f.path = .ok text ∧ job.writes (job.unaliased d f.path text) = true ∧
      write = (f.path, (job.unaliased d f.path text).text) := by
  cases stage with
  | writing new =>
    obtain ⟨text, htext, rfl, hwrites⟩ := hfits
    exact ⟨text, htext, hwrites, (Option.some.inj h).symm⟩
  | _ => cases h

theorem Sound.failed (h : Sound job d pool done d') {f : Scanned} {cause : OsError}
    {others : List Task} (hf : f ∈ d.scanned job.outRoot) (hread : d.read f.path = .error cause)
    (hothers : ∀ t ∈ others, t ∈ pool.flying) (waiting : List Scanned)
    (outcomes : List (String × Outcome)) :
    Failed job d (Pool.failed ⟨waiting, others, outcomes⟩ (.filesAt f.path cause)) d' where
  result := ⟨f, hf, cause, hread, rfl⟩
  tree := ⟨_, h.tree⟩
  leftover write hwrite := by
    obtain ⟨t, ht, hleft⟩ := List.mem_filterMap.1 hwrite
    obtain ⟨text, htext, hwrites, he⟩ := exists_of_leftover (h.fits t (hothers t ht)) hleft
    have hfile : t.file ∈ d.scanned job.outRoot :=
      h.parts.mem_iff.1 (by simp [List.mem_map_of_mem (hothers t ht)])
    exact ⟨t.file, hfile, text, htext, hwrites, he⟩

theorem Sound.processAll_run (hd : d.IsTree) {waiting : List Scanned}
    {outcomes : List (String × Outcome)} (h : Sound job d ⟨waiting, [], outcomes⟩ done d') :
    ∃ d'', (job.processAll waiting).run d' =
        (⟨(d.readable waiting).map (job.noted d), d.refusal waiting, []⟩, d'') ∧
      Committed job d (d.readable waiting ++ done) d'' := by
  have hparts : (done ++ waiting).Perm (d.scanned job.outRoot) := h.parts
  have hnodup := hparts.nodup_iff.2 (Disk.nodup_scanned hd job.outRoot)
  obtain ⟨-, hnodup, hapart⟩ := List.nodup_append.1 hnodup
  have hfiles : ∀ f ∈ waiting, f ∈ d.scanned job.outRoot :=
    fun f hf => hparts.mem_iff.1 (List.mem_append_right _ hf)
  have hnew : ∀ f ∈ waiting, f ∉ done := fun f hf hdone => hapart f hdone f hf rfl
  have htree : Committed job d done d' := h.tree
  exact htree.processAll_run hd hfiles hnodup hnew

/-- Files that wait are processed one after another. -/
theorem processAll_ended (hd : d.IsTree) {waiting : List Scanned}
    {outcomes : List (String × Outcome)} (h : Sound job d ⟨waiting, [], outcomes⟩ done d') :
    ∃ p d'', (job.processAll waiting).run d' = (p, d'') ∧ Ended job d done p d'' := by
  have hparts : (done ++ waiting).Perm (d.scanned job.outRoot) := h.parts
  obtain ⟨d'', hrun, htree'⟩ := h.processAll_run hd
  refine ⟨_, d'', hrun, ?_⟩
  obtain ⟨left, hleft, hok, herror⟩ := Disk.exists_left d waiting
  cases left with
  | nil =>
    have hall : d.readable waiting = waiting := by simpa using hleft.symm
    rw [hok rfl, hall]
    rw [hall] at htree'
    refine .complete ?_ (htree'.of_mem_iff fun f => ?_)
    · rw [← List.map_append]
      exact hparts.map _
    · rw [← hparts.mem_iff, List.mem_append, List.mem_append, or_comm]
  | cons f rest =>
    obtain ⟨cause, hread, hrefusal⟩ := herror f rest rfl
    have hf : f ∈ waiting := hleft ▸ List.mem_append_right _ List.mem_cons_self
    rw [hrefusal]
    exact .failed ⟨⟨f, hparts.mem_iff.1 (List.mem_append_right _ hf), cause, hread, rfl⟩,
      ⟨_, htree'⟩, fun _ hwrite => absurd hwrite List.not_mem_nil⟩

theorem length_refill (pool : Pool) (limit : Nat) :
    (pool.refill limit).flying.length ≤ max pool.flying.length limit := by
  simp only [refill, List.length_append, List.length_map, List.length_take]
  omega

/-- The last thing that happens to a pool: a file in flight cannot be read, or none is in flight
and the files that wait are processed. -/
inductive Last (job : Job) (d : Disk) (pool : Pool) (d' : Disk) : Processed × Disk → Prop where
  | refused {f : Scanned} {stage : Stage} {others : List Task} {cause : OsError}
      (hflying : pool.flying.Perm (⟨f, stage⟩ :: others)) (hread : d.read f.path = .error cause) :
      Last job d pool d' (({ pool with flying := others }.failed (.filesAt f.path cause)), d')
  | emptied {p : Processed} {d'' : Disk} (hflying : pool.flying = [])
      (hrun : (job.processAll pool.waiting).run d' = (p, d'')) :
      Last job d pool d' (p.after pool.outcomes, d'')

theorem step_run (hd : d.IsTree) (h : Sound job d pool done d') (limit choice : Nat) :
    (∃ pool' done' d'', (pool.step job limit choice).run d' = (.ok pool', d'') ∧
      Sound job d pool' done' d'' ∧ pool'.flying.length ≤ max pool.flying.length limit) ∨
    ∃ p, (pool.step job limit choice).run d' = (.error p, d') ∧ Last job d pool d' (p, d') := by
  rw [step]
  cases hchoice : pool.flying[choice]? with
  | none => exact .inl ⟨pool, done, d', rfl, h, Nat.le_max_left _ _⟩
  | some t =>
    obtain ⟨f, stage⟩ := t
    obtain ⟨hlt, ht⟩ := List.getElem?_eq_some_iff.1 hchoice
    have hflying : pool.flying.Perm (⟨f, stage⟩ :: pool.flying.eraseIdx choice) :=
      ht ▸ (List.getElem_cons_eraseIdx_perm hlt).symm
    obtain ⟨hfits, hf, hnew, htree⟩ := h.task hd hflying
    dsimp only
    obtain ⟨cause, hread, hstep⟩ | ⟨next, d'', hstep, hnext, htree'⟩ | ⟨d'', hstep, htree'⟩ :=
      Task.advance_on hd hfits hf hnew htree
    · refine .inr ⟨_, ?_, .refused hflying hread⟩
      rw [Script.run_bind, ← Attempt.on, hstep]
      rfl
    · have hset := List.set_perm_cons_eraseIdx hlt ⟨f, next⟩
      refine .inl ⟨_, done, d'', ?_, h.goOn hflying hset hnext htree', ?_⟩
      · rw [Script.run_bind, ← Attempt.on, hstep]
        rfl
      · rw [List.length_set]
        exact Nat.le_max_left _ _
    · refine .inl ⟨_, done ++ [f], d'', ?_, (h.finish hflying htree').refill limit, ?_⟩
      · rw [Script.run_bind, ← Attempt.on, hstep]
        rfl
      · have hrefill := length_refill ⟨pool.waiting, pool.flying.eraseIdx choice,
          pool.outcomes ++ [job.noted d f]⟩ limit
        have herase := List.length_eraseIdx_le pool.flying choice
        exact Nat.le_trans hrefill (by simp only; omega)

theorem drain_run (hd : d.IsTree) {waiting : List Scanned} {tasks : List Task}
    {outcomes : List (String × Outcome)} (h : Sound job d ⟨waiting, tasks, outcomes⟩ done d') :
    ∃ p d'' pool' done' d₁, (drain job waiting tasks).run d' = (p, d'') ∧
      Sound job d pool' done' d₁ ∧ pool'.flying.length ≤ tasks.length ∧
        Last job d pool' d₁ (p.after outcomes, d'') := by
  induction tasks generalizing outcomes done d' with
  | nil =>
    exact ⟨_, _, ⟨waiting, [], outcomes⟩, done, d', rfl, h, Nat.le_refl _, .emptied rfl rfl⟩
  | cons t tasks ih =>
    obtain ⟨f, stage⟩ := t
    have hflying : (⟨f, stage⟩ :: tasks).Perm (⟨f, stage⟩ :: tasks) := .refl _
    obtain ⟨hfits, hf, hnew, htree⟩ := h.task hd hflying
    obtain ⟨cause, hread, hcomplete⟩ | ⟨d₁, hcomplete, htree₁⟩ :=
      Task.complete_on hd hfits hf hnew htree
    · refine ⟨Pool.failed ⟨waiting, tasks, []⟩ (.filesAt f.path cause), d',
        ⟨waiting, ⟨f, stage⟩ :: tasks, outcomes⟩, done, d', ?_, h, Nat.le_refl _, ?_⟩
      · rw [drain, Script.run_bind, ← Attempt.on, hcomplete]
        rfl
      · have hfailed : (Pool.failed ⟨waiting, tasks, []⟩ (.filesAt f.path cause)).after outcomes =
            Pool.failed ⟨waiting, tasks, outcomes⟩ (.filesAt f.path cause) := by
          simp [Processed.after, Pool.failed]
        rw [hfailed]
        exact .refused hflying hread
    · obtain ⟨p, d'', pool', done', d₂, hrest, h', hlength, hlast⟩ := ih (h.finish hflying htree₁)
      refine ⟨p.after [job.noted d f], d'', pool', done', d₂, ?_, h', ?_, ?_⟩
      · rw [drain, Script.run_bind, ← Attempt.on, hcomplete]
        dsimp only
        rw [Script.run_bind, hrest]
        rfl
      · exact Nat.le_trans hlength (Nat.le_succ _)
      · rw [Processed.after_after]
        exact hlast

theorem run_of_step {pool' : Pool} {d'' : Disk} {limit choice : Nat} (schedule : List Nat)
    (h : (pool.step job limit choice).run d' = (.ok pool', d'')) :
    (pool.run job limit (choice :: schedule)).run d' = (pool'.run job limit schedule).run d'' := by
  rw [run, Script.run_bind, h]

theorem run_of_step_error {p : Processed} {d'' : Disk} {limit choice : Nat} (schedule : List Nat)
    (h : (pool.step job limit choice).run d' = (.error p, d'')) :
    (pool.run job limit (choice :: schedule)).run d' = (p, d'') := by
  rw [run, Script.run_bind, h]
  rfl

/-- Whatever the schedule, the work comes to a pool to which something last happens. -/
theorem exists_last (hd : d.IsTree) (h : Sound job d pool done d') (limit : Nat)
    (schedule : List Nat) :
    ∃ p d'' pool' done' d₁, (pool.run job limit schedule).run d' = (p, d'') ∧
      Sound job d pool' done' d₁ ∧ pool'.flying.length ≤ max pool.flying.length limit ∧
        Last job d pool' d₁ (p, d'') := by
  induction schedule generalizing pool done d' with
  | nil =>
    have hpool : Sound job d ⟨pool.waiting, pool.flying, pool.outcomes⟩ done d' := h
    obtain ⟨p, d'', pool', done', d₁, hrun, h', hlength, hlast⟩ := drain_run hd hpool
    refine ⟨p.after pool.outcomes, d'', pool', done', d₁, ?_, h', ?_, hlast⟩
    · rw [run, Script.run_bind, hrun]
      rfl
    · exact Nat.le_trans hlength (Nat.le_max_left _ _)
  | cons choice schedule ih =>
    obtain ⟨pool₁, done₁, d₁, hstep, h₁, hlength₁⟩ | ⟨p, hstep, hlast⟩ := step_run hd h limit choice
    · obtain ⟨p, d'', pool', done', d₂, hrun, h', hlength, hlast⟩ := ih h₁
      refine ⟨p, d'', pool', done', d₂, ?_, h', by omega, hlast⟩
      rw [run_of_step schedule hstep, hrun]
    · exact ⟨p, d', pool, done, d', run_of_step_error schedule hstep, h, Nat.le_max_left _ _, hlast⟩

theorem Sound.ended (hd : d.IsTree) (h : Sound job d pool done d') {p : Processed} {d'' : Disk}
    (hlast : Last job d pool d' (p, d'')) : Ended job d [] p d'' := by
  cases hlast with
  | refused hflying hread =>
    obtain ⟨-, hf, -, -⟩ := h.task hd hflying
    have hothers : ∀ t ∈ _, t ∈ pool.flying :=
      fun t ht => hflying.mem_iff.2 (List.mem_cons_of_mem _ ht)
    exact .failed (h.failed hf hread hothers pool.waiting pool.outcomes)
  | emptied hflying hrun =>
    have hpool : Sound job d ⟨pool.waiting, [], pool.outcomes⟩ done d' := hflying ▸ h
    obtain ⟨p, d₁, hrun', hended⟩ := processAll_ended hd hpool
    cases hrun.symm.trans hrun'
    rw [h.outcomes]
    exact hended.after

/-- Whatever the schedule, the work ends with all files done, or in a failure. -/
theorem run_ended (hd : d.IsTree) (h : Sound job d pool done d') (limit : Nat)
    (schedule : List Nat) :
    ∃ p d'', (pool.run job limit schedule).run d' = (p, d'') ∧ Ended job d [] p d'' := by
  obtain ⟨p, d'', pool', done', d₁, hrun, h', -, hlast⟩ := exists_last hd h limit schedule
  exact ⟨p, d'', hrun, h'.ended hd hlast⟩

end Run

end Pool

end Unalias
