import Mathlib.Data.List.Nodup
import Unalias.Proofs.Files.Reading
import Unalias.Proofs.Files.Tree
import Unalias.Proofs.Reference.Verdict
import Unalias.Run.Process

/-!
What processing files does to a tree. Files processed in any order leave one tree: each holds the
text that its references ask for in the tree as it was at first, and nothing else is changed. So a
file that is processed among others reads and finds what it would alone.
-/

namespace Unalias

namespace Job

/-- The text that a file holds when it is done with. -/
def textAfter (job : Job) (d : Disk) (f : Scanned) (text : String) : String :=
  if job.writes (job.unaliased d f.path text) then (job.unaliased d f.path text).text else text

def noted (job : Job) (d : Disk) (f : Scanned) : String × Outcome :=
  (f.key, match d.read f.path with
    | .ok text => (job.unaliased d f.path text).outcome
    | .error _ => {})

theorem noted_of_read {job : Job} {d : Disk} {f : Scanned} {text : String}
    (h : d.read f.path = .ok text) :
    job.noted d f = (f.key, (job.unaliased d f.path text).outcome) := by
  rw [noted, h]

/-- Scanned files are noted under different keys. -/
theorem nodup_keys_noted {job : Job} {d : Disk} {done : List Scanned} (hd : d.IsTree)
    (hnodup : done.Nodup) (hdone : ∀ f ∈ done, f ∈ d.scanned job.outRoot) :
    ((done.map (job.noted d)).map Prod.fst).Nodup := by
  rw [List.map_map]
  apply List.Nodup.map_on _ hnodup
  intro f hf g hg hkey
  exact List.inj_on_of_nodup_map (Disk.keys_nodup_scanned hd job.outRoot) (hdone f hf) (hdone g hg)
    hkey

/-- A file whose text changes is written unless the run is dry. -/
theorem textAfter_eq {job : Job} (hdry : job.dryRun = false) (d : Disk) (f : Scanned)
    (text : String) : job.textAfter d f text = (job.unaliased d f.path text).text := by
  rw [textAfter, writes]
  rw [Resolver.changed_unaliased, hdry]
  by_cases h : (job.unaliased d f.path text).text = text
  · simp [h]
  · simp [h]

end Job

/-- Nothing that is recorded is overwritten if the keys differ. -/
theorem Processed.report_of_nodup {p : Processed} (h : (p.outcomes.map Prod.fst).Nodup) (n : Nat) :
    p.report n = Report.ofOutcomes n p.outcomes := by
  have hrecord : p.record = p.outcomes := Keyed.foldl_set_of_nodup h
  rw [report, hrecord]

/-- After the files `done` of `d` were processed, the tree is `d'`. -/
structure Committed (job : Job) (d : Disk) (done : List Scanned) (d' : Disk) : Prop where
  outline : d'.outline = d.outline
  scanned : ∀ f ∈ done, f ∈ d.scanned job.outRoot
  texts : ∀ f ∈ done, ∃ l text, d.locate f.path = .ok l ∧ d.read f.path = .ok text ∧
    d'.get? l = some (.file (job.textAfter d f text).toUTF8)
  others : ∀ l, (∀ f ∈ done, d.locate f.path ≠ .ok l) → d'.get? l = d.get? l

namespace Committed

variable {job : Job} {d d' d'' : Disk} {done done' : List Scanned} {f : Scanned} {text : String}

theorem nil (job : Job) (d : Disk) : Committed job d [] d where
  outline := rfl
  scanned := fun _ h => absurd h List.not_mem_nil
  texts := fun _ h => absurd h List.not_mem_nil
  others := fun _ _ => rfl

theorem of_mem_iff (h : Committed job d done d') (hmem : ∀ f, f ∈ done' ↔ f ∈ done) :
    Committed job d done' d' where
  outline := h.outline
  scanned f hf := h.scanned f ((hmem f).1 hf)
  texts f hf := h.texts f ((hmem f).1 hf)
  others l hl := h.others l fun f hf => hl f ((hmem f).2 hf)

/-- What lies at the place of a file that was processed, before and after. -/
theorem exists_text (h : Committed job d done d') (hf : f ∈ done) {l : Location}
    (hl : d.locate f.path = .ok l) :
    ∃ text, d.read f.path = .ok text ∧ d.get? l = some (.file text.toUTF8) ∧
      d'.get? l = some (.file (job.textAfter d f text).toUTF8) := by
  obtain ⟨k, text, hk, htext, hfile⟩ := h.texts f hf
  obtain ⟨k', hk', hfile'⟩ := Disk.exists_of_read htext
  cases hl.symm.trans hk
  cases hl.symm.trans hk'
  exact ⟨text, htext, hfile', hfile⟩

/-- The tree after some files were processed is known from the files. -/
theorem unique (hd : d.IsTree) (h : Committed job d done d') (h' : Committed job d done d'') :
    d' = d'' := by
  refine Disk.eq_of_get? (h.outline.trans h'.outline.symm) ?_ fun l => ?_
  · rw [Disk.keys_eq_of_outline h'.outline]
    exact hd.root
  · by_cases hl : ∃ f ∈ done, d.locate f.path = .ok l
    · obtain ⟨f, hf, hl⟩ := hl
      obtain ⟨text₁, htext₁, -, hfile₁⟩ := h.exists_text hf hl
      obtain ⟨text₂, htext₂, -, hfile₂⟩ := h'.exists_text hf hl
      cases htext₁.symm.trans htext₂
      rw [hfile₁, hfile₂]
    · have hother : ∀ f ∈ done, d.locate f.path ≠ .ok l := fun f hf he => hl ⟨f, hf, he⟩
      rw [h.others l hother, h'.others l hother]

/-- Processing that leaves each text as it was leaves the tree as it was. -/
theorem eq_self_of_textAfter (hd : d.IsTree) (h : Committed job d done d')
    (hsame : ∀ f ∈ done, ∀ text, d.read f.path = .ok text → job.textAfter d f text = text) :
    d' = d := by
  apply Disk.eq_of_get? h.outline hd.root
  intro l
  by_cases hl : ∃ f ∈ done, d.locate f.path = .ok l
  · obtain ⟨f, hf, hl⟩ := hl
    obtain ⟨text, htext, hfile, hfile'⟩ := h.exists_text hf hl
    rw [hfile, hfile', hsame f hf text htext]
  · apply h.others l
    intro f hf he
    exact hl ⟨f, hf, he⟩

/-- A file that is not processed yet lies at none of the places of those that are. -/
theorem locate_ne (hd : d.IsTree) (h : Committed job d done d') (hf : f ∈ d.scanned job.outRoot)
    (hnew : f ∉ done) {l : Location} (hl : d.locate f.path = .ok l) :
    ∀ g ∈ done, d.locate g.path ≠ .ok l := by
  intro g hg hgl
  apply hnew
  rw [Disk.eq_of_locate hd hf (h.scanned g hg) hl hgl]
  exact hg

theorem read_of_not_mem (hd : d.IsTree) (h : Committed job d done d')
    (hf : f ∈ d.scanned job.outRoot) (hnew : f ∉ done) : d'.read f.path = d.read f.path := by
  apply Disk.read_congr (Disk.locate_congr h.outline f.path)
  intro l hl
  exact h.others l (h.locate_ne hd hf hnew hl)

theorem read_of_mem (h : Committed job d done d') (hf : f ∈ done)
    (htext : d.read f.path = .ok text) : d'.read f.path = .ok (job.textAfter d f text) := by
  obtain ⟨l, text', hl, htext', hfile⟩ := h.texts f hf
  cases htext.symm.trans htext'
  apply Disk.read_of_file _ hfile
  rw [Disk.locate_congr h.outline]
  exact hl

theorem skip (hd : d.IsTree) (h : Committed job d done d') (hf : f ∈ d.scanned job.outRoot)
    (hnew : f ∉ done) (htext : d.read f.path = .ok text)
    (hkeep : job.writes (job.unaliased d f.path text) = false) :
    Committed job d (f :: done) d' where
  outline := h.outline
  scanned := List.forall_mem_cons.2 ⟨hf, h.scanned⟩
  texts := by
    refine List.forall_mem_cons.2 ⟨?_, h.texts⟩
    obtain ⟨l, hl, hfile⟩ := Disk.exists_of_read htext
    refine ⟨l, text, hl, htext, ?_⟩
    rw [h.others l (h.locate_ne hd hf hnew hl), hfile, Job.textAfter, hkeep]
    rfl
  others l hl := h.others l fun g hg => hl g (List.mem_cons_of_mem _ hg)

theorem overwrite_eq (hd : d.IsTree) (h : Committed job d done d') (hf : f ∈ d.scanned job.outRoot)
    (htext : d.read f.path = .ok text) (hwrite : job.writes (job.unaliased d f.path text) = true) :
    ∃ d'', d'.overwrite f.path (job.unaliased d f.path text).text = (.ok (), d'') ∧
      Committed job d (f :: done) d'' := by
  obtain ⟨l, hl, hfile⟩ := Disk.exists_of_read htext
  obtain ⟨bytes', hfile'⟩ := Disk.exists_file_of_outline h.outline hfile
  have hl' : d'.locate f.path = .ok l := (Disk.locate_congr h.outline f.path).trans hl
  have hafter : job.textAfter d f text = (job.unaliased d f.path text).text := by
    rw [Job.textAfter, if_pos hwrite]
  have hget := Disk.get?_set_of_file hfile' (.file (job.unaliased d f.path text).text.toUTF8)
  refine ⟨d'.set l (.file (job.unaliased d f.path text).text.toUTF8),
    Disk.overwrite_file _ hl' hfile', ?_⟩
  refine ⟨(Disk.outline_set hfile').trans h.outline, List.forall_mem_cons.2 ⟨hf, h.scanned⟩,
    List.forall_mem_cons.2 ⟨⟨l, text, hl, htext, ?_⟩, ?_⟩, ?_⟩
  · rw [hget, if_pos rfl, hafter]
  · intro g hg
    obtain ⟨k, text', hk, htext', hfile''⟩ := h.texts g hg
    refine ⟨k, text', hk, htext', ?_⟩
    by_cases hkl : k = l
    · subst hkl
      obtain rfl := Disk.eq_of_locate hd hf (h.scanned g hg) hl hk
      cases htext.symm.trans htext'
      rw [hget, if_pos rfl, hafter]
    · rw [hget, if_neg hkl, hfile'']
  · intro k hk
    have hkl : k ≠ l := fun he => hk f List.mem_cons_self (he ▸ hl)
    rw [hget, if_neg hkl]
    exact h.others k fun g hg => hk g (List.mem_cons_of_mem _ hg)

theorem finish_on (hd : d.IsTree) (h : Committed job d done d') (hf : f ∈ d.scanned job.outRoot)
    (htext : d.read f.path = .ok text) (hwrite : job.writes (job.unaliased d f.path text) = true) :
    ∃ d'', (Job.finish f (job.unaliased d f.path text)).on d' =
        (.ok (job.unaliased d f.path text).outcome, d'') ∧ Committed job d (f :: done) d'' := by
  obtain ⟨d'', hoverwrite, h'⟩ := h.overwrite_eq hd hf htext hwrite
  refine ⟨d'', ?_, h'⟩
  rw [Job.finish, Attempt.bind_on, Attempt.overwrite_on, hoverwrite]
  rfl

theorem proceed_on (hd : d.IsTree) (h : Committed job d done d') (hf : f ∈ d.scanned job.outRoot)
    (hnew : f ∉ done) (htext : d.read f.path = .ok text) :
    ∃ d'', (job.proceed f text).on d' = (.ok (job.unaliased d f.path text).outcome, d'') ∧
      Committed job d (f :: done) d'' := by
  have hunalias : (liftM (job.unalias f.path text) : Attempt Unaliased).on d' =
      (.ok (job.unaliased d f.path text), d') := by
    rw [Attempt.lift_on, Resolver.unalias_run, Resolver.unaliased_congr _ _ h.outline]
  rw [Job.proceed, Attempt.bind_on_ok hunalias]
  by_cases hwrite : job.writes (job.unaliased d f.path text) = true
  · rw [if_pos hwrite]
    exact h.finish_on hd hf htext hwrite
  · rw [if_neg hwrite]
    exact ⟨d', rfl, h.skip hd hf hnew htext (Bool.eq_false_iff.2 hwrite)⟩

theorem process_on (hd : d.IsTree) (h : Committed job d done d') (hf : f ∈ d.scanned job.outRoot)
    (hnew : f ∉ done) (htext : d.read f.path = .ok text) :
    ∃ d'', (job.process f).on d' = (.ok (job.unaliased d f.path text).outcome, d'') ∧
      Committed job d (f :: done) d'' := by
  have hread : d'.read f.path = .ok text := (h.read_of_not_mem hd hf hnew).trans htext
  rw [Job.process, Attempt.bind_on_ok (Attempt.read_on_ok hread)]
  exact h.proceed_on hd hf hnew htext

/-- A file that cannot be read fails without a trace. -/
theorem process_on_error (hd : d.IsTree) (h : Committed job d done d')
    (hf : f ∈ d.scanned job.outRoot) (hnew : f ∉ done) {cause : OsError}
    (hfail : d.read f.path = .error cause) :
    (job.process f).on d' = (.error (.filesAt f.path cause), d') := by
  have hread : d'.read f.path = .error cause := (h.read_of_not_mem hd hf hnew).trans hfail
  rw [Job.process, Attempt.bind_on_error (Attempt.read_on_error hread)]

end Committed

/-! ### One file after another -/

namespace Disk

/-- The files that come before the first that cannot be read. -/
def readable (d : Disk) (files : List Scanned) : List Scanned :=
  files.takeWhile fun f => (d.read f.path).isOk

/-- The error of the first file that cannot be read, if there is one. -/
def refusal (d : Disk) : List Scanned → Except Error Unit
  | [] => .ok ()
  | f :: files =>
    match d.read f.path with
    | .ok _ => d.refusal files
    | .error cause => .error (.filesAt f.path cause)

variable {d : Disk} {f : Scanned} {files : List Scanned}

theorem readable_cons_ok {text : String} (h : d.read f.path = .ok text) :
    d.readable (f :: files) = f :: d.readable files := by
  rw [readable, List.takeWhile_cons, h]
  rfl

theorem readable_cons_error {cause : OsError} (h : d.read f.path = .error cause) :
    d.readable (f :: files) = [] := by
  rw [readable, List.takeWhile_cons, h]
  rfl

theorem refusal_cons_ok {text : String} (h : d.read f.path = .ok text) :
    d.refusal (f :: files) = d.refusal files := by
  rw [refusal, h]

theorem refusal_cons_error {cause : OsError} (h : d.read f.path = .error cause) :
    d.refusal (f :: files) = .error (.filesAt f.path cause) := by
  rw [refusal, h]

/-- What is left behind the readable files is nothing, or starts with a file that is refused. -/
theorem exists_left (d : Disk) (files : List Scanned) :
    ∃ left, files = d.readable files ++ left ∧ (left = [] → d.refusal files = .ok ()) ∧
      ∀ f rest, left = f :: rest → ∃ cause, d.read f.path = .error cause ∧
        d.refusal files = .error (.filesAt f.path cause) := by
  induction files with
  | nil => exact ⟨[], rfl, fun _ => rfl, fun _ _ h => nomatch h⟩
  | cons f files ih =>
    cases hread : d.read f.path with
    | error cause =>
      rw [readable_cons_error hread, refusal_cons_error hread]
      refine ⟨f :: files, rfl, fun h => absurd h (List.cons_ne_nil _ _), ?_⟩
      intro g rest h
      obtain ⟨rfl, -⟩ := List.cons.inj h
      exact ⟨cause, hread, rfl⟩
    | ok text =>
      rw [readable_cons_ok hread, refusal_cons_ok hread]
      obtain ⟨left, hfiles, hrest⟩ := ih
      exact ⟨left, congrArg (f :: ·) hfiles, hrest⟩

theorem readable_sublist (d : Disk) (files : List Scanned) : (d.readable files).Sublist files :=
  (List.takeWhile_prefix _).sublist

theorem readable_eq_self (h : ∀ f ∈ files, ∃ text, d.read f.path = .ok text) :
    d.readable files = files ∧ d.refusal files = .ok () := by
  obtain ⟨left, hfiles, hok, herror⟩ := exists_left d files
  cases left with
  | nil => exact ⟨(hfiles.trans (List.append_nil _)).symm, hok rfl⟩
  | cons f rest =>
    obtain ⟨cause, hcause, -⟩ := herror f rest rfl
    have hmem : f ∈ files := hfiles ▸ List.mem_append_right _ List.mem_cons_self
    obtain ⟨text, htext⟩ := h f hmem
    cases hcause.symm.trans htext

end Disk

namespace Committed

variable {job : Job} {d d' : Disk} {done files : List Scanned}

/-- Files are processed one after another up to the first that cannot be read. -/
theorem processAll_run (hd : d.IsTree) (h : Committed job d done d')
    (hfiles : ∀ f ∈ files, f ∈ d.scanned job.outRoot) (hnodup : files.Nodup)
    (hnew : ∀ f ∈ files, f ∉ done) :
    ∃ d'', (job.processAll files).run d' =
        (⟨(d.readable files).map (job.noted d), d.refusal files, []⟩, d'') ∧
      Committed job d (d.readable files ++ done) d'' := by
  induction files generalizing done d' with
  | nil => exact ⟨d', rfl, h⟩
  | cons f files ih =>
    obtain ⟨hf, hfiles⟩ := List.forall_mem_cons.1 hfiles
    obtain ⟨hfnew, hnew⟩ := List.forall_mem_cons.1 hnew
    obtain ⟨hfresh, hnodup⟩ := List.nodup_cons.1 hnodup
    cases hread : d.read f.path with
    | error cause =>
      have hprocess := h.process_on_error hd hf hfnew hread
      refine ⟨d', ?_, ?_⟩
      · rw [Job.processAll, Script.run_bind, ← Attempt.on, hprocess, Disk.readable_cons_error hread,
          Disk.refusal_cons_error hread]
        rfl
      · rw [Disk.readable_cons_error hread]
        exact h
    | ok text =>
      obtain ⟨d₁, hprocess, h₁⟩ := h.process_on hd hf hfnew hread
      have hnew₁ : ∀ g ∈ files, g ∉ f :: done := by
        intro g hg hmem
        cases List.mem_cons.1 hmem with
        | inl he => exact hfresh (he ▸ hg)
        | inr hmem => exact hnew g hg hmem
      obtain ⟨d₂, hrest, h₂⟩ := ih h₁ hfiles hnodup hnew₁
      refine ⟨d₂, ?_, ?_⟩
      · rw [Job.processAll, Script.run_bind, ← Attempt.on, hprocess, Disk.readable_cons_ok hread,
          Disk.refusal_cons_ok hread]
        dsimp only
        rw [Script.run_bind, hrest, List.map_cons, Job.noted_of_read hread]
        rfl
      · rw [Disk.readable_cons_ok hread]
        apply h₂.of_mem_iff
        intro g
        simp only [List.cons_append, List.mem_cons, List.mem_append]
        exact or_left_comm

theorem processAll_scanned (hd : d.IsTree) (job : Job) :
    ∃ d', (job.processAll (d.scanned job.outRoot)).run d =
        (⟨(d.readable (d.scanned job.outRoot)).map (job.noted d),
          d.refusal (d.scanned job.outRoot), []⟩, d') ∧
      Committed job d (d.readable (d.scanned job.outRoot)) d' := by
  have hfiles : ∀ f ∈ d.scanned job.outRoot, f ∈ d.scanned job.outRoot := fun _ hf => hf
  have hrun := (nil job d).processAll_run hd hfiles (Disk.nodup_scanned hd job.outRoot)
    fun _ _ => List.not_mem_nil
  rwa [List.append_nil] at hrun

end Committed

end Unalias
