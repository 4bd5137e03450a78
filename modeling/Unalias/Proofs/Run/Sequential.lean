import Unalias.CommandLine.Command
import Unalias.Proofs.Reference.Stability
import Unalias.Proofs.Report.Recorded
import Unalias.Proofs.Run.Commit
import Unalias.Proofs.Run.Runner

/-!
A run that processes one file after another commits what comes before the first file that cannot
be read, and nothing else, and its report says just that. A run that finds no files, since a
directory among them cannot be opened, ends before it has done anything.
-/

namespace Unalias

namespace Disk

/-- Why a file cannot be read: its bytes are no text, or its path is too long. -/
def Unreadable (d : Disk) (p : Path) (cause : OsError) : Prop :=
  (∃ l bytes, d.locate p = .ok l ∧ d.get? l = some (.file bytes) ∧
    String.fromUTF8? bytes = none ∧ cause = .notUtf8) ∨
  d.locate p = .error .nameTooLong ∧ cause = .nameTooLong

theorem unreadable_of_read {d : Disk} {root : Path} {f : Scanned} {cause : OsError}
    (hd : d.IsTree) (hf : f ∈ d.scanned root) (h : d.read f.path = .error cause) :
    d.Unreadable f.path cause := by
  obtain ⟨l, bytes, hl, hfile⟩ | hlong := locate_scanned hd hf
  · rw [read_file hl hfile] at h
    cases hbytes : String.fromUTF8? bytes with
    | some text =>
      rw [hbytes] at h
      cases h
    | none =>
      rw [hbytes] at h
      cases h
      exact .inl ⟨l, bytes, hl, hfile, hbytes, rfl⟩
  · simp only [read, hlong] at h
    cases h
    exact .inr ⟨hlong, rfl⟩

theorem read_of_unreadable {d : Disk} {p : Path} {cause : OsError} (h : d.Unreadable p cause) :
    d.read p = .error cause := by
  obtain ⟨l, bytes, hl, hfile, hbytes, rfl⟩ | ⟨hlong, rfl⟩ := h
  · rw [read_file hl hfile, hbytes]
  · rw [read, hlong]

end Disk

namespace Committed

variable {job : Job} {d d' : Disk} {done : List Scanned}

/-- A file that is done held a text, and holds that text with its references replaced. -/
theorem exists_new (h : Committed job d done d') (hdry : job.dryRun = false) {f : Scanned}
    (hf : f ∈ done) :
    ∃ l text, d.locate f.path = .ok l ∧ d.get? l = some (.file text.toUTF8) ∧
      d'.get? l = some (.file (job.unaliased d f.path text).text.toUTF8) := by
  obtain ⟨l, -, hl, -⟩ := h.texts f hf
  obtain ⟨text, -, hfile, hnew⟩ := h.exists_text hf hl
  rw [Job.textAfter_eq hdry] at hnew
  exact ⟨l, text, hl, hfile, hnew⟩

/-- A file counts as changed just if its bytes differ from before. -/
theorem changed_iff (h : Committed job d done d') (hdry : job.dryRun = false) {f : Scanned}
    (hf : f ∈ done) :
    (job.noted d f).2.changed = true ↔ ∃ l, d.locate f.path = .ok l ∧ d'.get? l ≠ d.get? l := by
  obtain ⟨l, text, hl, hfile, hnew⟩ := h.exists_new hdry hf
  rw [Job.noted_of_read (Disk.read_of_file hl hfile), Resolver.changed_unaliased,
    decide_eq_true_iff]
  constructor
  · intro hne
    refine ⟨l, hl, fun he => hne ?_⟩
    rw [hnew, hfile, Option.some.injEq, Entry.file.injEq] at he
    exact String.toByteArray_inj.1 he
  · rintro ⟨k, hk, hne⟩ he
    cases hl.symm.trans hk
    rw [hnew, hfile, he] at hne
    exact hne rfl

/-- The files listed as changed are those whose bytes differ from before. -/
theorem mem_changedFiles_iff (hd : d.IsTree) (h : Committed job d done d')
    (hdry : job.dryRun = false) (n : Nat) (key : String) :
    key ∈ (Report.ofOutcomes n (done.map (job.noted d))).changedFiles.keys ↔
      ∃ f ∈ d.scanned job.outRoot,
        f.key = key ∧ ∃ l, d.locate f.path = .ok l ∧ d'.get? l ≠ d.get? l := by
  rw [Report.mem_changedFiles_iff]
  constructor
  · rintro ⟨x, hx, rfl, hchanged⟩
    obtain ⟨f, hf, rfl⟩ := List.mem_map.1 hx
    exact ⟨f, h.scanned f hf, rfl, (h.changed_iff hdry hf).1 hchanged⟩
  · rintro ⟨f, hf, rfl, l, hl, hdiffers⟩
    have hdone : f ∈ done := by
      apply Decidable.byContradiction
      intro hnot
      apply hdiffers
      exact h.others l (h.locate_ne hd hf hnot hl)
    refine ⟨job.noted d f, List.mem_map_of_mem hdone, rfl, ?_⟩
    exact (h.changed_iff hdry hdone).2 ⟨l, hl, hdiffers⟩

end Committed

namespace Engine

variable {σ : Type}

/-- What a run gives after its work, whose error comes before that of the sink. -/
def resultOf (e : Engine σ) (report : Report) (s : σ) (d : Disk) (work : Except Error Unit) :
    Except Error RunReport := do
  work
  (e.delivery report s d).1
  return ⟨e.job, report⟩

theorem resultOf_ok (e : Engine σ) (report : Report) (s : σ) (d : Disk) :
    e.resultOf report s d (.ok ()) = (e.delivery report s d).1.map fun _ => ⟨e.job, report⟩ := by
  rw [resultOf]
  cases (e.delivery report s d).1 <;> rfl

theorem resultOf_error (e : Engine σ) (report : Report) (s : σ) (d : Disk) (error : Error) :
    e.resultOf report s d (.error error) = .error error :=
  rfl

/-- The end of a run that has recorded `outcomes` under different keys. -/
theorem concluded_of_nodup (e : Engine σ) (s : σ) (d : Disk) (n : Nat) {p : Processed}
    (h : (p.outcomes.map Prod.fst).Nodup) :
    e.concluded s d n p =
      (let report := Report.ofOutcomes n p.outcomes
      (((e.resultOf report s d p.result, .idle), (e.delivery report s d).2.1),
        (e.delivery report s d).2.2)) := by
  rw [concluded, Processed.report_of_nodup h]
  rfl

section Found

variable (e : Engine σ) {d : Disk} (s : σ) {files : List Scanned}

/-- A run over files that are found: they are processed up to the first that cannot be read, and
what is recorded is what is reported. -/
theorem runSync_found (hd : d.IsTree) (hscan : d.scan e.job.outRoot = .ok files) :
    ∃ d', (e.job.processAll files).run d =
        (⟨(d.readable files).map (e.job.noted d), d.refusal files, []⟩, d') ∧
      Committed e.job d (d.readable files) d' ∧
      e.runSync.on .idle s d =
        (let report := Report.ofOutcomes files.length ((d.readable files).map (e.job.noted d))
        (((e.resultOf report s d' (d.refusal files), .idle), (e.delivery report s d').2.1),
          (e.delivery report s d').2.2)) := by
  have hfiles := Disk.scanned_of_scan hscan
  obtain ⟨d', hrun, htree⟩ := Committed.processAll_scanned hd e.job
  rw [hfiles] at hrun htree
  refine ⟨d', hrun, htree, ?_⟩
  have hnodup : (d.readable files).Nodup :=
    (hfiles ▸ Disk.nodup_scanned hd e.job.outRoot).sublist (d.readable_sublist files)
  have hkeys := Job.nodup_keys_noted hd hnodup htree.scanned
  rw [runSync_of_scan s d hscan]
  dsimp only
  rw [hrun, concluded_of_nodup e s d' files.length hkeys]

/-- A run over files that can all be read. -/
theorem runSync_readable (hd : d.IsTree) (hscan : d.scan e.job.outRoot = .ok files)
    (hread : ∀ f ∈ files, ∃ text, d.read f.path = .ok text) :
    ∃ d', Committed e.job d files d' ∧
      e.runSync.on .idle s d =
        (let report := Report.ofOutcomes files.length (files.map (e.job.noted d))
        ((((e.delivery report s d').1.map fun _ => ⟨e.job, report⟩, .idle),
          (e.delivery report s d').2.1), (e.delivery report s d').2.2)) := by
  obtain ⟨d', -, htree, hrun⟩ := e.runSync_found s hd hscan
  obtain ⟨hall, hok⟩ := Disk.readable_eq_self hread
  rw [hall] at htree
  rw [hall, hok] at hrun
  refine ⟨d', htree, ?_⟩
  rw [hrun]
  dsimp only
  rw [resultOf_ok]

end Found

/-- What a run that processes one file after another gives, and what it leaves behind: the files
`done` come before the first that cannot be read, `left` are the others, and `d'` is the tree
before the sink is given the report. -/
structure Commits (e : Engine σ) (d : Disk) (s : σ) (done left : List Scanned) (d' : Disk)
    (report : Report) (result : Except Error RunReport) : Prop where
  scan : d.scan e.job.outRoot = .ok (done ++ left)
  texts : ∀ f ∈ done, ∃ l text, d.locate f.path = .ok l ∧ d.get? l = some (.file text.toUTF8) ∧
    d'.get? l = some (.file (e.job.unaliased d f.path text).text.toUTF8)
  others : ∀ l, (∀ f ∈ done, d.locate f.path ≠ .ok l) → d'.get? l = d.get? l
  outline : d'.outline = d.outline
  covers : report = Report.ofOutcomes (done ++ left).length (done.map (e.job.noted d))
  counts : report.filesScanned = (done ++ left).length
  changed : ∀ key, key ∈ report.changedFiles.keys ↔ ∃ f ∈ done ++ left,
    f.key = key ∧ ∃ l, d.locate f.path = .ok l ∧ d'.get? l ≠ d.get? l
  succeeds : left = [] → result = (e.delivery report s d').1.map fun _ => ⟨e.job, report⟩
  fails : ∀ f rest, left = f :: rest → ∃ cause, d.Unreadable f.path cause ∧
    result = .error (.filesAt f.path cause)
  ends : e.runSync.on .idle s d =
    (((result, .idle), (e.delivery report s d').2.1), (e.delivery report s d').2.2)

/-- A run commits what comes before the first file that cannot be read. If a directory cannot be
opened, it fails with the error for that directory, and neither the tree nor the sink has been
touched. -/
theorem runSync_commits (e : Engine σ) (hdry : e.job.dryRun = false) (d : Disk) (hd : d.IsTree)
    (s : σ) :
    (∃ done left d' report result, e.Commits d s done left d' report result) ∨
      ∃ p cause, d.IsShut e.job.outRoot p ∧
        d.scan e.job.outRoot = .error (.filesAt p cause) ∧
        e.runSync.on .idle s d = (((.error (.filesAt p cause), .idle), s), d) := by
  cases hscan : d.scan e.job.outRoot with
  | error error =>
    obtain ⟨p, cause, hshut, rfl⟩ := Disk.exists_isShut_of_scan hscan
    exact .inr ⟨p, cause, hshut, rfl, runSync_of_error s d hscan⟩
  | ok files =>
    have hscanned := Disk.scanned_of_scan hscan
    obtain ⟨d', -, htree, hends⟩ := e.runSync_found s hd hscan
    obtain ⟨left, hfiles, hsucceeds, hfails⟩ := Disk.exists_left d files
    let done := d.readable files
    let report := Report.ofOutcomes files.length (done.map (e.job.noted d))
    refine .inl ⟨done, left, d', report, e.resultOf report s d' (d.refusal files), ?_⟩
    rw [hfiles] at hscan
    refine ⟨hscan, ?_, htree.others, htree.outline, ?_, ?_, ?_, ?_, ?_, hends⟩
    · intro f hf
      exact htree.exists_new hdry hf
    · rw [← hfiles]
    · rw [← hfiles]
      exact Report.filesScanned_ofOutcomes _ _
    · rw [← hfiles, ← hscanned]
      exact htree.mem_changedFiles_iff hd hdry _
    · intro hleft
      rw [hsucceeds hleft, resultOf_ok]
    · intro f rest hleft
      obtain ⟨cause, hread, hrefusal⟩ := hfails f rest hleft
      have hf : f ∈ d.scanned e.job.outRoot := by
        rw [hscanned, hfiles, hleft]
        exact List.mem_append_right _ List.mem_cons_self
      refine ⟨cause, Disk.unreadable_of_read hd hf hread, ?_⟩
      rw [hrefusal, resultOf_error]

/-- What a run has done is known from the files that it could read. -/
theorem Commits.done_eq {e : Engine σ} {d d' : Disk} {s : σ} {done left : List Scanned}
    {report : Report} {result : Except Error RunReport}
    (h : e.Commits d s done left d' report result) : done = d.readable (done ++ left) := by
  have hdone : ∀ f ∈ done, (d.read f.path).isOk = true := by
    intro f hf
    obtain ⟨l, text, hl, hfile, -⟩ := h.texts f hf
    rw [Disk.read_of_file hl hfile]
    rfl
  have hleft : d.readable left = [] := by
    cases left with
    | nil => rfl
    | cons f rest =>
      obtain ⟨cause, hcause, -⟩ := h.fails f rest rfl
      exact Disk.readable_cons_error (Disk.read_of_unreadable hcause)
  rw [Disk.readable, List.takeWhile_append_of_pos hdone, ← Disk.readable, hleft, List.append_nil]

end Engine

/-! ### A tree with compiled files -/

namespace Sample

def entries (files : List (String × ByteArray)) : List (Location × Entry) :=
  [(["w"], .directory), (["w", "src"], .directory), (["w", "src", "b.ts"], .file .empty),
    (["w", "dist"], .directory)] ++ files.map fun file => (["w", "dist", file.1], .file file.2)

theorem nodup_keys_entries {files : List (String × ByteArray)} (h : (files.map Prod.fst).Nodup) :
    ((entries files).map Prod.fst).Nodup := by
  rw [entries, List.map_append, List.map_map]
  refine List.nodup_append.2 ⟨by decide, ?_, ?_⟩
  · apply List.pairwise_map.2
    refine (List.pairwise_map.1 h).imp ?_
    intro file file' hne he
    simp only [Function.comp_apply, List.cons.injEq, true_and, and_true] at he
    exact hne he
  · intro l hl k hk he
    subst he
    obtain ⟨file, -, rfl⟩ := List.mem_map.1 hk
    simp at hl

/-- Compiled files beside each other, and a module that they may refer to. -/
def tree (files : List (String × ByteArray)) (h : (files.map Prod.fst).Nodup) : Disk :=
  ⟨["w"], entries files, nodup_keys_entries h⟩

def scanned (name : String) : Scanned :=
  .below ⟨"/w/dist"⟩ [name]

def job : Job where
  rules := [⟨"@/", [""]⟩]
  resolveFrom := .source
  aliasRoot := ⟨"/w/src"⟩
  srcRoot := ⟨"/w/src"⟩
  outRoot := ⟨"/w/dist"⟩
  projectRoot := ⟨"/w"⟩
  dryRun := false
  verbose := true

section Tree

variable {files : List (String × ByteArray)} {h : (files.map Prod.fst).Nodup} {name : String}
  {bytes : ByteArray}

theorem locate_dist : (tree files h).locate ⟨"/w/dist"⟩ = .ok ["w", "dist"] := by
  apply Disk.locate_of_names ["w", "dist"] (by decide) (by decide)
  rw [Disk.walk_name (by decide) rfl rfl (by simp), Disk.walk_name (by decide) rfl rfl (by simp),
    Disk.walk]
  rfl

theorem kind?_dist : (tree files h).kind? ⟨"/w/dist"⟩ = some .directory := by
  rw [Disk.kind?, locate_dist]
  rfl

theorem locate_src : (tree files h).locate ⟨"/w/src/b.ts"⟩ = .ok ["w", "src", "b.ts"] := by
  apply Disk.locate_of_names ["w", "src", "b.ts"] (by decide) (by decide)
  rw [Disk.walk_name (by decide) rfl rfl (by simp), Disk.walk_name (by decide) rfl rfl (by simp),
    Disk.walk_name (by decide) rfl rfl (by simp), Disk.walk]
  rfl

theorem hasModule_src : (tree files h).hasModule ⟨"/w/src/b.ts"⟩ = true := by
  have hkind : (tree files h).kind? ⟨"/w/src/b.ts"⟩ = some .file := by
    rw [Disk.kind?, locate_src]
    rfl
  rw [Disk.hasModule, Path.spellings, List.any_cons, hkind]
  rfl

theorem inside_dist : (tree files h).inside ⟨"/w/dist"⟩ =
    files.map fun file => ([file.1], .file file.2) := by
  rw [Disk.inside, locate_dist, ← List.filterMap_eq_map]
  dsimp only [tree, entries]
  rw [List.filterMap_append, List.filterMap_map]
  rfl

/-- The files are scanned in the order in which they are given, if that is the order of a scan. -/
theorem scan_dist (hcompiled : ∀ file ∈ files, Scanned.isCompiled file.1)
    (hsorted : (files.map fun file => [file.1]).Pairwise fun a b => Scanned.precedes a b) :
    (tree files h).scan ⟨"/w/dist"⟩ = .ok (files.map fun file => scanned file.1) := by
  have hinput : Files.isInput ⟨"/w/dist"⟩ = false := by decide
  have hopen : (tree files h).halt? ⟨"/w/dist"⟩ = none := by
    rw [Disk.halt?, inside_dist]
    simp [Disk.isShut, Entry.isDirectory]
  have hfound : (((tree files h).listing ⟨"/w/dist"⟩).filter fun e =>
      e.isFile && e.names.getLast?.any Scanned.isCompiled).map Below.names =
      files.map fun file => [file.1] := by
    rw [Disk.listing, inside_dist, List.map_map, List.filter_eq_self.2, List.map_map]
    · rfl
    · intro b hb
      obtain ⟨file, hfile, rfl⟩ := List.mem_map.1 hb
      simp [Entry.isFile, hcompiled file hfile]
  rw [Disk.scan, Disk.scan_on_eq, hinput, if_neg Bool.false_ne_true, if_pos kind?_dist,
    Disk.below, hopen]
  change Except.ok (Scanned.ofEntries ⟨"/w/dist"⟩ ((tree files h).listing ⟨"/w/dist"⟩)) = _
  rw [Scanned.ofEntries, hfound, List.mergeSort_of_pairwise hsorted, List.map_map]
  rfl

theorem get?_file (hfile : (name, bytes) ∈ files) :
    (tree files h).get? ["w", "dist", name] = some (.file bytes) := by
  rw [Disk.get?, if_neg (List.cons_ne_nil _ _)]
  apply Keyed.lookup_of_mem (tree files h).nodup
  exact List.mem_append_right _ (List.mem_map_of_mem hfile)

theorem locate_file (htree : (tree files h).IsTree) (hfile : (name, bytes) ∈ files)
    (hfits : (scanned name).path.fits) :
    (tree files h).locate (scanned name).path = .ok ["w", "dist", name] := by
  have hlocate := Disk.locate_down htree locate_dist (List.cons_ne_nil name []) (get?_file hfile)
  exact hlocate.trans (if_pos hfits)

theorem read_file {text : String} (htree : (tree files h).IsTree)
    (hfile : (name, text.toUTF8) ∈ files) (hfits : (scanned name).path.fits) :
    (tree files h).read (scanned name).path = .ok text :=
  Disk.read_of_file (locate_file htree hfile hfits) (get?_file hfile)

theorem read_file_error (htree : (tree files h).IsTree) (hfile : (name, bytes) ∈ files)
    (hfits : (scanned name).path.fits) (hbytes : String.fromUTF8? bytes = none) :
    (tree files h).read (scanned name).path = .error .notUtf8 := by
  rw [Disk.read_file (locate_file htree hfile hfits) (get?_file hfile), hbytes]

end Tree

/-! What becomes of a file that refers to the module. -/

/-- What follows the first quote in a text with one reference. -/
def segments (literal : String) : List Segment :=
  [⟨'\'', literal.toList⟩, ⟨'\'', [')']⟩]

theorem isPlain_before : IsPlain "require(".toList := by
  decide

theorem isInert_new : IsInert "./b.ts" := by
  constructor
  · decide
  · rintro (- | -) <;> decide

theorem wellCut_segments {literal : String} (h : IsPlain literal.toList) :
    ∀ s ∈ segments literal, s.WellCut := by
  intro s hs
  obtain rfl | rfl : s = ⟨'\'', literal.toList⟩ ∨ s = ⟨'\'', [')']⟩ := by
    simpa [segments] using hs
  · exact ⟨rfl, h⟩
  · exact ⟨rfl, by simp [IsPlain, isQuote]⟩

section Module

variable {d : Disk} {file : Path}

theorem verdict_literal (hmodule : d.hasModule ⟨"/w/src/b.ts"⟩ = true)
    (hfile : file.parent? = some ⟨"/w/dist"⟩) :
    job.verdict d file "@/b.ts" = .resolved "./b.ts" := by
  have hmatching : job.matching? "@/b.ts" = some (⟨"@/", [""]⟩, "b.ts") := by
    decide
  have hcandidates : job.candidates ⟨"@/", [""]⟩ "b.ts" = [⟨"/w/src/b.ts"⟩] := by
    decide
  have hfound : (job.candidates ⟨"@/", [""]⟩ "b.ts").find? d.hasModule = some ⟨"/w/src/b.ts"⟩ := by
    rw [hcandidates, List.find?_cons, hmodule]
  rw [Resolver.verdict, hmatching]
  dsimp only
  rw [hfound, hfile]
  decide +kernel

theorem settle_file (hmodule : d.hasModule ⟨"/w/src/b.ts"⟩ = true)
    (hfile : file.parent? = some ⟨"/w/dist"⟩) :
    Form.call.settle (job.verdict d file) "require('@/b.ts')".toList =
        "require(".toList ++ Segment.joined (segments "./b.ts") ∧
      Form.call.literals "require('@/b.ts')".toList = ["@/b.ts"] := by
  have hcut : "require('@/b.ts')".toList =
      "require(".toList ++ Segment.joined (segments "@/b.ts") := by decide
  have hplain : IsPlain "@/b.ts".toList := by decide
  obtain ⟨hsettle, hliterals⟩ := Form.settle_joined (job.verdict d file) .call isPlain_before
    (wellCut_segments hplain) rfl
  have hvisit : (Form.call.opens "require(".toList && Form.call.closes [')']) = true := by
    decide
  have hliteral : Form.settledLiteral (job.verdict d file) "@/b.ts".toList = "./b.ts".toList := by
    apply Form.settledLiteral_of_some
    rw [String.ofList_toList, verdict_literal hmodule hfile]
    rfl
  rw [hcut, hsettle, hliterals]
  constructor
  · rw [segments, Form.sweep, if_pos hvisit, hliteral, Form.sweep]
    · rfl
    · simp
  · rw [segments, Form.visited, if_pos hvisit, Form.visited]
    · simp
    · simp

/-- What is put in place of the reference is not searched again. -/
theorem settle_new (hmodule : d.hasModule ⟨"/w/src/b.ts"⟩ = true)
    (hfile : file.parent? = some ⟨"/w/dist"⟩) :
    Form.statement.settle (job.verdict d file)
        (Form.call.settle (job.verdict d file) "require('@/b.ts')".toList) =
        "require('./b.ts')".toList ∧
      Form.statement.literals
        (Form.call.settle (job.verdict d file) "require('@/b.ts')".toList) = [] := by
  have hvisited : Form.statement.visited "require(".toList (segments "./b.ts") = [] := by
    decide
  obtain ⟨hsettle, hliterals⟩ := Form.settle_joined (job.verdict d file) .statement isPlain_before
    (wellCut_segments isInert_new.1) rfl
  rw [(settle_file hmodule hfile).1, hsettle, hliterals, hvisited, Form.sweep_eq_self]
  · exact ⟨by decide, rfl⟩
  · rw [hvisited]
    exact fun _ hb => absurd hb List.not_mem_nil

theorem unaliased_file (hmodule : d.hasModule ⟨"/w/src/b.ts"⟩ = true)
    (hfile : file.parent? = some ⟨"/w/dist"⟩) :
    job.unaliased d file "require('@/b.ts')" =
      ⟨"require('./b.ts')", ⟨[("@/b.ts", "./b.ts")], [], true⟩⟩ := by
  obtain ⟨-, hcalls⟩ := settle_file hmodule hfile
  obtain ⟨htext, hstatements⟩ := settle_new hmodule hfile
  rw [Resolver.unaliased, Resolver.unalias_run_eq]
  simp only [hcalls, htext, hstatements, String.ofList_toList]
  simp [Outcome.noting, verdict_literal hmodule hfile, Resolution.new?]

theorem key_scanned (name : String) : (scanned name).key = name := by
  rw [scanned, Scanned.below, Path.joined_toUTF8]
  rfl

theorem noted_file {name : String} (hmodule : d.hasModule ⟨"/w/src/b.ts"⟩ = true)
    (hfile : (scanned name).path.parent? = some ⟨"/w/dist"⟩)
    (hread : d.read (scanned name).path = .ok "require('@/b.ts')") :
    job.noted d (scanned name) = (name, ⟨[("@/b.ts", "./b.ts")], [], true⟩) := by
  rw [Job.noted_of_read hread, unaliased_file hmodule hfile, key_scanned]

/-- A file that was processed holds the new reference. -/
theorem get?_of_committed {d' : Disk} {done : List Scanned} {name : String} {l : Location}
    (h : Committed job d done d') (hdone : scanned name ∈ done)
    (hmodule : d.hasModule ⟨"/w/src/b.ts"⟩ = true)
    (hfile : (scanned name).path.parent? = some ⟨"/w/dist"⟩)
    (hl : d.locate (scanned name).path = .ok l)
    (hread : d.read (scanned name).path = .ok "require('@/b.ts')") :
    d'.get? l = some (.file "require('./b.ts')".toUTF8) := by
  obtain ⟨text, htext, -, hnew⟩ := h.exists_text hdone hl
  cases htext.symm.trans hread
  rwa [Job.textAfter_eq rfl, unaliased_file hmodule hfile] at hnew

end Module

end Sample

def oneFile : Disk :=
  Sample.tree [("a.js", "require('@/b.ts')".toUTF8)] (by decide)

namespace oneFile

theorem isTree : oneFile.IsTree := by
  decide

theorem scan_dist : oneFile.scan ⟨"/w/dist"⟩ = .ok [Sample.scanned "a.js"] :=
  Sample.scan_dist (by decide) (by decide)

theorem read_file : oneFile.read (Sample.scanned "a.js").path = .ok "require('@/b.ts')" :=
  Sample.read_file isTree List.mem_cons_self (by decide)

theorem readable : ∀ f ∈ [Sample.scanned "a.js"], ∃ text, oneFile.read f.path = .ok text :=
  List.forall_mem_singleton.2 ⟨_, read_file⟩

end oneFile

/-- A tree with two files that refer to one module. -/
def twins : Disk :=
  Sample.tree [("a.js", "require('@/b.ts')".toUTF8), ("c.js", "require('@/b.ts')".toUTF8)]
    (by decide)

namespace twins

theorem isTree : twins.IsTree := by
  decide

theorem scan_dist :
    twins.scan ⟨"/w/dist"⟩ = .ok [Sample.scanned "a.js", Sample.scanned "c.js"] :=
  Sample.scan_dist (by decide) (by decide)

theorem read_first : twins.read (Sample.scanned "a.js").path = .ok "require('@/b.ts')" :=
  Sample.read_file isTree List.mem_cons_self (by decide)

theorem read_second : twins.read (Sample.scanned "c.js").path = .ok "require('@/b.ts')" :=
  Sample.read_file isTree (List.mem_cons_of_mem _ List.mem_cons_self) (by decide)

theorem readable : ∀ f ∈ [Sample.scanned "a.js", Sample.scanned "c.js"],
    ∃ text, twins.read f.path = .ok text :=
  List.forall_mem_cons.2 ⟨⟨_, read_first⟩, List.forall_mem_singleton.2 ⟨_, read_second⟩⟩

/-- Both files are changed and hold the new reference when they are done. -/
theorem rewritten {d' : Disk}
    (h : Committed Sample.job twins [Sample.scanned "a.js", Sample.scanned "c.js"] d') :
    (Report.ofOutcomes 2 ([Sample.scanned "a.js", Sample.scanned "c.js"].map
      (Sample.job.noted twins))).changedFiles.keys = ["a.js", "c.js"] ∧
      d'.get? ["w", "dist", "a.js"] = some (.file "require('./b.ts')".toUTF8) ∧
      d'.get? ["w", "dist", "c.js"] = some (.file "require('./b.ts')".toUTF8) := by
  have hfirst : (Sample.scanned "a.js").path.parent? = some ⟨"/w/dist"⟩ := by decide
  have hsecond : (Sample.scanned "c.js").path.parent? = some ⟨"/w/dist"⟩ := by decide
  have hmodule : twins.hasModule ⟨"/w/src/b.ts"⟩ = true := Sample.hasModule_src
  refine ⟨?_, ?_, ?_⟩
  · rw [List.map_cons, List.map_singleton, Sample.noted_file hmodule hfirst read_first,
      Sample.noted_file hmodule hsecond read_second]
    decide
  · apply Sample.get?_of_committed h List.mem_cons_self hmodule hfirst _ read_first
    exact Sample.locate_file isTree List.mem_cons_self (by decide)
  · apply Sample.get?_of_committed h (List.mem_cons_of_mem _ List.mem_cons_self) hmodule hsecond _
      read_second
    exact Sample.locate_file isTree (List.mem_cons_of_mem _ List.mem_cons_self) (by decide)

end twins

def refusing : Engine Unit where
  job := Sample.job
  concurrency := 1
  concurrency_pos := Nat.one_pos
  sink := some fun _ => return .error (.report "sink refused")

theorem refusing_concluded (d : Disk) (n : Nat) (p : Processed) (report : RunReport) :
    (refusing.concluded () d n p).1.1.1 ≠ .ok report := by
  obtain ⟨outcomes, result, leftover⟩ := p
  intro h
  cases result with
  | ok _ => cases h
  | error _ => cases h

/-- A way to the output tree that leaves no room for a name below it. -/
def longRoot : Path :=
  Path.slashed ⟨"/w/dist"⟩ 4087

def shutTree : Disk where
  workingDirectory := ["w"]
  entries := [(["w"], .directory), (["w", "dist"], .directory), (["w", "dist", "ab"], .directory)]
  nodup := by decide

theorem size_longRoot : longRoot.text.utf8ByteSize = 4094 :=
  Path.size_slashed ⟨"/w/dist"⟩ 4087

theorem exists_longRoot : ∃ cs, longRoot.text.toList = '/' :: cs := by
  rw [longRoot, Path.toList_slashed]
  exact ⟨_, rfl⟩

theorem fits_longRoot : longRoot.fits := by
  rw [Path.fits, size_longRoot]
  decide

theorem locate_longRoot : shutTree.locate longRoot = .ok ["w", "dist"] := by
  obtain ⟨cs, hslash⟩ := exists_longRoot
  have hnul : '\x00' ∉ longRoot.text.toList := by
    rw [longRoot, Path.toList_slashed, List.mem_append, List.mem_replicate]
    rintro (h | ⟨-, h⟩)
    · exact absurd h (by decide)
    · exact absurd h (by decide)
  have htext : longRoot.text ≠ "" := by
    intro h
    rw [h] at hslash
    cases hslash
  have hnames : Disk.namesOf longRoot = ["w", "dist", "."] := by
    rw [longRoot, Path.namesOf_slashed]
    decide
  apply Disk.locate_of_names ["w", "dist", "."] hnames ⟨hnul, htext, fits_longRoot⟩
  rw [Disk.startOf, Path.isAbsolute, hslash, Disk.walk_name (by decide) rfl rfl (by simp),
    Disk.walk_name (by decide) rfl rfl (by simp), Disk.walk, Disk.walk]
  rfl

theorem scan_shutTree :
    shutTree.scan longRoot =
      .error (Halt.error longRoot (.ofPath (longRoot.down ["ab"]) .nameTooLong)) := by
  obtain ⟨cs, hslash⟩ := exists_longRoot
  have hinput : ¬Files.isInput longRoot := by
    rw [Files.isInput, Path.components_of_slash hslash]
    simp
  have hkind : shutTree.kind? longRoot = some .directory := by
    rw [Disk.kind?, locate_longRoot]
    rfl
  have hlong : (longRoot.down ["ab"]).fits = false := by
    have hdown : longRoot.down ["ab"] = ⟨longRoot.text ++ "ab"⟩ :=
      Path.down_slashed ⟨"/w/dist"⟩ 4086 (by decide)
    rw [Path.fits, hdown, String.utf8ByteSize_append, size_longRoot]
    decide
  have hshut : Disk.isShut longRoot (["ab"], .directory) = true := by
    change (true && longRoot.fits && !(longRoot.down ["ab"]).fits) = true
    rw [fits_longRoot, hlong]
    rfl
  have hhalt : shutTree.halt? longRoot = some (.ofPath (longRoot.down ["ab"]) .nameTooLong) := by
    have hinside : shutTree.inside longRoot = [(["ab"], .directory)] := by
      rw [Disk.inside, locate_longRoot]
      rfl
    rw [Disk.halt?, hinside, List.find?_cons_of_pos hshut]
    rfl
  rw [Disk.scan, Disk.scan_on_eq, if_neg hinput, if_pos hkind, Disk.below, hhalt]
  rfl

def silent : Engine Unit :=
  Engine.ofJob { Sample.job with outRoot := longRoot } 1 none

theorem outRoot_silent : silent.job.outRoot = longRoot :=
  rfl

theorem directory_shutTree :
    ∀ l ∈ shutTree.entries.map Prod.fst, (shutTree.get? l).any Entry.isDirectory := by
  decide

/-- Not every run over files that can be read succeeds, since the sink has a say and a directory
may be shut, even one without files; and of two names that look alike only one is recorded. -/
theorem not_runSync_commits :
    (¬∀ (e : Engine Unit) (d : Disk), e.job.dryRun = false → d.IsTree →
      (∀ f ∈ d.scanned e.job.outRoot, ∃ text, d.read f.path = .ok text) →
      ∃ report, (e.runSync.on .idle () d).1.1.1 = .ok report) ∧
    (¬∀ (e : Engine Unit) (d : Disk), e.sink = none → e.job.dryRun = false → d.IsTree →
      (∀ l bytes, d.get? l = some (.file bytes) → ∃ text, String.fromUTF8? bytes = some text) →
      ∃ report, (e.runSync.on .idle () d).1.1.1 = .ok report) ∧
    let first := Path.joined [⟨#[0xfe, 0x2e, 0x6a, 0x73]⟩]
    let second := Path.joined [⟨#[0xff, 0x2e, 0x6a, 0x73]⟩]
    let processed : Processed := { outcomes := [(first, { changed := true }), (second, {})] }
    (processed.report 2).changedFiles.keys = [] := by
  refine ⟨fun h => ?_, fun h => ?_, ?_⟩
  · have hread : ∀ f ∈ oneFile.scanned refusing.job.outRoot,
        ∃ text, oneFile.read f.path = .ok text := by
      have hscanned : oneFile.scanned refusing.job.outRoot = _ :=
        Disk.scanned_of_scan oneFile.scan_dist
      rw [hscanned]
      exact oneFile.readable
    obtain ⟨report, hok⟩ := h refusing oneFile rfl oneFile.isTree hread
    rw [Engine.runSync_of_scan () oneFile oneFile.scan_dist] at hok
    exact refusing_concluded _ _ _ report hok
  · have htexts : ∀ l bytes, shutTree.get? l = some (.file bytes) →
        ∃ text, String.fromUTF8? bytes = some text := by
      intro l bytes hfile
      have hdirectory : (shutTree.get? l).any Entry.isDirectory := by
        by_cases hl : l = []
        · rw [hl]
          rfl
        · exact directory_shutTree l (Disk.mem_keys_of_get? hfile hl)
      rw [hfile] at hdirectory
      cases hdirectory
    have hscan : shutTree.scan silent.job.outRoot = _ := outRoot_silent ▸ scan_shutTree
    obtain ⟨report, hok⟩ := h silent shutTree rfl rfl (by decide) htexts
    rw [Engine.runSync_of_error () shutTree hscan] at hok
    cases hok
  · have halike : Path.joined [⟨#[0xfe, 0x2e, 0x6a, 0x73]⟩] =
        Path.joined [⟨#[0xff, 0x2e, 0x6a, 0x73]⟩] := by
      decide +kernel
    intro first second processed
    have hrecord : processed.record = [(second, {})] := by
      have hsame : first = second := halike
      simp [processed, Processed.record, Keyed.set, hsame]
    rw [Processed.report, hrecord]
    rfl

def printing : Engine (List String) :=
  Engine.ofJob Sample.job 2 (some Command.printer)

theorem printing_acceptsReports : printing.AcceptsReports := by
  intro report s d
  rfl

theorem printing_sparesTree : printing.SparesTree := by
  intro report s d
  rfl

/-- A tree with a file that cannot be read between two that can. -/
def threeFiles : Disk :=
  Sample.tree [("a.js", "require('@/b.ts')".toUTF8), ("m.js", ⟨#[0xff]⟩),
    ("z.js", "require('@/b.ts')".toUTF8)] (by decide)

namespace threeFiles

theorem isTree : threeFiles.IsTree := by
  decide

theorem scan_dist : threeFiles.scan ⟨"/w/dist"⟩ =
    .ok [Sample.scanned "a.js", Sample.scanned "m.js", Sample.scanned "z.js"] :=
  Sample.scan_dist (by decide) (by decide)

theorem read_first : threeFiles.read (Sample.scanned "a.js").path = .ok "require('@/b.ts')" :=
  Sample.read_file isTree List.mem_cons_self (by decide)

theorem read_second : threeFiles.read (Sample.scanned "m.js").path = .error .notUtf8 :=
  Sample.read_file_error isTree (List.mem_cons_of_mem _ List.mem_cons_self) (by decide) (by decide)

theorem readable_eq :
    threeFiles.readable [Sample.scanned "a.js", Sample.scanned "m.js", Sample.scanned "z.js"] =
      [Sample.scanned "a.js"] := by
  rw [Disk.readable_cons_ok read_first, Disk.readable_cons_error read_second]

end threeFiles

/-- What comes before the file that cannot be read is rewritten and reported; what comes after it
stays as it was. -/
theorem runSync_commits_threeFiles :
    printing.job.dryRun = false ∧ threeFiles.IsTree ∧
      ∃ d' report, printing.Commits threeFiles [] [Sample.scanned "a.js"]
          [Sample.scanned "m.js", Sample.scanned "z.js"] d' report
          (.error (.filesAt (Sample.scanned "m.js").path .notUtf8)) ∧
        (printing.runSync.on .idle [] threeFiles).1.2 = [RunReport.render ⟨printing.job, report⟩] ∧
        report.changedFiles.keys = ["a.js"] ∧
        d'.get? ["w", "dist", "a.js"] = some (.file "require('./b.ts')".toUTF8) ∧
        d'.get? ["w", "dist", "z.js"] = some (.file "require('@/b.ts')".toUTF8) := by
  refine ⟨rfl, threeFiles.isTree, ?_⟩
  obtain ⟨done, left, d', report, result, h⟩ | ⟨p, cause, -, hscan, -⟩ :=
    printing.runSync_commits rfl threeFiles threeFiles.isTree []
  swap
  · cases hscan.symm.trans threeFiles.scan_dist
  have hfiles := Except.ok.inj (h.scan.symm.trans threeFiles.scan_dist)
  obtain rfl : done = [Sample.scanned "a.js"] := by
    rw [h.done_eq, hfiles, threeFiles.readable_eq]
  obtain rfl := List.append_cancel_left hfiles
  obtain ⟨cause, hcause, rfl⟩ := h.fails _ _ rfl
  cases (Disk.read_of_unreadable hcause).symm.trans threeFiles.read_second
  have hfirst : threeFiles.locate (Sample.scanned "a.js").path = .ok ["w", "dist", "a.js"] :=
    Sample.locate_file threeFiles.isTree List.mem_cons_self (by decide)
  have hparent : (Sample.scanned "a.js").path.parent? = some ⟨"/w/dist"⟩ := by decide
  refine ⟨d', report, h, ?_, ?_, ?_, ?_⟩
  · rw [h.ends]
    rfl
  · have hnoted : printing.job.noted threeFiles (Sample.scanned "a.js") = _ :=
      Sample.noted_file Sample.hasModule_src hparent threeFiles.read_first
    rw [h.covers, List.map_singleton, hnoted]
    decide
  · obtain ⟨l, text, hl, htext, hfile⟩ := h.texts _ List.mem_cons_self
    cases hl.symm.trans hfirst
    cases (Disk.read_of_file hl htext).symm.trans threeFiles.read_first
    have hnew : printing.job.unaliased threeFiles (Sample.scanned "a.js").path _ = _ :=
      Sample.unaliased_file Sample.hasModule_src hparent
    rw [hfile, hnew]
  · rw [h.others]
    · exact Sample.get?_file (by simp)
    · intro f hf
      obtain rfl := List.mem_singleton.1 hf
      rw [hfirst]
      simp

end Unalias
