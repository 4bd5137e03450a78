import Unalias.Proofs.Path.Way
import Unalias.Proofs.Reference.Containment

/-!
What a reference resolves to, told apart from how it is found. The first rule whose stem the
reference starts with decides, and of its targets the first that leads to a module; the new
reference leads from the directory of the file to where that module is at run time.
-/

namespace Unalias

/-- There is something at a path as it is written, or with a suffix of modules behind it. -/
def Disk.Holds (d : Disk) (p : Path) : Prop :=
  ∃ suffix ∈ ["", ".js", ".jsx", ".ts", ".tsx", ".d.ts", ".json"],
    (d.kind? ⟨p.text ++ suffix⟩).isSome

theorem Disk.hasModule_iff {d : Disk} {p : Path} : d.hasModule p = true ↔ d.Holds p := by
  simp [hasModule, Holds, Path.spellings, moduleSuffixes, Path.addSuffix]

namespace Resolver

/-- The steps from the root to where a module is at run time: one among the sources has its place
in the output tree. -/
inductive Leads (r : Resolver) (found : Path) : List Path.Component → Prop
  | output (h : r.resolveFrom = .output) : Leads r found found.components
  | outside (h : r.resolveFrom = .source) (hfound : ¬found.Below r.srcRoot) :
    Leads r found found.components
  | mirrored (inside : List Path.Component) (h : r.resolveFrom = .source)
    (hfound : found.components = r.srcRoot.components ++ inside) :
    Leads r found (r.outRoot.components ++ inside)

structure Rooted (r : Resolver) : Prop where
  aliasRoot : r.aliasRoot.IsNormal
  srcRoot : r.srcRoot.IsNormal
  outRoot : r.outRoot.IsNormal

section Rooted

variable {r : Resolver} {found : Path}

theorem Rooted.probeRoot (h : r.Rooted) : r.probeRoot.isAbsolute = true := by
  rw [Resolver.probeRoot]
  split
  · exact h.aliasRoot.absolute
  · exact h.outRoot.absolute

theorem Rooted.destination (h : r.Rooted) (hfound : found.Straight) :
    (r.destination found).Straight ∧ r.Leads found (r.destination found).components := by
  rw [Resolver.destination]
  cases hfrom : r.resolveFrom with
  | output => exact ⟨hfound, .output hfrom⟩
  | source =>
    cases hinside : found.stripPrefix? r.srcRoot with
    | none =>
      refine ⟨hfound, .outside hfrom ?_⟩
      rintro ⟨steps, hsteps⟩
      rw [Path.stripPrefix?, List.isPrefixOf?_eq_some_iff_append_eq.2 hsteps] at hinside
      cases hinside
    | some inside =>
      obtain ⟨steps, hsteps, rfl⟩ := Option.map_eq_some_iff.1 hinside
      obtain hsteps := List.isPrefixOf?_eq_some_iff_append_eq.1 hsteps
      -- what is left below the source root are steps of the module
      have honward : found.onward = r.srcRoot.onward ++ steps := by
        rw [h.srcRoot.straight.components, hfound.components] at hsteps
        exact (List.cons.inj hsteps).2.symm
      have hpieces : ∀ c ∈ steps, c.IsPiece := by
        intro c hc
        apply Path.isPiece_onward found
        rw [honward]
        exact List.mem_append_right _ hc
      have hnames : ∀ c ∈ steps, c ≠ .parent := by
        have hdescends := hfound.descends
        rw [honward] at hdescends
        exact (List.forall_mem_append.1 hdescends).2
      have hrelative := Path.isAbsolute_intercalate hpieces
      have hinside := Path.onward_intercalate hpieces
      rw [← Path.ofComponents_of_isPiece hpieces] at hrelative hinside
      have hout := h.outRoot.straight
      refine ⟨hout.join hrelative ?_, ?_⟩
      · rwa [hinside]
      · rw [hout.components_join hrelative, hinside]
        exact .mirrored steps hfrom hsteps.symm

/-- What is answered for a reference in a file of a directory. -/
structure Answers (r : Resolver) (d : Disk) (directory : Path) (reference : String)
    (answer : Resolution) : Prop where
  notAliased_iff :
    answer = .notAliased ↔ ∀ rule ∈ r.rules, ¬rule.stem.toList <+: reference.toList
  unresolved_iff {rule : Rule} {rest : String} (h : r.Decides rule reference rest) :
    answer = .unresolved ↔
      ∀ target ∈ rule.targets, ¬d.Holds (r.probeRoot.resolve [⟨target⟩, ⟨rest⟩])
  resolved {rule : Rule} {rest target : String} {tried left : List String}
    (h : r.Decides rule reference rest) (htargets : rule.targets = tried ++ target :: left)
    (htried : ∀ other ∈ tried, ¬d.Holds (r.probeRoot.resolve [⟨other⟩, ⟨rest⟩]))
    (htarget : d.Holds (r.probeRoot.resolve [⟨target⟩, ⟨rest⟩])) :
    ∃ new, answer = .resolved new ∧
      r.Leads (r.probeRoot.resolve [⟨target⟩, ⟨rest⟩])
        (directory.resolve [⟨new⟩]).components

/-- A file below the output root has a directory. -/
theorem Rooted.exists_parent (h : r.Rooted) {file : Path} (hfile : file.IsNormal)
    (hbelow : file.Below r.outRoot) (hne : file ≠ r.outRoot) :
    ∃ directory, file.parent? = some directory ∧ directory.Straight := by
  apply hfile.straight.exists_parent
  intro hnil
  apply hne
  have hsteps := hfile.straight.components
  rw [Path.Below, h.outRoot.straight.components, hsteps, hnil, List.prefix_cons_inj,
    List.prefix_nil] at hbelow
  rw [hfile.eq_ofComponents, h.outRoot.eq_ofComponents, hsteps, h.outRoot.straight.components,
    hnil, hbelow]

theorem find?_candidates_eq_none_iff {rule : Rule} {rest : String} {d : Disk} :
    (r.candidates rule rest).find? d.hasModule = none ↔
      ∀ target ∈ rule.targets, ¬d.Holds (r.probeRoot.resolve [⟨target⟩, ⟨rest⟩]) := by
  simp only [candidates, List.find?_eq_none, List.forall_mem_map, Disk.hasModule_iff]

theorem find?_candidates_of_first {rule : Rule} {rest target : String} {tried left : List String}
    {d : Disk} (htargets : rule.targets = tried ++ target :: left)
    (htried : ∀ other ∈ tried, ¬d.Holds (r.probeRoot.resolve [⟨other⟩, ⟨rest⟩]))
    (htarget : d.Holds (r.probeRoot.resolve [⟨target⟩, ⟨rest⟩])) :
    (r.candidates rule rest).find? d.hasModule =
      some (r.probeRoot.resolve [⟨target⟩, ⟨rest⟩]) := by
  rw [candidates, htargets, List.map_append, List.find?_append, List.find?_eq_none.2,
    List.map_cons, List.find?_cons_of_pos (Disk.hasModule_iff.2 htarget), Option.none_or]
  simpa only [List.forall_mem_map, Disk.hasModule_iff] using htried

theorem verdict_answers (h : r.Rooted) (d : Disk) {file directory : Path}
    (hparent : file.parent? = some directory) (hdirectory : directory.Straight)
    (reference : String) :
    r.Answers d directory reference (r.verdict d file reference) where
  notAliased_iff := verdict_eq_notAliased_iff
  unresolved_iff := by
    intro rule rest hrule
    rw [← find?_candidates_eq_none_iff, verdict, matching?_eq_some_iff.2 hrule]
    dsimp only
    cases (r.candidates rule rest).find? d.hasModule <;> simp
  resolved := by
    intro rule rest target tried left hrule htargets htried htarget
    have hfound := find?_candidates_of_first htargets htried htarget
    have hcandidate : (r.probeRoot.resolve [⟨target⟩, ⟨rest⟩]).Straight :=
      Path.straight_resolve h.probeRoot
    obtain ⟨hstraight, hleads⟩ := h.destination hcandidate
    have hresolved : r.verdict d file reference = .resolved (Path.moduleReference directory
        (r.destination (r.probeRoot.resolve [⟨target⟩, ⟨rest⟩]))) := by
      simp only [verdict, matching?_eq_some_iff.2 hrule, hfound, hparent, Option.getD_some]
    refine ⟨_, hresolved, ?_⟩
    rwa [Path.components_resolve_moduleReference hdirectory hstraight]

end Rooted

/-- Resolution from end to end, for a file below the output root. -/
theorem resolve_answers {r : Resolver} {file : Path} (hroots : r.Rooted) (hfile : file.IsNormal)
    (hbelow : file.Below r.outRoot) (hne : file ≠ r.outRoot) (reference : String) (d : Disk) :
    ∃ directory answer, file.parent? = some directory ∧
      (r.resolve reference file).run d = (answer, d) ∧
      r.Answers d directory reference answer := by
  obtain ⟨directory, hparent, hdirectory⟩ := hroots.exists_parent hfile hbelow hne
  exact ⟨directory, r.verdict d file reference, hparent, resolve_run r d file reference,
    verdict_answers hroots d hparent hdirectory reference⟩

end Resolver

/-- A tree with one module, among its sources. -/
def oneModule : Disk where
  workingDirectory := ["p"]
  entries :=
    [(["p"], .directory), (["p", "src"], .directory), (["p", "src", "lib"], .directory),
      (["p", "src", "lib", "foo.ts"], .file .empty)]
  nodup := by decide

theorem resolve_answers_oneModule :
    let r := amongSources [⟨"@lib/", ["gone/", "lib/"]⟩]
    let file : Path := ⟨"/p/dist/pages/a.js"⟩
    (r.Rooted ∧ file.IsNormal ∧ file.Below r.outRoot ∧ file ≠ r.outRoot) ∧
      ∃ directory answer, file.parent? = some directory ∧
        (r.resolve "@lib/foo" file).run oneModule = (answer, oneModule) ∧
        r.Answers oneModule directory "@lib/foo" answer := by
  have hroots : (amongSources [⟨"@lib/", ["gone/", "lib/"]⟩]).Rooted :=
    ⟨by decide, by decide, by decide⟩
  have hfile : Path.IsNormal ⟨"/p/dist/pages/a.js"⟩ := by decide
  have hbelow : Path.Below ⟨"/p/dist/pages/a.js"⟩ ⟨"/p/dist"⟩ := by decide
  have hne : (⟨"/p/dist/pages/a.js"⟩ : Path) ≠ ⟨"/p/dist"⟩ := by decide
  exact ⟨⟨hroots, hfile, hbelow, hne⟩,
    Resolver.resolve_answers hroots hfile hbelow hne "@lib/foo" oneModule⟩

end Unalias
