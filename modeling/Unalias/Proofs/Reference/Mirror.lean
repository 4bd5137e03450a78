import Mathlib.Data.List.Find
import Unalias.Proofs.Files.Tree
import Unalias.Proofs.Reference.Resolution

/-!
Resolution under the two policies. Where the output tree mirrors the sources, it makes no
difference in which of the two a target is looked up: a way that does not climb above its start
leads through the same names below either root.
-/

namespace Unalias

namespace Path

section Level

variable {cs top taken : List Component}

/-- A `..` that nothing is left to undo stays at the bottom. -/
theorem getLast?_foldl_step_parent (h : ∀ c ∈ cs, c.IsPiece)
    (htop : ∀ c ∈ top, c = .parent ∨ ∃ name, c = .name name) :
    (cs.foldl step (top ++ [.parent])).getLast? = some .parent := by
  induction cs generalizing top with
  | nil => exact List.getLast?_concat
  | cons c cs ih =>
    obtain ⟨hc, hcs⟩ := List.forall_mem_cons.1 h
    rw [List.foldl_cons]
    obtain rfl | ⟨name, rfl⟩ := hc.eq_parent_or_name
    · cases top with
      | nil => exact ih hcs (List.forall_mem_singleton.2 (.inl rfl))
      | cons c top =>
        obtain ⟨hc, htop'⟩ := List.forall_mem_cons.1 htop
        obtain rfl | ⟨name, rfl⟩ := hc
        · exact ih hcs (List.forall_mem_cons.2 ⟨.inl rfl, htop⟩)
        · exact ih hcs htop'
    · exact ih hcs (List.forall_mem_cons.2 ⟨.inr ⟨name, rfl⟩, htop⟩)

/-- Steps that do not climb above their start are folded alike wherever they start. -/
theorem foldl_step_append (h : ∀ c ∈ cs, c.IsPiece) (htop : ∀ c ∈ top, ∃ name, c = .name name)
    (hlevel : (cs.foldl step top).getLast? ≠ some .parent) :
    cs.foldl step (top ++ taken) = cs.foldl step top ++ taken := by
  induction cs generalizing top with
  | nil => rfl
  | cons c cs ih =>
    obtain ⟨hc, hcs⟩ := List.forall_mem_cons.1 h
    rw [List.foldl_cons] at hlevel
    rw [List.foldl_cons, List.foldl_cons]
    obtain rfl | ⟨name, rfl⟩ := hc.eq_parent_or_name
    · cases top with
      | nil => exact absurd (getLast?_foldl_step_parent hcs (List.forall_mem_nil _)) hlevel
      | cons c top =>
        obtain ⟨⟨name, rfl⟩, htop'⟩ := List.forall_mem_cons.1 htop
        exact ih hcs htop' hlevel
    · exact ih hcs (List.forall_mem_cons.2 ⟨⟨name, rfl⟩, htop⟩) hlevel

end Level

/-- A relative path whose normal form does not begin with `..`. -/
structure IsLevel (p : Path) : Prop where
  relative : p.isAbsolute = false
  level : p.normalize.components.head? ≠ some .parent

instance : DecidablePred IsLevel := fun p =>
  decidable_of_iff (p.isAbsolute = false ∧ p.normalize.components.head? ≠ some .parent)
    ⟨fun h => ⟨h.1, h.2⟩, fun h => ⟨h.relative, h.level⟩⟩

theorem relative_of_join {p q : Path} (h : (p.join q).isAbsolute = false) :
    p.isAbsolute = false ∧ q.isAbsolute = false := by
  cases hq : q.isAbsolute with
  | true => rw [join_of_absolute hq, hq] at h; cases h
  | false => exact ⟨(isAbsolute_join_of_relative hq).symm.trans h, rfl⟩

/-- A way that does not climb above its start leads below any root to what it is by itself. -/
theorem components_resolve_of_isLevel {root target rest : Path} (hroot : root.Straight)
    (h : (target.join rest).IsLevel) :
    (root.resolve [target, rest]).components =
      root.components ++ (target.join rest).normalize.components := by
  obtain ⟨htarget, hrest⟩ := relative_of_join h.relative
  have hsteps :
      ((root.join target).join rest).onward = root.onward ++ (target.join rest).onward := by
    rw [onward_join hrest, onward_join htarget, onward_join hrest, List.append_assoc]
  have hstart : ((root.join target).join rest).start = [.root] := by
    rw [start_join hrest, start_join htarget, hroot.start]
  have hself : (target.join rest).start = [] := by
    rw [start, h.relative]
    rfl
  have hlevel := h.level
  rw [components_normalize, hself, List.head?_reverse] at hlevel
  have hfold := @foldl_step_append _ [] (root.onward.reverse ++ [.root])
    (isPiece_onward (target.join rest)) (List.forall_mem_nil _) hlevel
  rw [List.nil_append] at hfold
  rw [resolve_two, components_normalize, components_normalize, hsteps, hstart, hself,
    List.foldl_append, foldl_step_names hroot.descends (isPiece_onward root), hfold,
    hroot.components]
  simp

/-- A reference depends on the steps of the path it names, not on how the path is written. -/
theorem moduleReference_congr {directory p q : Path} (h : p.components = q.components) :
    moduleReference directory p = moduleReference directory q := by
  rw [moduleReference, relative, h]
  rfl

end Path

theorem Disk.holds_of_locate {d : Disk} {p : Path} {suffix : String} {l : Location}
    {bytes : ByteArray} (hsuffix : suffix ∈ ["", ".js", ".jsx", ".ts", ".tsx", ".d.ts", ".json"])
    (hl : d.locate ⟨p.text ++ suffix⟩ = .ok l) (hfile : d.get? l = some (.file bytes)) :
    d.Holds p := by
  refine ⟨suffix, hsuffix, ?_⟩
  simp only [kind?, hl, hfile, Option.isSome_some]

namespace Resolver

/-- The resolver with the other policy or the same. -/
def under (r : Resolver) (policy : Policy) : Resolver :=
  { r with resolveFrom := policy }

/-- What a target and a remainder lead to is in the output tree just if it is among the sources. -/
structure Mirrors (r : Resolver) (d : Disk) (target rest : String) : Prop where
  level : (Path.join ⟨target⟩ ⟨rest⟩).IsLevel
  holds_iff : d.Holds (r.srcRoot.resolve [⟨target⟩, ⟨rest⟩]) ↔
    d.Holds (r.outRoot.resolve [⟨target⟩, ⟨rest⟩])

section Mirrors

variable {r : Resolver} {d : Disk} {target rest : String}

theorem Rooted.under (h : r.Rooted) (policy : Policy) : (r.under policy).Rooted :=
  ⟨h.aliasRoot, h.srcRoot, h.outRoot⟩

/-- A module among the sources has its place in the output tree where the other policy finds it. -/
theorem components_destination (hroots : r.Rooted) (h : (Path.join ⟨target⟩ ⟨rest⟩).IsLevel) :
    ((r.under .source).destination (r.srcRoot.resolve [⟨target⟩, ⟨rest⟩])).components =
      (r.outRoot.resolve [⟨target⟩, ⟨rest⟩]).components := by
  have hsrc := Path.components_resolve_of_isLevel hroots.srcRoot.straight h
  have hout := Path.components_resolve_of_isLevel hroots.outRoot.straight h
  have hfound : (r.srcRoot.resolve [⟨target⟩, ⟨rest⟩]).Straight :=
    Path.straight_resolve hroots.srcRoot.absolute
  rw [hout]
  obtain ⟨-, hleads⟩ := (hroots.under .source).destination hfound
  generalize ((r.under .source).destination _).components = steps at hleads
  cases hleads with
  | output hpolicy => cases hpolicy
  | outside _ hbelow =>
    exfalso
    apply hbelow
    exact ⟨_, hsrc.symm⟩
  | mirrored inside _ hinside =>
    have hinside' := hsrc.symm.trans hinside
    rw [List.append_cancel_left hinside']
    rfl

theorem verdict_source_eq_output (hroots : r.Rooted) (halias : r.aliasRoot = r.srcRoot)
    (file : Path) {reference : String}
    (hmirrors : ∀ rule rest, r.Decides rule reference rest →
      ∀ target ∈ rule.targets, r.Mirrors d target rest) :
    (r.under .source).verdict d file reference = (r.under .output).verdict d file reference := by
  have hmatching : ∀ policy, (r.under policy).matching? reference = r.matching? reference :=
    fun _ => rfl
  rw [verdict, verdict, hmatching, hmatching]
  cases hmatch : r.matching? reference with
  | none => rfl
  | some found =>
    obtain ⟨rule, rest⟩ := found
    have hmirrors := hmirrors rule rest (matching?_eq_some_iff.1 hmatch)
    have hsource : (r.under .source).candidates rule rest =
        rule.targets.map fun target => r.srcRoot.resolve [⟨target⟩, ⟨rest⟩] := by
      rw [candidates, probeRoot, ← halias]
      rfl
    have houtput : (r.under .output).candidates rule rest =
        rule.targets.map fun target => r.outRoot.resolve [⟨target⟩, ⟨rest⟩] := rfl
    have hfirst : rule.targets.find?
          (d.hasModule ∘ fun target => r.srcRoot.resolve [⟨target⟩, ⟨rest⟩]) =
        rule.targets.find? (d.hasModule ∘ fun target => r.outRoot.resolve [⟨target⟩, ⟨rest⟩]) := by
      apply List.find?_congr
      intro target htarget
      rw [Function.comp_apply, Function.comp_apply, Bool.eq_iff_iff, Disk.hasModule_iff,
        Disk.hasModule_iff]
      exact (hmirrors target htarget).holds_iff
    dsimp only
    rw [hsource, houtput, List.find?_map, List.find?_map, hfirst]
    cases htarget : rule.targets.find? _ with
    | none => rfl
    | some target =>
      have hlevel := (hmirrors target (List.mem_of_find?_eq_some htarget)).level
      exact congrArg Resolution.resolved
        (Path.moduleReference_congr (components_destination hroots hlevel))

/-- Where the output tree mirrors the sources, both policies give the same answer, to the letter of
the reference. -/
theorem resolve_source_eq_output (hroots : r.Rooted) (halias : r.aliasRoot = r.srcRoot)
    (d : Disk) (file : Path) {reference : String}
    (hmirrors : ∀ rule rest, r.Decides rule reference rest →
      ∀ target ∈ rule.targets, r.Mirrors d target rest) :
    ((r.under .source).resolve reference file).run d =
      ((r.under .output).resolve reference file).run d := by
  rw [resolve_run, resolve_run, verdict_source_eq_output hroots halias file hmirrors]

end Mirrors

end Resolver

/-- A tree with its output among its sources, where both have the same module. -/
def mirroredTree : Disk where
  workingDirectory := ["p"]
  entries :=
    [(["p"], .directory), (["p", "lib"], .directory), (["p", "lib", "foo.ts"], .file .empty),
      (["p", "dist"], .directory), (["p", "dist", "lib"], .directory),
      (["p", "dist", "lib", "foo.js"], .file .empty)]
  nodup := by decide

/-- The rule of this resolver leads to its module by a detour. -/
def mirroredResolver : Resolver where
  rules := [⟨"@lib/", ["x/../lib/"]⟩]
  resolveFrom := .source
  aliasRoot := ⟨"/p"⟩
  srcRoot := ⟨"/p"⟩
  outRoot := ⟨"/p/dist"⟩

theorem mirrors_mirroredTree : mirroredResolver.Mirrors mirroredTree "x/../lib/" "foo" where
  level := by decide +kernel
  holds_iff := by
    have hsource : mirroredResolver.srcRoot.resolve [⟨"x/../lib/"⟩, ⟨"foo"⟩] = ⟨"/p/lib/foo"⟩ := by
      decide +kernel
    have houtput : mirroredResolver.outRoot.resolve [⟨"x/../lib/"⟩, ⟨"foo"⟩] =
        ⟨"/p/dist/lib/foo"⟩ := by
      decide +kernel
    have htree : mirroredTree.IsTree := by decide
    have hmodule : mirroredTree.locate ⟨"/p/lib/foo" ++ ".ts"⟩ = .ok ["p", "lib", "foo.ts"] :=
      Disk.locate_of_names ["p", "lib", "foo.ts"] (by decide) (by decide)
        (Disk.walk_down htree _ (by decide) rfl (by simp))
    have hcompiled : mirroredTree.locate ⟨"/p/dist/lib/foo" ++ ".js"⟩ =
        .ok ["p", "dist", "lib", "foo.js"] :=
      Disk.locate_of_names ["p", "dist", "lib", "foo.js"] (by decide) (by decide)
        (Disk.walk_down htree _ (by decide) rfl (by simp))
    rw [hsource, houtput]
    exact iff_of_true (Disk.holds_of_locate (by decide) hmodule rfl)
      (Disk.holds_of_locate (by decide) hcompiled rfl)

theorem resolve_source_eq_output_mirroredTree :
    (mirroredResolver.Rooted ∧ mirroredResolver.aliasRoot = mirroredResolver.srcRoot ∧
      ∀ rule rest, mirroredResolver.Decides rule "@lib/foo" rest →
        ∀ target ∈ rule.targets, mirroredResolver.Mirrors mirroredTree target rest) ∧
      ((mirroredResolver.under .source).resolve "@lib/foo" ⟨"/p/dist/pages/a.js"⟩).run
          mirroredTree =
        ((mirroredResolver.under .output).resolve "@lib/foo" ⟨"/p/dist/pages/a.js"⟩).run
          mirroredTree := by
  have hroots : mirroredResolver.Rooted := ⟨by decide, by decide, by decide⟩
  have hmatching : mirroredResolver.matching? "@lib/foo" =
      some (⟨"@lib/", ["x/../lib/"]⟩, "foo") := by decide +kernel
  have hmirrors : ∀ rule rest, mirroredResolver.Decides rule "@lib/foo" rest →
      ∀ target ∈ rule.targets, mirroredResolver.Mirrors mirroredTree target rest := by
    intro rule rest hrule target htarget
    cases hmatching.symm.trans (Resolver.matching?_eq_some_iff.2 hrule)
    obtain rfl := List.mem_singleton.1 htarget
    exact mirrors_mirroredTree
  exact ⟨⟨hroots, rfl, hmirrors⟩,
    Resolver.resolve_source_eq_output hroots rfl mirroredTree ⟨"/p/dist/pages/a.js"⟩ hmirrors⟩

end Unalias
