import Mathlib.Data.List.Forall2
import Unalias.Proofs.Path.Steps
import Unalias.Proofs.Reference.Matching

/-!
Where the candidates of a reference lie. The remainder of a reference is joined onto the directory
of a target, and stays at or below it as long as it has no `..`. A remainder that is an absolute
path is the exception: joining takes it for the whole path, and no target has a part in it.
-/

namespace Unalias

namespace Path

/-- At a directory or somewhere in it, told from the steps alone. -/
def Below (p directory : Path) : Prop :=
  directory.components <+: p.components

instance : DecidableRel Below := fun p directory =>
  inferInstanceAs (Decidable (directory.components <+: p.components))

theorem mem_components_of_mem_onward {p : Path} {c : Component} (h : c ∈ p.onward) :
    c ∈ p.components := by
  cases habsolute : p.isAbsolute with
  | true =>
    rw [components_of_absolute habsolute]
    exact List.mem_cons_of_mem _ h
  | false =>
    obtain hsteps | hsteps := components_of_relative habsolute
    · rwa [hsteps]
    · rw [hsteps]
      exact List.mem_cons_of_mem _ h

/-- Steps that do not climb are added behind those of the directory. -/
theorem components_resolve_descent (base directory : Path) {rest : Path}
    (habsolute : rest.isAbsolute = false) (hclimb : .parent ∉ rest.components) :
    (base.resolve [directory, rest]).components =
      (base.resolve [directory]).components ++ rest.onward := by
  have hnames : ∀ c ∈ rest.onward, c ≠ .parent := by
    rintro _ hc rfl
    exact hclimb (mem_components_of_mem_onward hc)
  rw [resolve_one, resolve_two]
  simp only [components_normalize, onward_join habsolute, start_join habsolute]
  rw [List.foldl_append, foldl_step_names hnames (isPiece_onward rest), List.reverse_append,
    List.reverse_reverse]

theorem resolve_of_absolute {base directory rest : Path} (habsolute : rest.isAbsolute = true) :
    base.resolve [directory, rest] = rest.normalize := by
  rw [resolve_two, join_of_absolute habsolute]

end Path

/-- A remainder is an absolute path when the reference goes on with a slash behind the stem. -/
theorem Rule.isAbsolute_rest {rule : Rule} {reference rest : String}
    (h : reference = rule.stem ++ rest) :
    Path.isAbsolute ⟨rest⟩ = decide (rule.stem.toList ++ ['/'] <+: reference.toList) := by
  rw [h, String.toList_append, Path.isAbsolute, decide_eq_decide, List.prefix_append_right_inj]
  cases rest.toList <;> simp [eq_comm]

namespace Resolver

/-- Each candidate lies at or below the directory of its target, unless the reference goes on with
a slash behind the stem. Then every target has one and the same candidate, the path that the
remainder is by itself. -/
theorem candidates_below {r : Resolver} {reference : String} {rule : Rule} {rest : String}
    (hmatch : r.matching? reference = some (rule, rest))
    (hclimb : .parent ∉ Path.components ⟨rest⟩) :
    List.Forall₂
      (fun target candidate =>
        if rule.stem.toList ++ ['/'] <+: reference.toList then
          candidate = Path.normalize ⟨rest⟩
        else
          candidate.Below (r.probeRoot.resolve [⟨target⟩]) ∧
            candidate.components =
              (r.probeRoot.resolve [⟨target⟩]).components ++ Path.onward ⟨rest⟩)
      rule.targets (r.candidates rule rest) := by
  have habsolute := Rule.isAbsolute_rest (matching?_eq_some_iff.1 hmatch).reference_eq
  rw [candidates, List.forall₂_map_right_iff, List.forall₂_same]
  intro target _
  split
  case isTrue hslash =>
    rw [decide_eq_true hslash] at habsolute
    exact Path.resolve_of_absolute habsolute
  case isFalse hslash =>
    rw [decide_eq_false hslash] at habsolute
    have hsteps := Path.components_resolve_descent r.probeRoot ⟨target⟩ habsolute hclimb
    refine ⟨?_, hsteps⟩
    rw [Path.Below, hsteps]
    exact List.prefix_append _ _

end Resolver

/-- A resolver with the given rules whose targets lie among the sources. -/
def amongSources (rules : List Rule) : Resolver where
  rules := rules
  resolveFrom := .source
  aliasRoot := ⟨"/p/src"⟩
  srcRoot := ⟨"/p/src"⟩
  outRoot := ⟨"/p/dist"⟩

theorem candidates_below_star :
    let r := amongSources [⟨"@lib/", ["lib/", "../vendor/lib/"]⟩]
    r.matching? "@lib/foo" = some (⟨"@lib/", ["lib/", "../vendor/lib/"]⟩, "foo") ∧
      .parent ∉ Path.components ⟨"foo"⟩ ∧
      List.Forall₂
        (fun target candidate => candidate.Below (r.probeRoot.resolve [⟨target⟩]))
        ["lib/", "../vendor/lib/"] (r.candidates ⟨"@lib/", ["lib/", "../vendor/lib/"]⟩ "foo") := by
  refine ⟨by decide, by decide, ?_⟩
  have hbelow := @Resolver.candidates_below (amongSources [⟨"@lib/", ["lib/", "../vendor/lib/"]⟩])
    "@lib/foo" ⟨"@lib/", ["lib/", "../vendor/lib/"]⟩ "foo" (by decide) (by decide)
  refine hbelow.imp fun target candidate h => ?_
  rw [if_neg (by decide)] at h
  exact h.1

/-- A pattern without a star is a stem without a slash at its end, and `@lib/foo` then leads to
`/foo`. -/
theorem not_candidates_below :
    ¬ ∀ (paths : List (String × Json)) (r : Resolver) (reference : String) (rule : Rule)
        (rest : String), Rule.ofPaths paths = .ok r.rules →
        r.matching? reference = some (rule, rest) → .parent ∉ Path.components ⟨rest⟩ →
        List.Forall₂
          (fun target candidate => candidate.Below (r.probeRoot.resolve [⟨target⟩]))
          rule.targets (r.candidates rule rest) := by
  intro h
  have hbelow := h [("@lib", .strings ["lib"])] (amongSources [⟨"@lib", ["lib"]⟩]) "@lib/foo"
    ⟨"@lib", ["lib"]⟩ "/foo" (by rfl) (by decide) (by decide)
  obtain ⟨hfirst, -⟩ := List.forall₂_cons.1 hbelow
  exact absurd hfirst (by decide)

end Unalias
