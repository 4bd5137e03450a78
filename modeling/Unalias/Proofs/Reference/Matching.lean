import Mathlib.Data.List.Infix
import Unalias.Proofs.Reference.Verdict

/-!
Which rule a reference belongs to: the first in the table whose stem it starts with.
-/

namespace Unalias

namespace Rule

variable {rule : Rule} {reference rest : String}

theorem rest?_eq_some_iff : rule.rest? reference = some rest ↔ reference = rule.stem ++ rest := by
  rw [rest?, Option.map_eq_some_iff]
  constructor
  · rintro ⟨cs, hcs, rfl⟩
    apply String.toList_inj.1
    rw [String.toList_append, String.toList_ofList]
    exact (List.isPrefixOf?_eq_some_iff_append_eq.1 hcs).symm
  · rintro rfl
    refine ⟨rest.toList, ?_, String.ofList_toList⟩
    rw [String.toList_append]
    exact List.isPrefixOf?_eq_some_iff_append_eq.2 rfl

theorem rest?_eq_none_iff :
    rule.rest? reference = none ↔ ¬rule.stem.toList <+: reference.toList := by
  rw [rest?, Option.map_eq_none_iff, ← Option.not_isSome_iff_eq_none,
    List.isSome_isPrefixOf?_eq_isPrefixOf, List.isPrefixOf_iff_prefix]

end Rule

namespace Resolver

/-- The rule is the first whose stem the reference starts with, and what follows is `rest`. -/
structure Decides (r : Resolver) (rule : Rule) (reference rest : String) : Prop where
  reference_eq : reference = rule.stem ++ rest
  first : ∃ earlier later, r.rules = earlier ++ rule :: later ∧
    ∀ other ∈ earlier, ¬other.stem.toList <+: reference.toList

theorem matching?_eq_some_iff {r : Resolver} {rule : Rule} {reference rest : String} :
    r.matching? reference = some (rule, rest) ↔ r.Decides rule reference rest := by
  rw [matching?, List.findSome?_eq_some_iff]
  constructor
  · rintro ⟨earlier, found, later, hrules, hfound, hearlier⟩
    obtain ⟨rest', hrest, heq⟩ := Option.map_eq_some_iff.1 hfound
    cases heq
    refine ⟨Rule.rest?_eq_some_iff.1 hrest, earlier, later, hrules, fun other hother => ?_⟩
    exact Rule.rest?_eq_none_iff.1 (Option.map_eq_none_iff.1 (hearlier other hother))
  · rintro ⟨hreference, earlier, later, hrules, hearlier⟩
    refine ⟨earlier, rule, later, hrules, ?_, fun other hother => ?_⟩
    · rw [Rule.rest?_eq_some_iff.2 hreference]
      rfl
    · rw [Rule.rest?_eq_none_iff.2 (hearlier other hother)]
      rfl

theorem matching?_eq_none_iff {r : Resolver} {reference : String} :
    r.matching? reference = none ↔ ∀ rule ∈ r.rules, ¬rule.stem.toList <+: reference.toList := by
  simp only [matching?, List.findSome?_eq_none_iff, Option.map_eq_none_iff, Rule.rest?_eq_none_iff]

/-- What no rule has a say in stays as it is, and nothing else does. -/
theorem verdict_eq_notAliased_iff {r : Resolver} {d : Disk} {file : Path} {reference : String} :
    r.verdict d file reference = .notAliased ↔
      ∀ rule ∈ r.rules, ¬rule.stem.toList <+: reference.toList := by
  rw [← matching?_eq_none_iff, verdict]
  cases r.matching? reference with
  | none => simp
  | some found =>
    obtain ⟨rule, rest⟩ := found
    dsimp only
    cases (r.candidates rule rest).find? d.hasModule <;> simp

end Resolver

end Unalias
