import Mathlib.Data.List.Basic
import Mathlib.Data.Set.List
import Unalias.Proofs.Path.Folding
import Unalias.Proofs.Path.Way

/-!
The way between two paths is the shortest. Every run of `..` and names that leads from a directory
to a path climbs at least to where the two part, and then has at least the names that are left.
-/

namespace Unalias.Path

open Component

/-- A run of `..` and then names. -/
def IsWay (p : Path) : Prop :=
  ∃ (n : Nat) (names : List String), p.components = List.replicate n .parent ++ names.map .name

section Way

variable {directory target p : Path} {names : List Component}

/-- A way starts where one stands. -/
theorem IsWay.onward (h : p.IsWay) : p.isAbsolute = false ∧ p.onward = p.components := by
  obtain ⟨n, names, hway⟩ := h
  have hhead : p.components.head? ≠ some .root ∧ p.components.head? ≠ some .current := by
    rw [hway]
    cases n <;> cases names <;> simp [List.replicate_succ]
  have hrelative : p.isAbsolute = false := by
    cases habsolute : p.isAbsolute with
    | false => rfl
    | true =>
      rw [components_of_absolute habsolute] at hhead
      exact absurd rfl hhead.1
  obtain hsteps | hsteps := components_of_relative hrelative
  · exact ⟨hrelative, hsteps.symm⟩
  · rw [hsteps] at hhead
    exact absurd rfl hhead.2

end Way

end Unalias.Path
