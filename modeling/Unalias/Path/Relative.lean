import Unalias.Path.Normal

/-!
The way from one directory to a path, and its text as a reference in a module.
-/

namespace Unalias.Path

/-- What remains of two lists after their longest common start. -/
def diverge {α : Type} [DecidableEq α] : List α → List α → List α × List α
  | a :: as, b :: bs => if a = b then diverge as bs else (a :: as, b :: bs)
  | as, bs => (as, bs)

/-- The way from the directory `start` to `target`: up from where the two part, then down. -/
def relative (start target : Path) : Path :=
  let (climb, descent) := diverge start.components target.components
  let steps := climb.map (fun _ => Component.parent) ++ descent
  steps.foldl (fun p c => p.join ⟨c.text⟩) ⟨""⟩

/-- The reference by which a module in `directory` names `target`; it starts with a dot, so that
it is no package name. -/
def moduleReference (directory target : Path) : String :=
  let way := (relative directory target).toSlash
  if way.toList.head? = some '.' then way else "./" ++ way

end Unalias.Path
