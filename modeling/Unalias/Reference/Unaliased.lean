import Unalias.Reference.Pieces
import Unalias.Resolver

/-!
The text of a file with its aliased references replaced: first those of call form, then, in the
text that this gives, those of statement form.
-/

namespace Unalias

/-- What became of the references of a file, in the order in which they were met. -/
structure Outcome where
  replacements : List (String × String) := []
  unresolved : List String := []
  changed : Bool := false
  deriving DecidableEq, Repr

/-- No reference of the file is aliased. -/
def Outcome.isUntouched (o : Outcome) : Bool :=
  o.replacements.isEmpty && o.unresolved.isEmpty

structure Unaliased where
  text : String
  outcome : Outcome
  deriving DecidableEq, Repr

namespace Resolver

/-- The new literal for a literal in `file`, if there is one; what came of it is noted. -/
def answer (r : Resolver) (file : Path) (literal : String) :
    StateT Outcome Script (Option String) := do
  match ← r.resolve literal file with
  | .notAliased => return none
  | .resolved reference =>
    modify fun o => { o with replacements := o.replacements ++ [(literal, reference)] }
    return some reference
  | .unresolved =>
    modify fun o => { o with unresolved := o.unresolved ++ [literal] }
    return none

/-- Replaces the aliased references of both forms in the text of `file`. -/
def unalias (r : Resolver) (file : Path) (text : String) : Script Unaliased := do
  let passes : StateT Outcome Script String := do
    let text ← Form.call.replaceLiterals (r.answer file) text
    Form.statement.replaceLiterals (r.answer file) text
  let (new, outcome) ← passes.run {}
  return ⟨new, { outcome with changed := new ≠ text }⟩

end Resolver

end Unalias
