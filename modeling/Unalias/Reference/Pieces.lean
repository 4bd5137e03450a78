import Unalias.Reference.Form

/-!
A text cut at the references of one form, and the replacement of their literals. The leftmost
reference is taken and the search goes on behind it, so that references never overlap.
-/

namespace Unalias

/-- A character outside all references, or a reference. -/
inductive Piece where
  | plain (c : Char)
  | reference (o : Occurrence)
  deriving DecidableEq, Repr

def Piece.text : Piece → List Char
  | .plain c => [c]
  | .reference o => o.text

namespace Form

def pieces (form : Form) (text : List Char) : List Piece :=
  match text with
  | [] => []
  | c :: cs =>
    match _h : form.match? (c :: cs) with
    | some (o, rest) => .reference o :: form.pieces rest
    | none => .plain c :: form.pieces cs
termination_by text.length
decreasing_by
  · exact match?_length_lt ‹_›
  · exact Nat.lt_succ_self _

theorem pieces_text (form : Form) (text : List Char) :
    (form.pieces text).flatMap Piece.text = text := by
  fun_induction form.pieces text with
  | case1 => rfl
  | case2 c cs o rest h ih =>
    rw [List.flatMap_cons, ih, match?_text h]
    rfl
  | case3 c cs h ih =>
    rw [List.flatMap_cons, ih]
    rfl

end Form

variable {m : Type → Type} [Monad m]

/-- The piece with its literal replaced by the answer for it, if there is one. -/
def Piece.replace (answer : String → m (Option String)) : Piece → m (List Char)
  | .plain c => return [c]
  | .reference o => do
    match ← answer (String.ofList o.literal) with
    | none => return o.text
    | some new => return { o with literal := new.toList }.text

/-- The text with the literals of its references replaced, asked for from left to right. -/
def Form.replaceLiterals (form : Form) (answer : String → m (Option String)) (text : String) :
    m String := do
  let parts ← (form.pieces text.toList).mapM (Piece.replace answer)
  return String.ofList parts.flatten

end Unalias
