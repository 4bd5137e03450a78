/-!
What follows a given start of a list.
-/

namespace Unalias.Text

variable {α : Type} [DecidableEq α]

theorem isPrefixOf?_cons (a b : α) (start l : List α) :
    (a :: start).isPrefixOf? (b :: l) = if a == b then start.isPrefixOf? l else none :=
  rfl

theorem isPrefixOf?_append (start rest : List α) :
    start.isPrefixOf? (start ++ rest) = some rest := by
  induction start with
  | nil => rfl
  | cons a start ih =>
    rw [List.cons_append, isPrefixOf?_cons, if_pos (beq_self_eq_true a), ih]

theorem append_of_isPrefixOf? {start l rest : List α} (h : start.isPrefixOf? l = some rest) :
    l = start ++ rest := by
  induction start generalizing l with
  | nil => exact Option.some.inj h
  | cons a start ih =>
    cases l with
    | nil => cases h
    | cons b l =>
      rw [isPrefixOf?_cons] at h
      split at h
      · rename_i hab
        rw [ih h, eq_of_beq hab]
        rfl
      · cases h

end Unalias.Text
