import Unalias.Text.Start

/-!
Where a text names modules. A reference is a keyword, a separator and a literal between quotes; it
is found by plain search, so that one in a comment counts too. The two quotes need not agree.
-/

namespace Unalias

/-- The form of a reference: an import or a require called on a literal, or a statement. -/
inductive Form where
  | call
  | statement
  deriving DecidableEq, Repr

namespace Form

def keywords : Form → List (List Char)
  | .call => ["import".toList, "require".toList]
  | .statement => ["import".toList, "from".toList]

def separator : Form → Char
  | .call => '('
  | .statement => ' '

def closing : Form → List Char
  | .call => [')']
  | .statement => []

end Form

def isQuote (c : Char) : Bool :=
  c = '\'' || c = '"'

/-- A reference cut at its quotes, which belong to the parts around the literal. -/
structure Occurrence where
  opening : List Char
  literal : List Char
  closing : List Char
  deriving DecidableEq, Repr

def Occurrence.text (o : Occurrence) : List Char :=
  o.opening ++ o.literal ++ o.closing

namespace Form

/-- A reference after its keyword and separator: the opening quote, the literal, the rest. -/
def quoted? (form : Form) (before : List Char) : List Char → Option (Occurrence × List Char)
  | [] => none
  | q :: cs =>
    if isQuote q then
      match cs.dropWhile (!isQuote ·) with
      | [] => none
      | q' :: rest =>
        match form.closing.isPrefixOf? rest with
        | none => none
        | some rest =>
          some (⟨before ++ [q], cs.takeWhile (!isQuote ·), q' :: form.closing⟩, rest)
    else none

/-- The reference of a form with the given keyword at the start of a text, and what follows it. -/
def after? (form : Form) (keyword text : List Char) : Option (Occurrence × List Char) :=
  match (keyword ++ [form.separator]).isPrefixOf? text with
  | none => none
  | some rest => form.quoted? (keyword ++ [form.separator]) rest

def match? (form : Form) (text : List Char) : Option (Occurrence × List Char) :=
  form.keywords.findSome? fun keyword => form.after? keyword text

theorem quoted?_opening_ne_nil {form : Form} {before cs rest : List Char} {o : Occurrence}
    (h : form.quoted? before cs = some (o, rest)) : o.opening ≠ [] := by
  cases cs with
  | nil => cases h
  | cons q cs =>
    rw [quoted?] at h
    split at h
    · split at h
      · cases h
      · split at h
        · cases h
        · cases h
          exact List.append_ne_nil_of_right_ne_nil _ (List.cons_ne_nil _ _)
    · cases h

theorem quoted?_text {form : Form} {before cs rest : List Char} {o : Occurrence}
    (h : form.quoted? before cs = some (o, rest)) : before ++ cs = o.text ++ rest := by
  cases cs with
  | nil => cases h
  | cons q cs =>
    rw [quoted?] at h
    split at h
    · split at h
      · cases h
      · rename_i q' tail hd
        split at h
        · cases h
        · rename_i rest' hp
          cases h
          have hcs : cs = cs.takeWhile (!isQuote ·) ++ q' :: tail := by
            rw [← hd, List.takeWhile_append_dropWhile]
          have htail : tail = form.closing ++ rest := Text.append_of_isPrefixOf? hp
          simp only [Occurrence.text]
          conv => lhs; rw [hcs, htail]
          simp only [List.append_assoc, List.cons_append, List.nil_append]
    · cases h

theorem match?_text {form : Form} {text rest : List Char} {o : Occurrence}
    (h : form.match? text = some (o, rest)) : text = o.text ++ rest := by
  obtain ⟨keyword, -, h⟩ := List.exists_of_findSome?_eq_some h
  rw [after?] at h
  split at h
  · cases h
  · rename_i hp
    rw [← quoted?_text h]
    exact (Text.append_of_isPrefixOf? hp)

theorem match?_opening_ne_nil {form : Form} {text rest : List Char} {o : Occurrence}
    (h : form.match? text = some (o, rest)) : o.opening ≠ [] := by
  obtain ⟨keyword, -, h⟩ := List.exists_of_findSome?_eq_some h
  rw [after?] at h
  split at h
  · cases h
  · exact quoted?_opening_ne_nil h

theorem match?_length_lt {form : Form} {text rest : List Char} {o : Occurrence}
    (h : form.match? text = some (o, rest)) : rest.length < text.length := by
  have hpos := List.length_pos_iff.2 (match?_opening_ne_nil h)
  rw [match?_text h, Occurrence.text]
  simp only [List.length_append]
  omega

end Form

end Unalias
