import Mathlib.Data.List.Forall2
import Unalias.Proofs.Config.Strict
import Unalias.Text.Split

/-!
What is stripped from a text, be it a document or not. A text falls into strings, comments and
characters of their own; strings stay, comments leave their line breaks, and of the characters only
trailing commas go. Every line keeps its number.
-/

namespace Unalias.Jsonc

/-! ### The parts of a text -/

/-- What may stand in a string before the quote that ends it: no quote but an escaped one. -/
inductive Quoted : List Char → Prop
  | nil : Quoted []
  | plain {c : Char} {cs : List Char} (hquote : c ≠ '"') (hescape : c ≠ '\\') (h : Quoted cs) :
    Quoted (c :: cs)
  | escape {c : Char} {cs : List Char} (h : Quoted cs) : Quoted ('\\' :: c :: cs)

/-- A part of a text with the characters it is made of. -/
inductive Part where
  | plain (c : Char)
  | string (cs : List Char)
  | comment (cs : List Char)

def OpensComment (text : List Char) : Prop :=
  ['/', '/'] <+: text ∨ ['/', '*'] <+: text

/-- The parts of a text. A line comment ends before its line break. A string or a comment that
nothing ends goes up to the end of the text. -/
inductive Divides : List Char → List Part → Prop
  | nil : Divides [] []
  | plain {c : Char} {cs : List Char} {parts : List Part} (hquote : c ≠ '"')
    (hcomment : ¬OpensComment (c :: cs)) (h : Divides cs parts) :
    Divides (c :: cs) (.plain c :: parts)
  | string {body cs : List Char} {parts : List Part} (hbody : Quoted body) (h : Divides cs parts) :
    Divides ('"' :: (body ++ '"' :: cs)) (.string ('"' :: (body ++ ['"'])) :: parts)
  | openString {body escape : List Char} (hbody : Quoted body)
    (hescape : escape = [] ∨ escape = ['\\']) :
    Divides ('"' :: (body ++ escape)) [.string ('"' :: (body ++ escape))]
  | line {body cs : List Char} {parts : List Part} (hbody : '\n' ∉ body)
    (h : Divides ('\n' :: cs) parts) :
    Divides ('/' :: '/' :: (body ++ '\n' :: cs)) (.comment ('/' :: '/' :: body) :: parts)
  | openLine {body : List Char} (hbody : '\n' ∉ body) :
    Divides ('/' :: '/' :: body) [.comment ('/' :: '/' :: body)]
  | block {body cs : List Char} {parts : List Part} (hbody : ¬['*', '/'] <:+: body)
    (h : Divides cs parts) :
    Divides ('/' :: '*' :: (body ++ '*' :: '/' :: cs))
      (.comment ('/' :: '*' :: (body ++ ['*', '/'])) :: parts)
  | openBlock {body : List Char} (hbody : ¬['*', '/'] <:+: body) :
    Divides ('/' :: '*' :: body) [.comment ('/' :: '*' :: body)]

theorem exists_quoted (cs : List Char) :
    ∃ body, Quoted body ∧
      ((∃ rest, cs = body ++ '"' :: rest) ∨
        ∃ escape, (escape = [] ∨ escape = ['\\']) ∧ cs = body ++ escape) := by
  induction hn : cs.length using Nat.strongRecOn generalizing cs with
  | ind n ih =>
    obtain _ | ⟨c, cs⟩ := cs
    · exact ⟨[], .nil, .inr ⟨[], .inl rfl, rfl⟩⟩
    by_cases hquote : c = '"'
    · subst hquote
      exact ⟨[], .nil, .inl ⟨cs, rfl⟩⟩
    by_cases hescape : c = '\\'
    · subst hescape
      obtain _ | ⟨c, cs⟩ := cs
      · exact ⟨[], .nil, .inr ⟨['\\'], .inr rfl, rfl⟩⟩
      obtain ⟨body, hbody, ⟨rest, rfl⟩ | ⟨escape, hescape, rfl⟩⟩ :=
        ih cs.length (by simp only [List.length_cons] at hn; omega) cs rfl
      · exact ⟨'\\' :: c :: body, .escape hbody, .inl ⟨rest, rfl⟩⟩
      · exact ⟨'\\' :: c :: body, .escape hbody, .inr ⟨escape, hescape, rfl⟩⟩
    · obtain ⟨body, hbody, ⟨rest, rfl⟩ | ⟨escape, hescape', rfl⟩⟩ :=
        ih cs.length (by simp only [List.length_cons] at hn; omega) cs rfl
      · exact ⟨c :: body, .plain hquote hescape hbody, .inl ⟨rest, rfl⟩⟩
      · exact ⟨c :: body, .plain hquote hescape hbody, .inr ⟨escape, hescape', rfl⟩⟩

theorem exists_block (cs : List Char) :
    ¬['*', '/'] <:+: cs ∨
      ∃ body rest, cs = body ++ '*' :: '/' :: rest ∧ ¬['*', '/'] <:+: body := by
  induction cs with
  | nil => exact .inl (by simp)
  | cons c cs ih =>
    by_cases hends : ['*', '/'] <+: c :: cs
    · obtain ⟨rest, hrest⟩ := hends
      exact .inr ⟨[], rest, hrest.symm, by simp⟩
    · obtain hnone | ⟨body, rest, rfl, hbody⟩ := ih
      · exact .inl (by rw [List.infix_cons_iff]; exact not_or.2 ⟨hends, hnone⟩)
      · refine .inr ⟨c :: body, rest, rfl, ?_⟩
        rw [List.infix_cons_iff, not_or]
        refine ⟨fun hstart => hends ?_, hbody⟩
        exact hstart.trans (List.prefix_append (c :: body) _)

/-- Every text has its parts. -/
theorem exists_divides (cs : List Char) : ∃ parts, Divides cs parts := by
  induction hn : cs.length using Nat.strongRecOn generalizing cs with
  | ind n ih =>
    obtain _ | ⟨c, cs⟩ := cs
    · exact ⟨[], .nil⟩
    have hrest : ∀ rest : List Char, rest.length ≤ cs.length → ∃ parts, Divides rest parts := by
      intro rest hle
      exact ih rest.length (by rw [List.length_cons] at hn; omega) rest rfl
    by_cases hquote : c = '"'
    · subst hquote
      obtain ⟨body, hbody, ⟨rest, rfl⟩ | ⟨escape, hescape, rfl⟩⟩ := exists_quoted cs
      · obtain ⟨parts, hparts⟩ := hrest rest (by simp; omega)
        exact ⟨_, .string hbody hparts⟩
      · exact ⟨_, .openString hbody hescape⟩
    by_cases hcomment : OpensComment (c :: cs)
    · obtain ⟨body, hbody⟩ | ⟨body, hbody⟩ := hcomment
      · cases hbody
        by_cases hline : '\n' ∈ body
        · obtain ⟨body, rest, rfl, hbody⟩ := List.eq_append_cons_of_mem hline
          obtain ⟨parts, hparts⟩ := hrest ('\n' :: rest) (by simp; omega)
          exact ⟨_, .line hbody hparts⟩
        · exact ⟨_, .openLine hline⟩
      · cases hbody
        obtain hnone | ⟨body, rest, rfl, hbody⟩ := exists_block body
        · exact ⟨_, .openBlock hnone⟩
        · obtain ⟨parts, hparts⟩ := hrest rest (by simp; omega)
          exact ⟨_, .block hbody hparts⟩
    · obtain ⟨parts, hparts⟩ := hrest cs (Nat.le_refl _)
      exact ⟨_, .plain hquote hcomment hparts⟩

/-! ### What stays of the parts -/

def Part.text : Part → List Char
  | plain c => [c]
  | string cs => cs
  | comment cs => cs

/-- Comments leave their line breaks. -/
def Part.uncommented : Part → List Char
  | plain c => [c]
  | string cs => cs
  | comment cs => List.replicate (cs.count '\n') '\n'

def uncommented (parts : List Part) : List Char :=
  parts.flatMap Part.uncommented

/-- The next character that is no blank closes an array or an object. -/
def ComesToClose (cs : List Char) : Prop :=
  ∃ blanks c rest, cs = blanks ++ c :: rest ∧ (∀ b ∈ blanks, Text.isBlank b = true) ∧
    (c = '}' ∨ c = ']')

theorem closesNext_iff {cs : List Char} : closesNext cs = true ↔ ComesToClose cs := by
  rw [closesNext, ComesToClose]
  constructor
  · intro h
    split at h
    · rename_i c hfind
      obtain ⟨-, blanks, rest, rfl, hblanks⟩ := List.find?_eq_some_iff_append.1 hfind
      exact ⟨blanks, c, rest, rfl, by simpa using hblanks, by simpa using h⟩
    · cases h
  · rintro ⟨blanks, c, rest, rfl, hblanks, hc⟩
    have hfind : (blanks ++ c :: rest).find? (fun c => !Text.isBlank c) = some c := by
      refine List.find?_eq_some_iff_append.2 ⟨?_, blanks, rest, rfl, by simpa using hblanks⟩
      obtain rfl | rfl := hc <;> decide
    rw [hfind]
    simpa using hc

instance : DecidablePred ComesToClose := fun _ => decidable_of_iff _ closesNext_iff

/-- The text without comments, less each comma after which a bracket closes. -/
def kept : List Part → List Char
  | [] => []
  | .plain c :: parts =>
    if c = ',' ∧ ComesToClose (uncommented parts) then kept parts else c :: kept parts
  | part :: parts => part.uncommented ++ kept parts

namespace Copies

variable {mark : Char} {scan : Place → List Char → List Char} (h : Copies mark scan)
include h

theorem quoted {body : List Char} (hbody : Quoted body) (rest : List Char) :
    scan .string (body ++ rest) = body ++ scan .string rest := by
  induction hbody with
  | nil => rfl
  | plain hquote hescape _ ih =>
    rw [List.cons_append, h.string, Place.afterQuoted, if_neg hescape, if_neg hquote, ih]
    rfl
  | escape _ ih =>
    rw [List.cons_append, List.cons_append, h.string, Place.afterQuoted, if_pos rfl, h.escaped, ih]
    rfl

theorem closed {body : List Char} (hbody : Quoted body) (rest : List Char) :
    scan .plain ('"' :: (body ++ '"' :: rest)) = '"' :: (body ++ '"' :: scan .plain rest) := by
  rw [h.quote, h.quoted hbody, h.string, Place.afterQuoted, if_neg (by decide), if_pos rfl]

theorem unclosed (hnil : ∀ place, scan place [] = []) {body escape : List Char}
    (hbody : Quoted body) (hescape : escape = [] ∨ escape = ['\\']) :
    scan .plain ('"' :: (body ++ escape)) = '"' :: (body ++ escape) := by
  rw [h.quote, h.quoted hbody]
  obtain rfl | rfl := hescape
  · rw [hnil]
  · rw [h.string, hnil]

end Copies

theorem stripComments_of_divides {cs : List Char} {parts : List Part} (h : Divides cs parts) :
    stripComments .plain cs = uncommented parts := by
  have hcons : ∀ (p : Part) (parts : List Part),
      uncommented (p :: parts) = p.uncommented ++ uncommented parts := fun _ _ => rfl
  have hcount : ∀ cs : List Char, ('/' :: '/' :: cs).count '\n' = cs.count '\n' ∧
      ('/' :: '*' :: cs).count '\n' = cs.count '\n' := by simp
  have hopen : ∀ body : List Char, false = true → body.head? ≠ some '/' :=
    fun _ h => absurd h Bool.false_ne_true
  induction h with
  | nil => rfl
  | plain hquote hcomment _ ih =>
    obtain ⟨hline, hblock⟩ := not_or.1 hcomment
    rw [stripComments, if_neg hquote, if_neg, if_neg, ih]
    · rfl
    · rintro ⟨rfl, hstar⟩
      obtain ⟨rest, rfl⟩ := List.head?_eq_some_iff.1 hstar
      exact hblock ⟨rest, rfl⟩
    · rintro ⟨rfl, hslash⟩
      obtain ⟨rest, rfl⟩ := List.head?_eq_some_iff.1 hslash
      exact hline ⟨rest, rfl⟩
  | string hbody _ ih =>
    rw [copies_stripComments.closed hbody, ih]
    simp [uncommented, Part.uncommented]
  | openString hbody hescape =>
    rw [copies_stripComments.unclosed (fun place => by rw [stripComments]) hbody hescape]
    simp [uncommented, Part.uncommented]
  | @line body cs parts hbody _ ih =>
    have hstart : stripComments .plain ('/' :: '/' :: (body ++ '\n' :: cs)) =
        stripComments .lineComment (('/' :: body) ++ '\n' :: cs) := rfl
    rw [hstart, stripComments_line (by simpa using hbody), hcons, ← ih, Part.uncommented,
      (hcount body).1, List.count_eq_zero.2 hbody]
    rfl
  | @openLine body hbody =>
    have hstart : stripComments .plain ('/' :: '/' :: body) =
        stripComments .lineComment (('/' :: body) ++ []) := by rw [List.append_nil]; rfl
    rw [hstart, stripComments_line (by simpa using hbody), hcons, Part.uncommented,
      (hcount body).1, List.count_eq_zero.2 hbody]
    rfl
  | @block body cs parts hbody _ ih =>
    have hstart : stripComments .plain ('/' :: '*' :: (body ++ '*' :: '/' :: cs)) =
        stripComments (.blockComment false) (body ++ '*' :: '/' :: cs) := rfl
    rw [hstart, @stripComments_block false body hbody (hopen body), hcons, ih, Part.uncommented,
      (hcount _).2, List.count_append]
    rfl
  | @openBlock body hbody =>
    have hstart : stripComments .plain ('/' :: '*' :: body) =
        stripComments (.blockComment false) (body ++ []) := by rw [List.append_nil]; rfl
    obtain ⟨star, hinside⟩ := @stripComments_inside false body hbody (hopen body) []
    rw [hstart, hinside, hcons, Part.uncommented, (hcount body).2]
    rfl

theorem stripCommas_comment (cs : List Char) {parts : List Part}
    (h : stripCommas .plain (uncommented parts) = kept parts) :
    stripCommas .plain (uncommented (.comment cs :: parts)) = kept (.comment cs :: parts) := by
  have hbreaks : ∀ n rest, stripCommas .plain (List.replicate n '\n' ++ rest) =
      List.replicate n '\n' ++ stripCommas .plain rest := by
    intro n rest
    induction n with
    | zero => rfl
    | succ n ih =>
      rw [List.replicate_succ, List.cons_append,
        copies_stripCommas.plain _ _ (by decide) (by decide), ih]
      rfl
  exact (hbreaks _ _).trans (congrArg (_ ++ ·) h)

theorem stripCommas_of_divides {cs : List Char} {parts : List Part} (h : Divides cs parts) :
    stripCommas .plain (uncommented parts) = kept parts := by
  induction h with
  | nil => rfl
  | @plain c cs parts hquote hcomment _ ih =>
    have hcons : uncommented (.plain c :: parts) = c :: uncommented parts := rfl
    rw [hcons, stripCommas, if_neg hquote, kept, ih]
    · simp only [closesNext_iff]
    · exact Place.noConfusion
    · exact Place.noConfusion
  | @string body cs parts hbody _ ih =>
    have hcons : uncommented (.string ('"' :: (body ++ ['"'])) :: parts) =
        '"' :: (body ++ '"' :: uncommented parts) := by simp [uncommented, Part.uncommented]
    rw [hcons, copies_stripCommas.closed hbody, ih]
    simp [kept, Part.uncommented]
  | @openString body escape hbody hescape =>
    have hcons : uncommented [.string ('"' :: (body ++ escape))] = '"' :: (body ++ escape) := by
      simp [uncommented, Part.uncommented]
    rw [hcons, copies_stripCommas.unclosed (fun place => by rw [stripCommas]) hbody hescape]
    simp [kept, Part.uncommented]
  | line _ _ ih => exact stripCommas_comment _ ih
  | openLine _ => exact stripCommas_comment _ rfl
  | block _ _ ih => exact stripCommas_comment _ ih
  | openBlock _ => exact stripCommas_comment _ rfl

/-! ### Lines -/

theorem exists_split_cons {c : Char} (hc : c ≠ '\n') (cs : List Char) :
    ∃ line lines, Text.split '\n' cs = line :: lines ∧
      Text.split '\n' (c :: cs) = (c :: line) :: lines := by
  have hne : Text.split '\n' cs ≠ [] := by
    cases cs with
    | nil => exact List.cons_ne_nil _ _
    | cons a cs =>
      rw [Text.split]
      split
      · exact List.cons_ne_nil _ _
      · split <;> exact List.cons_ne_nil _ _
  obtain ⟨line, lines, h⟩ := List.exists_cons_of_ne_nil hne
  refine ⟨line, lines, h, ?_⟩
  rw [Text.split, if_neg hc, h]

/-- What a text becomes if characters go, but no line break. -/
inductive Thinned : List Char → List Char → Prop
  | nil : Thinned [] []
  | keep (c : Char) {out cs : List Char} (h : Thinned out cs) : Thinned (c :: out) (c :: cs)
  | drop {c : Char} {out cs : List Char} (hc : c ≠ '\n') (h : Thinned out cs) :
    Thinned out (c :: cs)

namespace Thinned

variable {out cs : List Char}

theorem refl (cs : List Char) : Thinned cs cs := by
  induction cs with
  | nil => exact nil
  | cons c cs ih => exact keep c ih

theorem append {out' cs' : List Char} (h : Thinned out cs) (h' : Thinned out' cs') :
    Thinned (out ++ out') (cs ++ cs') := by
  induction h with
  | nil => exact h'
  | keep c _ ih => exact keep c ih
  | drop hc _ ih => exact drop hc ih

theorem breaks (cs : List Char) : Thinned (List.replicate (cs.count '\n') '\n') cs := by
  induction cs with
  | nil => exact nil
  | cons c cs ih =>
    by_cases hc : c = '\n'
    · rw [hc, List.count_cons_self]
      exact keep '\n' ih
    · rw [List.count_cons_of_ne hc]
      exact drop hc ih

theorem count_eq (h : Thinned out cs) : out.count '\n' = cs.count '\n' := by
  induction h with
  | nil => rfl
  | keep c _ ih => rw [List.count_cons, List.count_cons, ih]
  | drop hc _ ih => rw [List.count_cons_of_ne hc, ih]

theorem lines (h : Thinned out cs) :
    List.Forall₂ List.Sublist (Text.split '\n' out) (Text.split '\n' cs) := by
  induction h with
  | nil => exact .cons (.refl _) .nil
  | @keep c out cs _ ih =>
    by_cases hc : c = '\n'
    · rw [Text.split, Text.split, if_pos hc, if_pos hc]
      exact .cons (.refl _) ih
    · obtain ⟨line, lines, hcs, hconcs⟩ := exists_split_cons hc cs
      obtain ⟨line', lines', hout, hconsout⟩ := exists_split_cons hc out
      rw [hcs, hout] at ih
      obtain ⟨hline, hlines⟩ := List.forall₂_cons.1 ih
      rw [hconcs, hconsout]
      exact .cons (hline.cons_cons c) hlines
  | @drop c out cs hc _ ih =>
    obtain ⟨line, lines, hcs, hconcs⟩ := exists_split_cons hc cs
    rw [hcs] at ih
    obtain ⟨line', lines', hline, hlines, hout⟩ := List.forall₂_cons_right_iff.1 ih
    rw [hconcs, hout]
    exact .cons (hline.cons c) hlines

end Thinned

theorem Part.thinned_uncommented (p : Part) : Thinned p.uncommented p.text := by
  cases p with
  | plain c => exact .refl _
  | string cs => exact .refl _
  | comment cs => exact .breaks cs

theorem thinned_kept (parts : List Part) : Thinned (kept parts) (parts.flatMap Part.text) := by
  induction parts with
  | nil => exact .nil
  | cons p parts ih =>
    cases p with
    | plain c =>
      rw [kept]
      split
      next hcomma =>
        rw [hcomma.1]
        exact .drop (by decide) ih
      next => exact .keep c ih
    | string cs => exact (Part.thinned_uncommented (.string cs)).append ih
    | comment cs => exact (Part.thinned_uncommented (.comment cs)).append ih

theorem Divides.text_eq {cs : List Char} {parts : List Part} (h : Divides cs parts) :
    parts.flatMap Part.text = cs := by
  induction h <;> simp_all [Part.text]

/-- Of any text the strings stay as they are, and of the comments their line breaks. Nothing else
goes but commas before a closing bracket. So each line has its number, and at most loses
characters. -/
theorem toStrict_keeps (text : String) :
    (∃ parts, Divides text.toList parts) ∧
      (∀ parts, Divides text.toList parts → (toStrict text).toList = kept parts) ∧
      (toStrict text).toList.count '\n' = text.toList.count '\n' ∧
      List.Forall₂ List.Sublist (Text.split '\n' (toStrict text).toList)
        (Text.split '\n' text.toList) := by
  have hkept : ∀ parts, Divides text.toList parts → (toStrict text).toList = kept parts := by
    intro parts h
    rw [toStrict, String.toList_ofList, stripComments_of_divides h, stripCommas_of_divides h]
  obtain ⟨parts, hparts⟩ := exists_divides text.toList
  have hthin : Thinned (toStrict text).toList text.toList := by
    have hall := thinned_kept parts
    rw [hparts.text_eq] at hall
    rwa [hkept parts hparts]
  exact ⟨⟨parts, hparts⟩, hkept, hthin.count_eq, hthin.lines⟩

end Unalias.Jsonc
