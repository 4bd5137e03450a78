import Unalias.Proofs.Config.Grammar

/-!
Lenient documents are made strict: their comments are taken out of the gaps and their trailing
commas out of the tokens, and nothing else changes.
-/

namespace Unalias.Jsonc

/-! ### What a scanner copies -/

/-- What numbers and words such as null are made of besides digits. -/
def wordChars : List Char :=
  ['+', '-', '.', 'E', 'a', 'e', 'f', 'l', 'n', 'r', 's', 't', 'u']

def isWord (c : Char) : Bool :=
  c.isDigit || wordChars.contains c

theorem Digits.isWord (d : Digits) : ∀ c ∈ d.chars, isWord c = true := by
  intro c hc
  rw [Jsonc.isWord, d.digits c hc, Bool.true_or]

theorem Exponent.isWord (e : Exponent) : ∀ c ∈ e.text, isWord c = true := by
  have hsign : ∀ c ∈ e.sign.elim [] Sign.text, Jsonc.isWord c = true := by
    cases e.sign with
    | none => exact List.forall_mem_nil _
    | some sign => cases sign <;> exact List.forall_mem_singleton.2 (by decide)
  refine List.forall_mem_cons.2 ⟨by cases e.capital <;> decide, ?_⟩
  exact List.forall_mem_append.2 ⟨hsign, e.digits.isWord⟩

theorem Numeral.isWord (n : Numeral) : ∀ c ∈ n.text, isWord c = true := by
  refine List.forall_mem_append.2 ⟨List.forall_mem_append.2 ⟨List.forall_mem_append.2
    ⟨?_, n.whole.isWord⟩, ?_⟩, ?_⟩
  · cases n.negative with
    | false => exact List.forall_mem_nil _
    | true => exact List.forall_mem_singleton.2 (by decide)
  · cases n.fraction with
    | none => exact List.forall_mem_nil _
    | some d => exact List.forall_mem_cons.2 ⟨by decide, d.isWord⟩
  · cases n.exponent with
    | none => exact List.forall_mem_nil _
    | some e => exact e.isWord

theorem Numeral.text_ne_nil (n : Numeral) : n.text ≠ [] := by
  simp [Numeral.text, n.whole.nonempty]

theorem HexDigit.ne (d : HexDigit) {c : Char} (h : (Json.hexValue? c).isSome = false) :
    d.char ≠ c :=
  ne_of_apply_ne (fun c => (Json.hexValue? c).isSome) (by rw [d.isHex, h]; decide)

/-- A scanner that copies strings and, outside of strings, every character but a quote and
`mark`. -/
structure Copies (mark : Char) (scan : Place → List Char → List Char) : Prop where
  quote : ∀ cs, scan .plain ('"' :: cs) = '"' :: scan .string cs
  plain : ∀ c cs, c ≠ '"' → c ≠ mark → scan .plain (c :: cs) = c :: scan .plain cs
  string : ∀ c cs, scan .string (c :: cs) = c :: scan (.afterQuoted c) cs
  escaped : ∀ c cs, scan .escaped (c :: cs) = c :: scan .string cs

theorem copies_stripComments : Copies '/' stripComments where
  quote _ := rfl
  plain c cs hquote hmark := by
    rw [stripComments, if_neg hquote, if_neg (fun h => hmark h.1), if_neg (fun h => hmark h.1)]
  string _ _ := rfl
  escaped _ _ := rfl

theorem copies_stripCommas : Copies ',' stripCommas where
  quote _ := rfl
  plain c cs hquote hmark := by
    rw [stripCommas, if_neg hquote, if_neg (fun h => hmark h.1)]
    all_goals exact nofun
  string _ _ := rfl
  escaped _ _ := rfl

namespace Copies

variable {mark : Char} {scan : Place → List Char → List Char} (h : Copies mark scan)
include h

theorem word (hmark : isWord mark = false) {text : List Char}
    (htext : ∀ c ∈ text, isWord c = true) (rest : List Char) :
    scan .plain (text ++ rest) = text ++ scan .plain rest := by
  induction text with
  | nil => rfl
  | cons c cs ih =>
    obtain ⟨hc, hcs⟩ := List.forall_mem_cons.1 htext
    have hquote : c ≠ '"' := ne_of_apply_ne isWord (by rw [hc]; decide)
    have hne : c ≠ mark := ne_of_apply_ne isWord (by rw [hc, hmark]; decide)
    rw [List.cons_append, h.plain c _ hquote hne, ih hcs]
    rfl

theorem letter (l : Letter) (rest : List Char) :
    scan .string (l.text ++ rest) = l.text ++ scan .string rest := by
  have hplain : ∀ c cs, c ≠ '"' → c ≠ '\\' → scan .string (c :: cs) = c :: scan .string cs := by
    intro c cs hquote hescape
    rw [h.string, Place.afterQuoted, if_neg hescape, if_neg hquote]
  have hescape : ∀ c cs, scan .string ('\\' :: c :: cs) = '\\' :: c :: scan .string cs := by
    intro c cs
    rw [h.string, Place.afterQuoted, if_pos rfl, h.escaped]
  have hhex : ∀ (d : HexDigit) cs, scan .string (d.char :: cs) = d.char :: scan .string cs :=
    fun d cs => hplain _ cs (d.ne (by decide)) (d.ne (by decide))
  cases l with
  | plain c hc => exact hplain c rest hc.1 hc.2.1
  | short c hc => exact hescape c rest
  | code a b c d =>
    simp only [Letter.text, List.cons_append, List.nil_append, hescape, hhex]

theorem letters (s : List Letter) (rest : List Char) :
    scan .string (s.flatMap Letter.text ++ rest) = s.flatMap Letter.text ++ scan .string rest := by
  induction s with
  | nil => rfl
  | cons l s ih => rw [List.flatMap_cons, List.append_assoc, h.letter, ih, List.append_assoc]

theorem scalar (hmark : isWord mark = false) (s : Scalar) (rest : List Char) :
    scan .plain (s.text ++ rest) = s.text ++ scan .plain rest := by
  cases s with
  | null => exact h.word hmark (List.all_eq_true.1 (by decide)) rest
  | bool b => cases b <;> exact h.word hmark (List.all_eq_true.1 (by decide)) rest
  | number n => exact h.word hmark n.isWord rest
  | string s =>
    have hclose : ∀ cs, scan .string ('"' :: cs) = '"' :: scan .plain cs := by
      intro cs
      rw [h.string, Place.afterQuoted, if_neg (by decide), if_pos rfl]
    rw [Scalar.text, List.cons_append, List.append_assoc, h.quote, h.letters]
    simp only [List.cons_append, List.nil_append, hclose, List.append_assoc]

end Copies

theorem stripComments_token (t : Token) (rest : List Char) :
    stripComments .plain (t.text ++ rest) = t.text ++ stripComments .plain rest := by
  cases t with
  | scalar s => exact copies_stripComments.scalar (by decide) s rest
  | opening b => cases b <;> exact copies_stripComments.plain _ _ (by decide) (by decide)
  | closing b => cases b <;> exact copies_stripComments.plain _ _ (by decide) (by decide)
  | colon => exact copies_stripComments.plain _ _ (by decide) (by decide)
  | comma => exact copies_stripComments.plain _ _ (by decide) (by decide)

theorem stripCommas_token (t : Token) (rest : List Char) :
    stripCommas .plain (t.text ++ rest) =
      if t.isComma && closesNext rest then stripCommas .plain rest
      else t.text ++ stripCommas .plain rest := by
  cases t with
  | scalar s => exact copies_stripCommas.scalar (by decide) s rest
  | opening b => cases b <;> exact copies_stripCommas.plain _ _ (by decide) (by decide)
  | closing b => cases b <;> exact copies_stripCommas.plain _ _ (by decide) (by decide)
  | colon => exact copies_stripCommas.plain _ _ (by decide) (by decide)
  | comma =>
    rw [Token.text, List.singleton_append, stripCommas, if_neg (by decide)]
    · simp only [Token.isComma, true_and, Bool.true_and, List.singleton_append]
    all_goals exact nofun

/-! ### Comments -/

theorem stripComments_line {body : List Char} (hbody : '\n' ∉ body) (rest : List Char) :
    stripComments .lineComment (body ++ rest) = stripComments .lineComment rest := by
  induction body with
  | nil => rfl
  | cons c cs ih =>
    obtain ⟨hc, hcs⟩ := not_or.1 (mt List.mem_cons.2 hbody)
    rw [List.cons_append, stripComments, if_neg (Ne.symm hc), ih hcs]

/-- Within a block comment only line breaks stay. With a star just before it, the text must not go
on with a slash. -/
theorem stripComments_inside {star : Bool} {body : List Char}
    (hbody : ¬['*', '/'] <:+: body) (hstar : star = true → body.head? ≠ some '/')
    (rest : List Char) :
    ∃ star', stripComments (.blockComment star) (body ++ rest) =
      List.replicate (body.count '\n') '\n' ++ stripComments (.blockComment star') rest := by
  induction body generalizing star with
  | nil => exact ⟨star, rfl⟩
  | cons c cs ih =>
    have hcs : ¬['*', '/'] <:+: cs := fun h => hbody (h.trans (List.suffix_cons c cs).isInfix)
    have hopen : ¬(star = true ∧ c = '/') := fun ⟨h, hc⟩ => hstar h (by rw [hc]; rfl)
    rw [List.cons_append, stripComments, if_neg hopen]
    split
    next hc =>
      obtain ⟨star', ih⟩ := @ih false hcs nofun
      exact ⟨star', by rw [ih, hc, List.count_cons_self]; rfl⟩
    next hc =>
      rw [List.count_cons_of_ne hc]
      apply ih hcs
      -- the star that was just read and the slash would have closed the comment
      intro hstar' hslash
      obtain ⟨cs', rfl⟩ := List.head?_eq_some_iff.1 hslash
      rw [decide_eq_true_iff.1 hstar'] at hbody
      exact hbody ⟨[], cs', rfl⟩

theorem stripComments_block {star : Bool} {body : List Char}
    (hbody : ¬['*', '/'] <:+: body) (hstar : star = true → body.head? ≠ some '/')
    (rest : List Char) :
    stripComments (.blockComment star) (body ++ '*' :: '/' :: rest) =
      List.replicate (body.count '\n') '\n' ++ stripComments .plain rest := by
  obtain ⟨star', h⟩ := stripComments_inside hbody hstar ('*' :: '/' :: rest)
  rw [h]
  cases star' <;> rfl

namespace Piece

/-- What stays of a part of a gap: blanks, and the line breaks of comments. -/
def blanks : Piece → Gap
  | blank c h => [blank c h]
  | line _ _ => [blank '\n' rfl]
  | block body _ => List.replicate (body.count '\n') (blank '\n' rfl)

theorem isBlank_blanks (p : Piece) : Gap.IsBlank p.blanks := by
  intro q hq
  cases p with
  | blank c h =>
    rw [List.mem_singleton.1 hq]
    trivial
  | line body h =>
    rw [List.mem_singleton.1 hq]
    trivial
  | block body h =>
    rw [List.eq_of_mem_replicate hq]
    trivial

theorem stripComments_text (p : Piece) (rest : List Char) :
    stripComments .plain (p.text ++ rest) = p.blanks.text ++ stripComments .plain rest := by
  cases p with
  | blank c h =>
    exact copies_stripComments.plain c rest (ne_of_apply_ne Json.isBlank (by rw [h]; decide))
      (ne_of_apply_ne Json.isBlank (by rw [h]; decide))
  | line body h =>
    have hline := stripComments_line h ('\n' :: rest)
    rw [← List.singleton_append, ← List.append_assoc] at hline
    exact hline
  | block body h =>
    have htext : (block body h).blanks.text = List.replicate (body.count '\n') '\n' := by
      rw [blanks, Gap.text, List.flatMap, List.map_replicate]
      exact List.flatten_replicate_singleton
    have happend : body ++ ['*', '/'] ++ rest = body ++ '*' :: '/' :: rest :=
      List.append_assoc _ _ _
    have hstart : stripComments .plain ((block body h).text ++ rest) =
        stripComments (.blockComment false) (body ++ ['*', '/'] ++ rest) := rfl
    rw [hstart, happend, @stripComments_block false body h nofun rest, htext]

end Piece

namespace Gap

def blanks (g : Gap) : Gap :=
  g.flatMap Piece.blanks

theorem text_append (g g' : Gap) : Gap.text (g ++ g') = g.text ++ g'.text :=
  List.flatMap_append

theorem isBlank_blanks (g : Gap) : g.blanks.IsBlank := by
  intro q hq
  obtain ⟨p, _, hp⟩ := List.mem_flatMap.1 hq
  exact p.isBlank_blanks q hp

theorem blanks_eq_self {g : Gap} (hg : g.IsBlank) : g.blanks = g := by
  induction g with
  | nil => rfl
  | cons p g ih =>
    obtain ⟨hp, hg⟩ := List.forall_mem_cons.1 hg
    have hpiece : p.blanks = [p] := by
      cases p with
      | blank c h => rfl
      | line body h => cases hp
      | block body h => cases hp
    rw [blanks, List.flatMap_cons, hpiece]
    exact congrArg (p :: ·) (ih hg)

theorem stripComments_text (g : Gap) (rest : List Char) :
    stripComments .plain (g.text ++ rest) = g.blanks.text ++ stripComments .plain rest := by
  induction g with
  | nil => rfl
  | cons p g ih =>
    have hblanks : blanks (p :: g) = p.blanks ++ blanks g := rfl
    rw [hblanks, text_append, text, List.flatMap_cons, List.append_assoc, p.stripComments_text]
    rw [List.append_assoc]
    exact congrArg _ ih

end Gap

namespace Items

def blanks (items : Items) : Items :=
  items.map fun item => (item.1.blanks, item.2)

theorem tokens_blanks (items : Items) : items.blanks.tokens = items.tokens := by
  rw [blanks, tokens, List.map_map]
  rfl

theorem isBlank_blanks (items : Items) : items.blanks.IsBlank := by
  intro item hitem
  obtain ⟨item, _, rfl⟩ := List.mem_map.1 hitem
  exact item.1.isBlank_blanks

theorem blanks_eq_self {items : Items} (h : items.IsBlank) : items.blanks = items := by
  refine (List.map_congr_left fun item hitem => ?_).trans (List.map_id items)
  rw [Gap.blanks_eq_self (h item hitem)]
  rfl

theorem text_cons (g : Gap) (t : Token) (items : Items) (rest : List Char) :
    text ((g, t) :: items) ++ rest = g.text ++ (t.text ++ (items.text ++ rest)) := by
  simp only [text, List.flatMap_cons, List.append_assoc]

theorem stripComments_text (items : Items) (rest : List Char) :
    stripComments .plain (items.text ++ rest) =
      items.blanks.text ++ stripComments .plain rest := by
  induction items with
  | nil => rfl
  | cons item items ih =>
    obtain ⟨g, t⟩ := item
    have hblanks : blanks ((g, t) :: items) = (g.blanks, t) :: blanks items := rfl
    rw [hblanks, text_cons, text_cons, g.stripComments_text, stripComments_token, ih]

end Items

theorem Layout.stripComments_text (l : Layout) :
    stripComments .plain l.text = l.items.blanks.text ++ l.last.blanks.text := by
  have htail : stripComments .plain (l.tail.elim [] fun body => '/' :: '/' :: body) = [] := by
    cases h : l.tail with
    | none => rfl
    | some body =>
      have hline := stripComments_line (l.tail_line body h) []
      rw [List.append_nil] at hline
      exact hline
  rw [text, Items.stripComments_text, Gap.stripComments_text, htail, List.append_nil]

/-! ### Commas -/

theorem isBlank_of_json {c : Char} (h : Json.isBlank c = true) : Text.isBlank c = true := by
  simp only [Json.isBlank, Bool.or_eq_true, decide_eq_true_eq] at h
  obtain ((rfl | rfl) | rfl) | rfl := h <;> decide

theorem isBlank_of_isDigit {c : Char} (h : c.isDigit = true) : Text.isBlank c = false := by
  simp only [Char.isDigit, Bool.and_eq_true, decide_eq_true_eq, ge_iff_le,
    UInt32.le_iff_toNat_le] at h
  have hlow : 0x30 ≤ c.toNat := h.1
  have hhigh : c.toNat ≤ 0x39 := h.2
  rw [Text.isBlank, List.any_eq_false]
  intro range hrange
  have hapart : range.2 < 0x30 ∨ 0x39 < range.1 := by
    revert range
    decide
  simp only [Bool.and_eq_true, decide_eq_true_eq, not_and, Nat.not_le]
  omega

theorem isBlank_of_isWord {c : Char} (h : isWord c = true) : Text.isBlank c = false := by
  obtain h | h := (Bool.or_eq_true _ _).mp h
  · exact isBlank_of_isDigit h
  · have hall : ∀ c ∈ wordChars, (!Text.isBlank c) = true := List.all_eq_true.1 (by decide)
    simpa using hall c (List.contains_iff_mem.1 h)

theorem closesNext_of_blank {c : Char} (h : Text.isBlank c = true) (cs : List Char) :
    closesNext (c :: cs) = closesNext cs := by
  rw [closesNext, List.find?_cons_of_neg (by simp [h])]
  rfl

theorem closesNext_of_not_blank {c : Char} (h : Text.isBlank c = false) (cs : List Char) :
    closesNext (c :: cs) = (c = '}' || c = ']') := by
  rw [closesNext, List.find?_cons_of_pos (by simp [h])]

theorem closesNext_word {text : List Char} (hne : text ≠ []) (htext : ∀ c ∈ text, isWord c = true)
    (rest : List Char) : closesNext (text ++ rest) = false := by
  obtain ⟨c, cs, rfl⟩ := List.exists_cons_of_ne_nil hne
  have hc := (List.forall_mem_cons.1 htext).1
  have hcurly : c ≠ '}' := ne_of_apply_ne isWord (by rw [hc]; decide)
  have hsquare : c ≠ ']' := ne_of_apply_ne isWord (by rw [hc]; decide)
  rw [List.cons_append, closesNext_of_not_blank (isBlank_of_isWord hc)]
  simp [hcurly, hsquare]

theorem closesNext_token (t : Token) (rest : List Char) :
    closesNext (t.text ++ rest) = t.isClosing := by
  cases t with
  | scalar s =>
    cases s with
    | null => exact closesNext_word (List.cons_ne_nil _ _) (List.all_eq_true.1 (by decide)) rest
    | bool b =>
      cases b <;> exact closesNext_word (List.cons_ne_nil _ _) (List.all_eq_true.1 (by decide)) rest
    | number n => exact closesNext_word n.text_ne_nil n.isWord rest
    | string s => exact closesNext_of_not_blank (by decide) _
  | opening b => cases b <;> exact closesNext_of_not_blank (by decide) _
  | closing b => cases b <;> exact closesNext_of_not_blank (by decide) _
  | colon => exact closesNext_of_not_blank (by decide) _
  | comma => exact closesNext_of_not_blank (by decide) _

namespace Gap

theorem closesNext_text {g : Gap} (hg : g.IsBlank) (rest : List Char) :
    closesNext (g.text ++ rest) = closesNext rest := by
  induction g with
  | nil => rfl
  | cons p g ih =>
    obtain ⟨hp, hrest⟩ := List.forall_mem_cons.1 hg
    cases p with
    | blank c h => exact (closesNext_of_blank (isBlank_of_json h) _).trans (ih hrest)
    | line body h => cases hp
    | block body h => cases hp

theorem stripCommas_text {g : Gap} (hg : g.IsBlank) (rest : List Char) :
    stripCommas .plain (g.text ++ rest) = g.text ++ stripCommas .plain rest := by
  induction g with
  | nil => rfl
  | cons p g ih =>
    obtain ⟨hp, hrest⟩ := List.forall_mem_cons.1 hg
    cases p with
    | blank c h =>
      have hcopy := copies_stripCommas.plain c (Gap.text g ++ rest)
        (ne_of_apply_ne Json.isBlank (by rw [h]; decide))
        (ne_of_apply_ne Json.isBlank (by rw [h]; decide))
      exact hcopy.trans (congrArg (c :: ·) (ih hrest))
    | line body h => cases hp
    | block body h => cases hp

end Gap

namespace Items

/-- Puts a gap before the first token. -/
def after (g : Gap) : Items → Items
  | [] => []
  | (g', t) :: items => (g ++ g', t) :: items

def dropTrailing : Items → Items
  | [] => []
  | (g, t) :: items =>
    if t.isComma && nextCloses (tokens items) then after g (dropTrailing items)
    else (g, t) :: dropTrailing items

theorem text_after {items : Items} (hne : items ≠ []) (g : Gap) :
    text (after g items) = g.text ++ items.text := by
  obtain ⟨⟨g', t⟩, items, rfl⟩ := List.exists_cons_of_ne_nil hne
  simp only [after, text, List.flatMap_cons, Gap.text_append, List.append_assoc]

theorem tokens_after (g : Gap) (items : Items) : tokens (after g items) = items.tokens := by
  cases items with
  | nil => rfl
  | cons item items => rfl

theorem tokens_dropTrailing (items : Items) :
    items.dropTrailing.tokens = withoutTrailing items.tokens := by
  induction items with
  | nil => rfl
  | cons item items ih =>
    obtain ⟨g, t⟩ := item
    have htokens : tokens ((g, t) :: items) = t :: tokens items := rfl
    rw [htokens, withoutTrailing_cons, dropTrailing]
    split
    · rw [tokens_after, ih]
    · exact congrArg (t :: ·) ih

theorem isBlank_after {g : Gap} (hg : g.IsBlank) {items : Items} (h : items.IsBlank) :
    IsBlank (after g items) := by
  obtain _ | ⟨⟨g', t⟩, items⟩ := items
  · exact h
  · obtain ⟨hg', hitems⟩ := List.forall_mem_cons.1 h
    exact List.forall_mem_cons.2 ⟨List.forall_mem_append.2 ⟨hg, hg'⟩, hitems⟩

/-- A closing bracket stays. -/
theorem dropTrailing_ne_nil {items : Items} (h : nextCloses items.tokens = true) :
    items.dropTrailing ≠ [] := by
  obtain _ | ⟨⟨g, t⟩, items⟩ := items
  · cases h
  · have ht : t.isComma = false := by
      cases t with
      | closing b => rfl
      | _ => cases h
    rw [dropTrailing, ht]
    exact List.cons_ne_nil _ _

theorem isBlank_dropTrailing {items : Items} (h : items.IsBlank) : items.dropTrailing.IsBlank := by
  induction items with
  | nil => exact h
  | cons item items ih =>
    obtain ⟨g, t⟩ := item
    obtain ⟨hg, hitems⟩ := List.forall_mem_cons.1 h
    rw [dropTrailing]
    split
    · exact isBlank_after hg (ih hitems)
    · exact List.forall_mem_cons.2 ⟨hg, ih hitems⟩

theorem closesNext_text {items : Items} (h : items.IsBlank) {last : Gap} (hlast : last.IsBlank) :
    closesNext (items.text ++ last.text) = nextCloses items.tokens := by
  obtain _ | ⟨⟨g, t⟩, items⟩ := items
  · have hclosed := Gap.closesNext_text hlast []
    rw [List.append_nil] at hclosed
    exact hclosed
  · rw [text_cons, Gap.closesNext_text (List.forall_mem_cons.1 h).1, closesNext_token]
    rfl

theorem stripCommas_text {items : Items} (h : items.IsBlank) {last : Gap} (hlast : last.IsBlank) :
    stripCommas .plain (items.text ++ last.text) = items.dropTrailing.text ++ last.text := by
  induction items with
  | nil =>
    have hkept := Gap.stripCommas_text hlast []
    rw [List.append_nil] at hkept
    exact hkept.trans (List.append_nil _)
  | cons item items ih =>
    obtain ⟨g, t⟩ := item
    obtain ⟨hg, hitems⟩ := List.forall_mem_cons.1 h
    have hcloses := closesNext_text hitems hlast
    rw [text_cons, Gap.stripCommas_text hg, stripCommas_token, hcloses, dropTrailing, ih hitems]
    split
    next htrailing =>
      have hnext := (Bool.and_eq_true_iff.1 htrailing).2
      rw [text_after (dropTrailing_ne_nil hnext), List.append_assoc]
    next => rw [text_cons]

theorem dropTrailing_eq_self {items : Items}
    (h : withoutTrailing items.tokens = items.tokens) : items.dropTrailing = items := by
  induction items with
  | nil => rfl
  | cons item items ih =>
    obtain ⟨g, t⟩ := item
    have htokens : tokens ((g, t) :: items) = t :: tokens items := rfl
    rw [htokens, withoutTrailing_cons] at h
    rw [dropTrailing]
    split
    next htrailing =>
      -- a comma that goes makes the tokens fewer
      rw [if_pos htrailing] at h
      have hle := length_withoutTrailing_le (tokens items)
      rw [h, List.length_cons] at hle
      exact absurd hle (Nat.not_succ_le_self _)
    next hkept =>
      rw [if_neg hkept] at h
      rw [ih (List.cons.inj h).2]

end Items

/-! ### Documents -/

namespace Layout

/-- The layout without comments and trailing commas. -/
def strict (l : Layout) : Layout where
  items := l.items.blanks.dropTrailing
  last := l.last.blanks
  tail := none
  tail_line := nofun

variable (l : Layout)

theorem text_strict : l.strict.text = stripCommas .plain (stripComments .plain l.text) := by
  rw [stripComments_text, Items.stripCommas_text l.items.isBlank_blanks l.last.isBlank_blanks]
  exact congrArg (_ ++ ·) (List.append_nil _)

theorem toStrict_text : toStrict (String.ofList l.text) = String.ofList l.strict.text := by
  rw [toStrict, String.toList_ofList, text_strict]

theorem isBlank_strict : l.strict.IsBlank where
  items := Items.isBlank_dropTrailing l.items.isBlank_blanks
  last := l.last.isBlank_blanks
  tail := rfl

theorem tokens_strict : l.strict.items.tokens = withoutTrailing l.items.tokens := by
  rw [strict, Items.tokens_dropTrailing, Items.tokens_blanks]

variable {l}

theorem IsBlank.strict_eq_self (h : l.IsBlank)
    (htokens : withoutTrailing l.items.tokens = l.items.tokens) : l.strict = l := by
  obtain ⟨items, last, tail, _⟩ := l
  obtain ⟨hitems, hlast, rfl⟩ := h
  simp only [strict, Items.blanks_eq_self hitems, Gap.blanks_eq_self hlast,
    Items.dropTrailing_eq_self htokens]

end Layout

/-- A lenient document is made a strict one of the same value, whose tokens are those of the
document less its trailing commas. A document that is strict already stays as it is. -/
theorem toStrict_isDocument {text : String} {tokens : List Token} {v : Tree}
    (h : IsDocument true text tokens v) :
    IsDocument false (toStrict text) (withoutTrailing tokens) v ∧
      ∀ tokens' v', IsDocument false text tokens' v' → toStrict text = text := by
  refine ⟨⟨h.spells.withoutTrailing, ?_⟩, fun tokens' v' h' => ?_⟩
  · obtain ⟨l, rfl, rfl, -⟩ := h.laid_out
    exact ⟨l.strict, l.toStrict_text.symm, l.tokens_strict, fun _ => l.isBlank_strict⟩
  · obtain ⟨l, rfl, rfl, hblank⟩ := h'.laid_out
    rw [l.toStrict_text, (hblank rfl).strict_eq_self h'.spells.withoutTrailing_eq]

/-- Of three commas the one in the string stays, and of the comments the line break. -/
example : toStrict "\x7b\"a\\\\\\\"//,]\": [1,/* \"**//*/*/]// \x7d\n, \x7d/**///*" =
    "\x7b\"a\\\\\\\"//,]\": [1]\n \x7d" := by
  decide +kernel

/-! ### A document whose strings and comments look alike -/

def lookAlikes : List Letter :=
  [.plain 'a' (by decide), .short '\\' (by decide), .short '"' (by decide),
    .plain '/' (by decide), .plain '/' (by decide), .plain ',' (by decide),
    .plain ']' (by decide)]

def numeralOne : Numeral where
  negative := false
  whole := ⟨['1'], List.cons_ne_nil _ _, List.all_eq_true.1 (by decide)⟩
  leading := nofun
  fraction := none
  exponent := none

def commented : Layout where
  items :=
    [([], .opening .curly), ([], .scalar (.string lookAlikes)), ([], .colon),
      ([.blank ' ' rfl], .opening .square), ([], .scalar (.number numeralOne)), ([], .comma),
      ([.block [' ', '"', '*'] (by decide), .block ['/'] (by decide)], .closing .square),
      ([.line [' ', '}'] (by decide)], .comma), ([.blank ' ' rfl], .closing .curly)]
  last := [.block [] (by decide)]
  tail := some ['*']
  tail_line := by decide

theorem isDocument_commented : IsDocument true (String.ofList commented.text)
    commented.items.tokens (.object [(lookAlikes, .array [.scalar (.number numeralOne)])]) where
  spells := .object (.member lookAlikes (.array (.element (.scalar _)) (.inr ⟨rfl, rfl⟩)))
    (.inr ⟨rfl, rfl⟩)
  laid_out := ⟨commented, rfl, rfl, nofun⟩

theorem toStrict_isDocument_commented :
    IsDocument true (String.ofList commented.text) commented.items.tokens
        (.object [(lookAlikes, .array [.scalar (.number numeralOne)])]) ∧
      IsDocument false (toStrict (String.ofList commented.text))
        (withoutTrailing commented.items.tokens)
        (.object [(lookAlikes, .array [.scalar (.number numeralOne)])]) ∧
      toStrict (toStrict (String.ofList commented.text)) =
        toStrict (String.ofList commented.text) := by
  have hstrict := (toStrict_isDocument isDocument_commented).1
  exact ⟨isDocument_commented, hstrict, (toStrict_isDocument hstrict.lenient).2 _ _ hstrict⟩

end Unalias.Jsonc
