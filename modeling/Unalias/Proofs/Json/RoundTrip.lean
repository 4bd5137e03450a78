import Unalias.Json.Parser
import Unalias.Proofs.Json.Printed

/-!
Printed values are read back. Each reader undoes what its printer wrote and leaves what follows, as
long as that cannot be taken for more of a number.
-/

namespace Unalias.Json

/-! ### Strings -/

theorem fourHex?_control {c : Char} (h : c.toNat < 32) (rest : List Char) :
    fourHex? ('0' :: '0' :: hexDigit (c.toNat / 16) :: hexDigit (c.toNat % 16) :: rest) =
      some (c.toNat, rest) := by
  have hzero : hexValue? '0' = some 0 := by decide
  have hhigh := hexValue?_hexDigit (n := c.toNat / 16) (by omega)
  have hlow := hexValue?_hexDigit (n := c.toNat % 16) (by omega)
  simp only [fourHex?, hzero, hhigh, hlow, Option.some.injEq, Prod.mk.injEq, and_true]
  omega

theorem unicodeEscape_control {c : Char} (h : c.toNat < 32) (rest : List Char) :
    unicodeEscape ('0' :: '0' :: hexDigit (c.toNat / 16) :: hexDigit (c.toNat % 16) :: rest) =
      .ok (c, rest) := by
  simp only [unicodeEscape, unit, fourHex?_control h, if_neg (not_isTrailing_of_lt h),
    if_neg (not_isLeading_of_lt h), Char.ofNat_toNat]

theorem stringTail_of_escape {text rest cs after : List Char} {c : Char}
    (h : escape text = .ok (c, rest)) (hrest : stringTail rest = .ok (cs, after)) :
    stringTail ('\\' :: text) = .ok (c :: cs, after) := by
  rw [stringTail, if_neg (by decide), if_pos rfl]
  split
  · simp_all
  · simp_all

/-- What stands for a character in a string is read as the character. -/
theorem stringTail_escapeChar (c : Char) {rest cs after : List Char}
    (h : stringTail rest = .ok (cs, after)) :
    stringTail (escapeChar c ++ rest) = .ok (c :: cs, after) := by
  obtain ⟨d, hd, htext, hletter⟩ | ⟨hcontrol, htext⟩ | ⟨⟨hquote, hescape, hprinting⟩, htext⟩ :=
    escapeChar_cases c
  · have hcode : ∀ d ∈ shortLetters, d ≠ 'u' := by simp [shortLetters]
    have hread : escape (d :: rest) = .ok (c, rest) := by
      rw [escape, if_neg (hcode d hd), hletter]
    rw [htext]
    exact stringTail_of_escape hread h
  · have hread : escape ('u' :: '0' :: '0' :: hexDigit (c.toNat / 16) ::
        hexDigit (c.toNat % 16) :: rest) = .ok (c, rest) := by
      rw [escape, if_pos rfl]
      exact unicodeEscape_control hcontrol rest
    rw [htext]
    exact stringTail_of_escape hread h
  · rw [htext, List.singleton_append, stringTail, if_neg hquote, if_neg hescape,
      if_neg (by omega), h]

theorem stringTail_quoted (cs after : List Char) :
    stringTail (cs.flatMap escapeChar ++ '"' :: after) = .ok (cs, after) := by
  induction cs with
  | nil => rw [List.flatMap_nil, List.nil_append, stringTail, if_pos rfl]
  | cons c cs ih =>
    rw [List.flatMap_cons, List.append_assoc]
    exact stringTail_escapeChar c ih

theorem run_keptString (s : String) (after : List Char) :
    keptString.run (s.toList.flatMap escapeChar ++ '"' :: after) = .ok (s, after) := by
  simp only [keptString, stringTail_quoted, String.ofList_toList]

/-! ### Counts -/

/-- What follows a value: nothing, a comma or a line break. -/
def Ends (rest : List Char) : Prop :=
  ∀ c ∈ rest.head?, c = ',' ∨ c = '\n'

theorem spanDigits_append {ds rest : List Char} (hds : ∀ c ∈ ds, c.isDigit = true)
    (hrest : ∀ c ∈ rest.head?, c.isDigit = false) :
    spanDigits (ds ++ rest) = (ds.map fun c => c.toNat - 48, rest) := by
  induction ds with
  | nil =>
    cases rest with
    | nil => rfl
    | cons c rest =>
      have hc : c.isDigit = false := hrest c rfl
      rw [List.nil_append, spanDigits, hc]
      rfl
  | cons c ds ih =>
    obtain ⟨hc, hds⟩ := List.forall_mem_cons.1 hds
    rw [List.cons_append, spanDigits, if_pos hc, ih hds]
    rfl

theorem le_foldl_digits (ds : List Nat) (n : Nat) :
    n ≤ ds.foldl (fun n d => 10 * n + d) n := by
  induction ds generalizing n with
  | nil => exact Nat.le_refl n
  | cons d ds ih =>
    have hrest := ih (10 * n + d)
    rw [List.foldl_cons]
    omega

/-- All digits are taken if the number they spell fits a word. -/
theorem takeDigits_eq (ds : List Nat) (n : Nat)
    (h : ds.foldl (fun n d => 10 * n + d) n < wordCount) :
    takeDigits n ds = (ds.foldl (fun n d => 10 * n + d) n, 0) := by
  induction ds generalizing n with
  | nil => rfl
  | cons d ds ih =>
    have hfirst : n * 10 + d < wordCount := by
      have hrest := le_foldl_digits ds (10 * n + d)
      rw [List.foldl_cons] at h
      omega
    rw [takeDigits, if_pos hfirst, Nat.mul_comm, List.foldl_cons]
    exact ih _ h

theorem takeDigits_toDigits {n : Nat} (h : n < wordCount) :
    takeDigits 0 ((Nat.toDigits 10 n).map fun c => c.toNat - 48) = (n, 0) := by
  have hvalue : ((Nat.toDigits 10 n).map fun c => c.toNat - 48).foldl (fun n d => 10 * n + d) 0 =
      n := by
    rw [List.foldl_map]
    exact Nat.ofDigitChars_ten_toDigits
  rw [takeDigits_eq _ 0 (by rwa [hvalue]), hvalue]

theorem wholePart_toDigits (atEnd : Fault) (n : Nat) {rest : List Char} (hrest : Ends rest) :
    wholePart atEnd (Nat.toDigits 10 n ++ rest) =
      .ok ((Nat.toDigits 10 n).map fun c => c.toNat - 48, rest) := by
  have hend : ∀ c ∈ rest.head?, c.isDigit = false := by
    intro c hc
    obtain rfl | rfl := hrest c hc <;> rfl
  have hdigits : ∀ c ∈ Nat.toDigits 10 n, c.isDigit = true :=
    fun c hc => Nat.isDigit_of_mem_toDigits (by decide) (by decide) hc
  have hzero := @head?_toDigits n
  cases hds : Nat.toDigits 10 n with
  | nil => exact absurd hds Nat.toDigits_ne_nil
  | cons c ds =>
    rw [hds] at hdigits hzero
    obtain ⟨hc, hrestDigits⟩ := List.forall_mem_cons.1 hdigits
    rw [List.cons_append, wholePart]
    split
    · rename_i hc0
      obtain rfl := hzero (by rw [hc0]; rfl)
      obtain ⟨rfl, rfl⟩ := List.cons.inj hds
      cases rest with
      | nil => rfl
      | cons c rest =>
        have hafter : afterZero (c :: rest) = .ok (c :: rest) := by
          rw [afterZero, hend c rfl]
          rfl
        rw [List.nil_append, hafter]
        rfl
    · rw [spanDigits_append hrestDigits hend, List.map_cons]

theorem run_numeral_toDigits (atEnd : Fault) (n : Nat) {rest : List Char} (hrest : Ends rest) :
    (numeral atEnd).run (Nat.toDigits 10 n ++ rest) =
      .ok (⟨(Nat.toDigits 10 n).map fun c => c.toNat - 48, [], none⟩, rest) := by
  have hfraction : fractionPart atEnd rest = .ok ([], rest) := by
    cases rest with
    | nil => rfl
    | cons c rest => obtain rfl | rfl := hrest c rfl <;> rfl
  have hexponent : exponentPart atEnd rest = .ok (none, rest) := by
    cases rest with
    | nil => rfl
    | cons c rest => obtain rfl | rfl := hrest c rfl <;> rfl
  simp only [numeral, wholePart_toDigits atEnd n hrest, hfraction, hexponent]

theorem unsigned_toDigits {n : Nat} (h : n < wordCount) {rest : List Char} (hrest : Ends rest) :
    unsigned false (Nat.toDigits 10 n ++ rest) = .ok (.integer n, rest) := by
  have hnumber : Numeral.number? false ⟨(Nat.toDigits 10 n).map fun c => c.toNat - 48, [], none⟩ =
      some (.integer n) := by
    simp [Numeral.number?, takeDigits_toDigits h]
  simp only [unsigned, run_numeral_toDigits .endOfText n hrest, hnumber]

/-! ### Blanks -/

def Blank (text : List Char) : Prop :=
  ∀ c ∈ text, isBlank c = true

theorem blank_lineBreak (depth : Nat) : Blank (lineBreak depth) := by
  intro c hc
  obtain rfl | hc := List.mem_cons.1 hc
  · rfl
  · rw [List.eq_of_mem_replicate hc]
    rfl

theorem skipBlank_append {blanks : List Char} (h : Blank blanks) (text : List Char) :
    skipBlank (blanks ++ text) = skipBlank text := by
  induction blanks with
  | nil => rfl
  | cons c blanks ih =>
    obtain ⟨hc, hblanks⟩ := List.forall_mem_cons.1 h
    rw [List.cons_append, skipBlank, if_pos hc]
    exact ih hblanks

theorem skipBlank_cons {c : Char} (h : isBlank c = false) (text : List Char) :
    skipBlank (c :: text) = c :: text := by
  rw [skipBlank, h]
  rfl

theorem run_value_append {blanks : List Char} (h : Blank blanks) (depth : Nat)
    (text : List Char) : (value depth).run (blanks ++ text) = (value depth).run text := by
  cases depth <;> simp only [value, valueWith, skipBlank_append h]

theorem run_value_scalar (depth : Nat) {c : Char} (text : List Char) (hblank : isBlank c = false)
    (hsquare : c ≠ '[') (hcurly : c ≠ '{') :
    (value depth).run (c :: text) = scalar (c :: text) := by
  cases depth <;>
    simp only [value, valueWith, skipBlank_cons hblank, if_neg hsquare, if_neg hcurly]

/-! ### Lists of items -/

section Items

variable {σ : Type} {blanks text rest : List Char}

/-- The text starts with neither a blank nor the end of a list. -/
def StartsItem (text : List Char) : Prop :=
  ∃ c rest, text = c :: rest ∧ isBlank c = false ∧ c ≠ ']'

theorem nextElement_close (h : Blank blanks) (first : Bool) (rest : List Char) :
    nextElement first (blanks ++ ']' :: rest) = .ok (.close rest) := by
  rw [nextElement, skipBlank_append h]
  rfl

theorem nextElement_first (h : Blank blanks) (htext : StartsItem text) :
    nextElement true (blanks ++ text) = .ok (.item text) := by
  obtain ⟨c, text, rfl, hblank, hc⟩ := htext
  simp only [nextElement, skipBlank_append h, skipBlank_cons hblank, if_neg hc, if_true]

theorem nextElement_comma (h : Blank blanks) (htext : StartsItem text) :
    nextElement false (',' :: (blanks ++ text)) = .ok (.item text) := by
  obtain ⟨c, text, rfl, hblank, hc⟩ := htext
  have hcomma : skipBlank (',' :: (blanks ++ c :: text)) = ',' :: (blanks ++ c :: text) := rfl
  rw [nextElement, hcomma]
  simp [skipBlank_append h, skipBlank_cons hblank, hc]

theorem nextKey_close (h : Blank blanks) (first : Bool) (rest : List Char) :
    nextKey first (blanks ++ '}' :: rest) = .ok (.close rest) := by
  rw [nextKey, skipBlank_append h]
  rfl

theorem nextKey_first (h : Blank blanks) (text : List Char) :
    nextKey true (blanks ++ '"' :: text) = .ok (.item text) := by
  rw [nextKey, skipBlank_append h]
  rfl

theorem nextKey_comma (h : Blank blanks) (text : List Char) :
    nextKey false (',' :: (blanks ++ '"' :: text)) = .ok (.item text) := by
  have hcomma : skipBlank (',' :: (blanks ++ '"' :: text)) = ',' :: (blanks ++ '"' :: text) := rfl
  have hquote : skipBlank ('"' :: text) = '"' :: text := rfl
  rw [nextKey, hcomma]
  simp [skipBlank_append h, hquote]

theorem elements_of_close {element : σ → Reader σ} {first : Bool} {s : σ}
    (h : nextElement first text = .ok (.close rest)) :
    elements element first s text = .ok (s, rest) := by
  rw [elements]
  split <;> simp_all

theorem elements_of_item {element : σ → Reader σ} {first : Bool} {s s' : σ} {t : List Char}
    (h : nextElement first text = .ok (.item t)) (hrun : (element s).run t = .ok (s', rest)) :
    elements element first s text = elements element false s' rest := by
  rw [elements]
  split
  · simp_all
  · simp_all
  · rename_i t' ht'
    obtain rfl : t' = t := by simp_all
    split
    · simp_all
    · rename_i hrun'
      rw [hrun] at hrun'
      cases hrun'
      rfl

theorem members_of_close {member : σ → String → Reader σ} {first : Bool} {s : σ}
    (h : nextKey first text = .ok (.close rest)) :
    members member first s text = .ok (s, rest) := by
  rw [members]
  split <;> simp_all

theorem members_of_item {member : σ → String → Reader σ} {first : Bool} {s s' : σ}
    {t : List Char} (h : nextKey first text = .ok (.item t))
    (hrun : (keptString.bind (member s)).run t = .ok (s', rest)) :
    members member first s text = members member false s' rest := by
  rw [members]
  split
  · simp_all
  · simp_all
  · rename_i t' ht'
    obtain rfl : t' = t := by simp_all
    split
    · simp_all
    · rename_i hrun'
      rw [hrun] at hrun'
      cases hrun'
      rfl

end Items

/-! ### Printed values -/

theorem ne_of_isDigit {c : Char} (h : c.isDigit = true) (d : Char) (hd : d.isDigit = false) :
    c ≠ d := by
  rintro rfl
  rw [h] at hd
  cases hd

theorem isBlank_of_isDigit {c : Char} (h : c.isDigit = true) : isBlank c = false := by
  have hne := ne_of_isDigit h
  simp [isBlank, hne ' ' rfl, hne '\t' rfl, hne '\n' rfl, hne '\r' rfl]

theorem exists_toDigits (n : Nat) :
    ∃ c ds, Nat.toDigits 10 n = c :: ds ∧ c.isDigit = true := by
  obtain ⟨c, ds, h⟩ := List.exists_cons_of_ne_nil (Nat.toDigits_ne_nil (n := n) (b := 10))
  have hc : c ∈ Nat.toDigits 10 n := h ▸ List.mem_cons_self
  exact ⟨c, ds, h, Nat.isDigit_of_mem_toDigits (by decide) (by decide) hc⟩

theorem exists_spread (c d : Char) (depth : Nat) (items : List String) :
    ∃ text, (spread (String.singleton c) (String.singleton d) depth items).toList = c :: text := by
  cases items with
  | nil => exact ⟨[d], by simp [spread]⟩
  | cons item items =>
    rw [toList_spread_cons, String.toList_singleton, List.singleton_append]
    exact ⟨_, rfl⟩

section Printed

variable {n depth : Nat} {v : Json} {rest : List Char}

theorem startsItem_prettyAt (h : Nests n v) (depth : Nat) (after : List Char) :
    StartsItem ((prettyAt depth v).toList ++ after) := by
  have hfirst : ∃ c text, (prettyAt depth v).toList = c :: text ∧ isBlank c = false ∧ c ≠ ']' := by
    cases h with
    | null => exact ⟨'n', ['u', 'l', 'l'], by rw [prettyAt]; rfl, rfl, by decide⟩
    | bool b =>
      cases b with
      | false => exact ⟨'f', ['a', 'l', 's', 'e'], by rw [prettyAt]; rfl, rfl, by decide⟩
      | true => exact ⟨'t', ['r', 'u', 'e'], by rw [prettyAt]; rfl, rfl, by decide⟩
    | count =>
      rename_i k _
      obtain ⟨c, ds, htext, hc⟩ := exists_toDigits k
      exact ⟨c, ds, by rw [ofNat, prettyAt, toList_text_ofNat, htext], isBlank_of_isDigit hc,
        ne_of_isDigit hc ']' rfl⟩
    | string s => exact ⟨'"', _, by rw [prettyAt, toList_quote], rfl, by decide⟩
    | array =>
      obtain ⟨text, htext⟩ := exists_spread '[' ']' depth (prettyElements (depth + 1) _)
      exact ⟨'[', text, by rw [prettyAt]; exact htext, rfl, by decide⟩
    | object =>
      obtain ⟨text, htext⟩ := exists_spread '{' '}' depth (prettyMembers (depth + 1) _)
      exact ⟨'{', text, by rw [prettyAt]; exact htext, rfl, by decide⟩
  obtain ⟨c, text, htext, hblank, hc⟩ := hfirst
  exact ⟨c, text ++ after, by rw [htext, List.cons_append], hblank, hc⟩

/-- What stands behind an item of a list: more items, each behind a comma, or the last line. -/
theorem ends_items {α : Type} (f : α → List Char) (l : List α) (depth : Nat) (rest : List Char) :
    Ends (l.flatMap (fun a => ',' :: f a) ++ (lineBreak depth ++ rest)) := by
  intro c hc
  cases l with
  | nil => exact .inr (Option.some.inj hc).symm
  | cons a l => exact .inl (Option.some.inj hc).symm

/-- The reader of values of at most `n` brackets gives the printed value back. -/
def IsRead (n depth : Nat) (v : Json) : Prop :=
  ∀ rest, Ends rest → (value n).run ((prettyAt depth v).toList ++ rest) = .ok (v, rest)

theorem run_element {acc : List Json} {after : List Char} (hread : IsRead n depth v)
    (hafter : Ends after) :
    ((value n).map (· :: acc)).run ((prettyAt depth v).toList ++ after) =
      .ok (v :: acc, after) := by
  simp only [Reader.map, hread after hafter]

/-- All elements but the first, read behind those in `acc`. -/
theorem elements_printed {l acc : List Json} (hnests : ∀ v ∈ l, Nests n v)
    (hread : ∀ v ∈ l, IsRead n (depth + 1) v) :
    elements (fun l => (value n).map (· :: l)) false acc
        (l.flatMap (fun v => ',' :: (lineBreak (depth + 1) ++ (prettyAt (depth + 1) v).toList)) ++
          (lineBreak depth ++ ']' :: rest)) =
      .ok (l.reverse ++ acc, rest) := by
  induction l generalizing acc with
  | nil => exact elements_of_close (nextElement_close (blank_lineBreak depth) false rest)
  | cons v l ih =>
    obtain ⟨hv, hl⟩ := List.forall_mem_cons.1 hnests
    obtain ⟨hvread, hlread⟩ := List.forall_mem_cons.1 hread
    have hturn (after : List Char) := nextElement_comma (blank_lineBreak (depth + 1))
      (startsItem_prettyAt hv (depth + 1) after)
    rw [List.flatMap_cons]
    simp only [List.cons_append, List.append_assoc]
    rw [elements_of_item (hturn _) (run_element hvread (ends_items _ l depth _)), ih hl hlread]
    simp

theorem run_member {v : Json} {key : String} {acc : List (String × Json)} {after : List Char}
    (hread : IsRead n depth v) (hafter : Ends after) :
    (keptString.bind fun key => (afterColon (value n)).map (Keyed.set key · acc)).run
        (key.toList.flatMap escapeChar ++
          '"' :: ':' :: ' ' :: ((prettyAt depth v).toList ++ after)) =
      .ok (Keyed.set key v acc, after) := by
  have hcolon (text : List Char) : skipColon (':' :: ' ' :: text) = .ok (' ' :: text) := rfl
  have hblank : Blank [' '] := List.forall_mem_singleton.2 rfl
  have hrun : (value n).run (' ' :: ((prettyAt depth v).toList ++ after)) = .ok (v, after) :=
    (run_value_append hblank n _).trans (hread after hafter)
  simp only [Reader.bind, run_keptString, Reader.map, afterColon, hcolon, hrun]

/-- All members but the first, read behind those in `acc`: a key that is new comes last. -/
theorem members_printed {l acc : List (String × Json)}
    (hkeys : ((acc ++ l).map Prod.fst).Nodup) (hread : ∀ m ∈ l, IsRead n (depth + 1) m.2) :
    members (fun l key => (afterColon (value n)).map (Keyed.set key · l)) false acc
        (l.flatMap (fun m => ',' :: (lineBreak (depth + 1) ++
            (quote m.1 ++ ": " ++ prettyAt (depth + 1) m.2).toList)) ++
          (lineBreak depth ++ '}' :: rest)) =
      .ok (acc ++ l, rest) := by
  induction l generalizing acc with
  | nil =>
    rw [List.append_nil]
    exact members_of_close (nextKey_close (blank_lineBreak depth) false rest)
  | cons m l ih =>
    obtain ⟨hmread, hlread⟩ := List.forall_mem_cons.1 hread
    have hnew : m.1 ∉ acc.map Prod.fst := by
      rw [List.map_append, List.map_cons] at hkeys
      exact fun hmem => (List.nodup_append.1 hkeys).2.2 _ hmem _ List.mem_cons_self rfl
    have hkeys' : (((acc ++ [m]) ++ l).map Prod.fst).Nodup := by
      rwa [List.append_assoc]
    have hturn (text : List Char) := nextKey_comma (blank_lineBreak (depth + 1)) text
    rw [List.flatMap_cons, toList_member]
    simp only [List.cons_append, List.append_assoc]
    rw [members_of_item (hturn _) (run_member hmread (ends_items _ l depth _)),
      Keyed.set_of_not_mem hnew, ih hkeys' hlread]
    simp

theorem isRead_array {l : List Json} (hnests : ∀ v ∈ l, Nests n v)
    (hread : ∀ v ∈ l, IsRead n (depth + 1) v) : IsRead (n + 1) depth (.array l) := by
  intro rest _
  have hrun (text : List Char)
      (h : elements (fun l => (value n).map (· :: l)) true [] text = .ok (l.reverse, rest)) :
      (value (n + 1)).run ('[' :: text) = .ok (.array l, rest) := by
    have hopen : skipBlank ('[' :: text) = '[' :: text := rfl
    simp only [value, valueWith, hopen, if_true, h, Except.map, List.reverse_reverse]
  rw [prettyAt, prettyElements_eq]
  cases l with
  | nil =>
    have htext : (spread "[" "]" depth []).toList = ['[', ']'] := by simp [spread]
    rw [List.map_nil, htext]
    exact hrun _ (elements_of_close (nextElement_close (List.forall_mem_nil _) true rest))
  | cons v l =>
    obtain ⟨hv, hl⟩ := List.forall_mem_cons.1 hnests
    obtain ⟨hvread, hlread⟩ := List.forall_mem_cons.1 hread
    have hturn (after : List Char) := nextElement_first (blank_lineBreak (depth + 1))
      (startsItem_prettyAt hv (depth + 1) after)
    have hopening : "[".toList = ['['] := rfl
    have hclosing : "]".toList = [']'] := rfl
    rw [List.map_cons, toList_spread_cons, List.flatMap_map, hopening, hclosing]
    simp only [List.cons_append, List.nil_append, List.append_assoc]
    refine hrun _ ((elements_of_item (hturn _)
      (run_element hvread (ends_items _ l depth _))).trans ?_)
    exact (elements_printed hl hlread).trans (by simp)

theorem isRead_object {l : List (String × Json)} (hkeys : (l.map Prod.fst).Nodup)
    (hread : ∀ m ∈ l, IsRead n (depth + 1) m.2) : IsRead (n + 1) depth (.object l) := by
  intro rest _
  have hrun (text : List Char)
      (h : members (fun l key => (afterColon (value n)).map (Keyed.set key · l)) true [] text =
        .ok (l, rest)) :
      (value (n + 1)).run ('{' :: text) = .ok (.object l, rest) := by
    have hopen : skipBlank ('{' :: text) = '{' :: text := rfl
    have hcurly : '{' ≠ '[' := by decide
    simp only [value, valueWith, hopen, if_neg hcurly, if_true, h, Except.map]
  rw [prettyAt, prettyMembers_eq]
  cases l with
  | nil =>
    have htext : (spread "\x7b" "\x7d" depth []).toList = ['{', '}'] := by simp [spread]
    rw [List.map_nil, htext]
    exact hrun _ (members_of_close (nextKey_close (List.forall_mem_nil _) true rest))
  | cons m l =>
    obtain ⟨hmread, hlread⟩ := List.forall_mem_cons.1 hread
    have hturn (text : List Char) := nextKey_first (blank_lineBreak (depth + 1)) text
    have hopening : "\x7b".toList = ['{'] := rfl
    have hclosing : "\x7d".toList = ['}'] := rfl
    rw [List.map_cons, toList_spread_cons, List.flatMap_map, toList_member, hopening, hclosing]
    simp only [List.cons_append, List.nil_append, List.append_assoc]
    refine hrun _ ((members_of_item (hturn _)
      (run_member hmread (ends_items _ l depth _))).trans ?_)
    exact members_printed hkeys hlread

theorem isRead_count {k : Nat} (h : k < wordCount) : IsRead n depth (ofNat k) := by
  intro rest hrest
  have hread := unsigned_toDigits h hrest
  obtain ⟨c, ds, htext, hc⟩ := exists_toDigits k
  have hne := ne_of_isDigit hc
  rw [htext, List.cons_append] at hread
  have hscalar : scalar (c :: (ds ++ rest)) = .ok (ofNat k, rest) := by
    simp only [scalar, hne '"' rfl, hne 'n' rfl, hne 't' rfl, hne 'f' rfl, hne '-' rfl, hc,
      if_false, if_true, hread]
    rfl
  rw [ofNat, prettyAt, toList_text_ofNat, htext, List.cons_append,
    run_value_scalar _ _ (isBlank_of_isDigit hc) (hne '[' rfl) (hne '{' rfl), hscalar, ofNat]

theorem isRead_string (s : String) : IsRead n depth (.string s) := by
  intro rest _
  rw [prettyAt, toList_quote, List.cons_append, List.append_assoc,
    run_value_scalar _ _ rfl (by decide) (by decide), scalar, if_pos rfl]
  simp only [Reader.map, List.cons_append, List.nil_append, run_keptString]

theorem isRead_of_nests (h : Nests n v) (depth : Nat) : IsRead n depth v := by
  induction h generalizing depth with
  | null =>
    intro rest _
    rw [prettyAt]
    exact run_value_scalar _ _ rfl (by decide) (by decide)
  | bool b =>
    intro rest _
    cases b with
    | false => rw [prettyAt]; exact run_value_scalar _ _ rfl (by decide) (by decide)
    | true => rw [prettyAt]; exact run_value_scalar _ _ rfl (by decide) (by decide)
  | count h => exact isRead_count h
  | string s => exact isRead_string s
  | array h ih => exact isRead_array h fun v hv => ih v hv (depth + 1)
  | object hkeys _ ih => exact isRead_object hkeys fun m hm => ih m hm (depth + 1)

/-- A printed value is read back. -/
theorem parse_pretty (h : Nests maxDepth v) : parse v.pretty = .ok v := by
  have hrun := isRead_of_nests h 0 [] (by simp [Ends])
  rw [List.append_nil] at hrun
  simp only [parse, whole, pretty, hrun]
  rfl

end Printed

end Unalias.Json
