import Unalias.Json.Printer
import Unalias.Proofs.Config.Grammar

/-!
Printed values as documents. The grammar says how a value may be spelled; here is what a spelled
value stands for, and that the text of a printed value is a strict document that stands for the
value.
-/

namespace Unalias

namespace Jsonc

/-! ### What a spelled value stands for -/

def Digits.value (d : Digits) : Nat :=
  Nat.ofDigitChars 10 d.chars 0

/-- The integer that a numeral stands for, if it has neither fraction nor exponent. -/
def Numeral.integer? (n : Numeral) : Option Int :=
  if n.fraction.isSome || n.exponent.isSome then none
  else some (if n.negative then -(n.whole.value : Int) else n.whole.value)

def HexDigit.value (d : HexDigit) : Nat :=
  (Json.hexValue? d.char).get d.isHex

/-- The code that four digits spell. -/
def codeOf (a b c d : HexDigit) : Nat :=
  ((a.value * 16 + b.value) * 16 + c.value) * 16 + d.value

/-- The characters that letters stand for, read behind the code of a leading surrogate if there is
one. Codes of surrogates stand for a character two by two, and for none otherwise. -/
def charactersAfter? : Option Nat → List Letter → Option (List Char)
  | none, [] => some []
  | none, .plain c _ :: s => (charactersAfter? none s).map (c :: ·)
  | none, .short c _ :: s =>
    (Json.letterEscape? c).bind fun d => (charactersAfter? none s).map (d :: ·)
  | none, .code a b c d :: s =>
    if Json.isTrailing (codeOf a b c d) then none
    else if Json.isLeading (codeOf a b c d) then charactersAfter? (some (codeOf a b c d)) s
    else (charactersAfter? none s).map (Char.ofNat (codeOf a b c d) :: ·)
  | some n, .code a b c d :: s =>
    if Json.isTrailing (codeOf a b c d) then
      (charactersAfter? none s).map (Json.surrogatePair n (codeOf a b c d) :: ·)
    else none
  | some _, _ => none

def characters? (s : List Letter) : Option (List Char) :=
  charactersAfter? none s

mutual

/-- The value that a tree stands for, with every member of an object in its place. Of numbers only
integers are covered. -/
def Tree.json? : Tree → Option Json
  | .scalar .null => some .null
  | .scalar (.bool b) => some (.bool b)
  | .scalar (.number n) => n.integer?.map fun i => .number (.integer i)
  | .scalar (.string s) => (characters? s).map fun cs => .string (String.ofList cs)
  | .array vs => (elements? vs).map .array
  | .object ms => (members? ms).map .object

def elements? : List Tree → Option (List Json)
  | [] => some []
  | v :: vs => v.json?.bind fun w => (elements? vs).map (w :: ·)

def members? : List (List Letter × Tree) → Option (List (String × Json))
  | [] => some []
  | (key, v) :: ms =>
    (characters? key).bind fun cs => v.json?.bind fun w =>
      (members? ms).map ((String.ofList cs, w) :: ·)

end

/-- The text is a strict document that stands for the value. -/
def Writes (text : String) (v : Json) : Prop :=
  ∃ tokens tree, IsDocument false text tokens tree ∧ tree.json? = some v

end Jsonc

namespace Json

/-- Values with at most `depth` brackets around each other, whose numbers count what fits a word
and whose objects have no key twice. -/
inductive Nests : (depth : Nat) → Json → Prop
  | null {depth : Nat} : Nests depth .null
  | bool {depth : Nat} (b : Bool) : Nests depth (.bool b)
  | count {depth : Nat} {n : Nat} (h : n < wordCount) : Nests depth (ofNat n)
  | string {depth : Nat} (s : String) : Nests depth (.string s)
  | array {depth : Nat} {l : List Json} (h : ∀ v ∈ l, Nests depth v) : Nests (depth + 1) (.array l)
  | object {depth : Nat} {l : List (String × Json)} (hkeys : (l.map Prod.fst).Nodup)
      (h : ∀ m ∈ l, Nests depth m.2) : Nests (depth + 1) (.object l)

/-! ### Texts of printed values -/

theorem prettyElements_eq (depth : Nat) (l : List Json) :
    prettyElements depth l = l.map (prettyAt depth) := by
  induction l with
  | nil => rfl
  | cons v l ih => rw [prettyElements, ih, List.map_cons]

theorem prettyMembers_eq (depth : Nat) (l : List (String × Json)) :
    prettyMembers depth l = l.map fun m => quote m.1 ++ ": " ++ prettyAt depth m.2 := by
  induction l with
  | nil => rfl
  | cons m l ih => rw [prettyMembers, ih, List.map_cons]

def lineBreak (depth : Nat) : List Char :=
  '\n' :: List.replicate (4 * depth) ' '

theorem toList_newline (depth : Nat) : (newline depth).toList = lineBreak depth :=
  String.toList_ofList

/-- Every item after the first stands behind a comma. -/
theorem toList_spread_cons (opening closing : String) (depth : Nat) (item : String)
    (items : List String) :
    (spread opening closing depth (item :: items)).toList =
      opening.toList ++ (lineBreak (depth + 1) ++ (item.toList ++
        (items.flatMap (fun i => ',' :: (lineBreak (depth + 1) ++ i.toList)) ++
          (lineBreak depth ++ closing.toList)))) := by
  have hitems : ∀ (first : List Char) (rest : List String),
      List.intercalate (',' :: lineBreak (depth + 1)) (first :: rest.map String.toList) =
        first ++ rest.flatMap fun i => ',' :: (lineBreak (depth + 1) ++ i.toList) := by
    intro first rest
    induction rest generalizing first with
    | nil => simp [List.intercalate]
    | cons i rest ih =>
      rw [List.map_cons, List.intercalate_cons_cons, ih, List.flatMap_cons]
      simp
  have hcomma : ",".toList = [','] := rfl
  rw [spread, if_neg (by simp)]
  simp only [String.toList_append, String.toList_intercalate, toList_newline, List.map_cons, hcomma,
    List.singleton_append, hitems, List.append_assoc]

theorem toList_quote (s : String) :
    (quote s).toList = '"' :: (s.toList.flatMap escapeChar ++ ['"']) := by
  rw [quote, String.toList_ofList]
  rfl

theorem toList_member (depth : Nat) (m : String × Json) :
    (quote m.1 ++ ": " ++ prettyAt depth m.2).toList =
      '"' :: (m.1.toList.flatMap escapeChar ++
        '"' :: ':' :: ' ' :: (prettyAt depth m.2).toList) := by
  have hcolon : ": ".toList = [':', ' '] := rfl
  simp only [String.toList_append, toList_quote, hcolon, List.cons_append, List.append_assoc,
    List.nil_append]

theorem toList_text_ofNat (n : Nat) :
    (Number.text (.integer n)).toList = Nat.toDigits 10 n := by
  rw [Number.text, Int.toString_eq_repr]
  exact Nat.toList_repr

/-- The letters that follow a backslash. -/
def shortLetters : List Char :=
  ['"', '\\', '/', 'b', 'f', 'n', 'r', 't']

/-- A character is escaped by a letter or, if it is a control character, by its code; any other
stands for itself. -/
theorem escapeChar_cases (c : Char) :
    (∃ d ∈ shortLetters, escapeChar c = ['\\', d] ∧ letterEscape? d = some c) ∨
      (c.toNat < 32 ∧ escapeChar c =
        ['\\', 'u', '0', '0', hexDigit (c.toNat / 16), hexDigit (c.toNat % 16)]) ∨
      ((c ≠ '"' ∧ c ≠ '\\' ∧ 32 ≤ c.toNat) ∧ escapeChar c = [c]) := by
  rw [escapeChar]
  split
  · exact .inl ⟨'"', by decide, rfl, by simp [letterEscape?, *]⟩
  · split
    · exact .inl ⟨'\\', by decide, rfl, by simp [letterEscape?, *]⟩
    · split
      · exact .inl ⟨'b', by decide, rfl, by simp [letterEscape?, *]⟩
      · split
        · exact .inl ⟨'f', by decide, rfl, by simp [letterEscape?, *]⟩
        · split
          · exact .inl ⟨'n', by decide, rfl, by simp [letterEscape?, *]⟩
          · split
            · exact .inl ⟨'r', by decide, rfl, by simp [letterEscape?, *]⟩
            · split
              · exact .inl ⟨'t', by decide, rfl, by simp [letterEscape?, *]⟩
              · split
                · exact .inr (.inl ⟨by assumption, rfl⟩)
                · exact .inr (.inr ⟨⟨by assumption, by assumption, by omega⟩, rfl⟩)

theorem not_isTrailing_of_lt {n : Nat} (h : n < 32) : ¬isTrailing n = true := by
  simp only [isTrailing, Bool.and_eq_true, decide_eq_true_eq]
  omega

theorem not_isLeading_of_lt {n : Nat} (h : n < 32) : ¬isLeading n = true := by
  simp only [isLeading, Bool.and_eq_true, decide_eq_true_eq]
  omega

theorem hexValue?_hexDigit {n : Nat} (h : n < 16) : hexValue? (hexDigit n) = some n := by
  revert n
  decide

/-- A number does not start with a zero, unless it is zero. -/
theorem head?_toDigits {n : Nat} (h : (Nat.toDigits 10 n).head? = some '0') : n = 0 := by
  induction n using Nat.strongRecOn with
  | ind n ih =>
    rw [Nat.toDigits_eq_if (by decide)] at h
    split at h
    · simpa using h
    · rename_i hlarge
      have hhead : (Nat.toDigits 10 (n / 10)).head? = some '0' := by
        rwa [List.head?_append, Option.or_of_isSome] at h
        exact List.isSome_head?.2 Nat.toDigits_ne_nil
      have hzero := ih (n / 10) (by omega) hhead
      omega

end Json

namespace Jsonc

open Json (lineBreak Nests prettyAt escapeChar hexDigit)

/-! ### Scalars -/

theorem HexDigit.value_eq {d : HexDigit} {n : Nat} (h : Json.hexValue? d.char = some n) :
    d.value = n :=
  Option.some.inj ((Option.some_get d.isHex).trans h)

/-- The letter of an escape stands for the character that was escaped. -/
theorem exists_letter (c : Char) :
    ∃ l : Letter, l.text = escapeChar c ∧
      ∀ s, characters? (l :: s) = (characters? s).map (c :: ·) := by
  obtain ⟨d, hd, htext, hletter⟩ | ⟨hcontrol, htext⟩ | ⟨hplain, htext⟩ := Json.escapeChar_cases c
  · refine ⟨.short d hd, htext.symm, fun s => ?_⟩
    change (Json.letterEscape? d).bind _ = _
    rw [hletter]
    rfl
  · have hhigh := Json.hexValue?_hexDigit (n := c.toNat / 16) (by omega)
    have hlow := Json.hexValue?_hexDigit (n := c.toNat % 16) (by omega)
    have hzero : Json.hexValue? '0' = some 0 := by decide
    let zero : HexDigit := ⟨'0', by rw [hzero]; rfl⟩
    let high : HexDigit := ⟨hexDigit (c.toNat / 16), by rw [hhigh]; rfl⟩
    let low : HexDigit := ⟨hexDigit (c.toNat % 16), by rw [hlow]; rfl⟩
    have hcode : codeOf zero zero high low = c.toNat := by
      rw [codeOf, HexDigit.value_eq (d := zero) hzero, HexDigit.value_eq (d := high) hhigh,
        HexDigit.value_eq (d := low) hlow]
      omega
    refine ⟨.code zero zero high low, htext.symm, fun s => ?_⟩
    rw [characters?, charactersAfter?, hcode, if_neg (Json.not_isTrailing_of_lt hcontrol),
      if_neg (Json.not_isLeading_of_lt hcontrol), Char.ofNat_toNat]
    rfl
  · exact ⟨.plain c hplain, htext.symm, fun s => rfl⟩

theorem exists_letters (cs : List Char) :
    ∃ s : List Letter, s.flatMap Letter.text = cs.flatMap escapeChar ∧
      characters? s = some cs := by
  induction cs with
  | nil => exact ⟨[], rfl, rfl⟩
  | cons c cs ih =>
    obtain ⟨s, htext, hs⟩ := ih
    obtain ⟨l, hl, hcharacter⟩ := exists_letter c
    refine ⟨l :: s, ?_, ?_⟩
    · rw [List.flatMap_cons, List.flatMap_cons, hl, htext]
    · rw [hcharacter, hs]
      rfl

theorem exists_numeral (n : Nat) :
    ∃ m : Numeral, m.text = Nat.toDigits 10 n ∧ m.integer? = some (n : Int) := by
  let digits : Digits := ⟨Nat.toDigits 10 n, Nat.toDigits_ne_nil,
    fun c hc => Nat.isDigit_of_mem_toDigits (by decide) (by decide) hc⟩
  have hleading : digits.chars.head? = some '0' → digits.chars = ['0'] := by
    intro hzero
    obtain rfl := Json.head?_toDigits hzero
    exact Nat.toDigits_zero 10
  refine ⟨⟨false, digits, hleading, none, none⟩, ?_, ?_⟩
  · simp [Numeral.text, digits]
  · simp [Numeral.integer?, Digits.value, digits]

/-! ### Laying out -/

/-- The text spells the phrase, with blanks where the gap is and between tokens. -/
def Laid (k : Phrase) (gap : Gap) (text : List Char) : Prop :=
  ∃ items : Items, items.text = gap.text ++ text ∧ items.IsBlank ∧ Spells false k items.tokens

section Laid

variable {gap gap' last : Gap} {text text' : List Char} {v : Tree} {vs : List Tree}
  {ms : List (List Letter × Tree)}

theorem isBlank_nil : Gap.IsBlank [] :=
  List.forall_mem_nil _

theorem Items.isBlank_cons {t : Token} {items : Items} (hgap : gap.IsBlank) (h : items.IsBlank) :
    Items.IsBlank ((gap, t) :: items) :=
  List.forall_mem_cons.2 ⟨hgap, h⟩

theorem Items.isBlank_append {items items' : Items} (h : items.IsBlank) (h' : items'.IsBlank) :
    Items.IsBlank (items ++ items') :=
  List.forall_mem_append.2 ⟨h, h'⟩

theorem Items.text_of_cons (t : Token) (items : Items) :
    Items.text ((gap, t) :: items) = gap.text ++ (t.text ++ items.text) := by
  simp [Items.text]

theorem Items.text_of_append (items items' : Items) :
    Items.text (items ++ items') = items.text ++ items'.text :=
  List.flatMap_append

theorem laid_scalar (hgap : gap.IsBlank) (s : Scalar) : Laid (.value (.scalar s)) gap s.text :=
  ⟨[(gap, .scalar s)], by simp [Items.text, Token.text],
    Items.isBlank_cons hgap (List.forall_mem_nil _), .scalar s⟩

theorem laid_emptyArray (hgap : gap.IsBlank) : Laid (.value (.array [])) gap ['[', ']'] :=
  ⟨[(gap, .opening .square), ([], .closing .square)],
    by simp [Items.text, Token.text, Gap.text]; rfl,
    Items.isBlank_cons hgap (Items.isBlank_cons isBlank_nil (List.forall_mem_nil _)), .emptyArray⟩

theorem laid_emptyObject (hgap : gap.IsBlank) : Laid (.value (.object [])) gap ['{', '}'] :=
  ⟨[(gap, .opening .curly), ([], .closing .curly)],
    by simp [Items.text, Token.text, Gap.text]; rfl,
    Items.isBlank_cons hgap (Items.isBlank_cons isBlank_nil (List.forall_mem_nil _)), .emptyObject⟩

theorem Laid.array (h : Laid (.elements vs) gap' text) (hgap : gap.IsBlank)
    (hlast : last.IsBlank) :
    Laid (.value (.array vs)) gap ('[' :: (gap'.text ++ (text ++ (last.text ++ [']'])))) := by
  obtain ⟨items, htext, hblank, hspells⟩ := h
  have hclosing : Items.IsBlank [(last, .closing .square)] :=
    Items.isBlank_cons hlast (List.forall_mem_nil _)
  refine ⟨(gap, .opening .square) :: (items ++ [(last, .closing .square)]), ?_,
    Items.isBlank_cons hgap (Items.isBlank_append hblank hclosing), ?_⟩
  · rw [Items.text_of_cons, Items.text_of_append, htext]
    simp [Items.text, Token.text, Json.Bracket.closing]
  · have hvalue := Spells.array hspells (.inl rfl)
    simpa [Items.tokens] using hvalue

theorem Laid.object (h : Laid (.members ms) gap' text) (hgap : gap.IsBlank)
    (hlast : last.IsBlank) :
    Laid (.value (.object ms)) gap ('{' :: (gap'.text ++ (text ++ (last.text ++ ['}'])))) := by
  obtain ⟨items, htext, hblank, hspells⟩ := h
  have hclosing : Items.IsBlank [(last, .closing .curly)] :=
    Items.isBlank_cons hlast (List.forall_mem_nil _)
  refine ⟨(gap, .opening .curly) :: (items ++ [(last, .closing .curly)]), ?_,
    Items.isBlank_cons hgap (Items.isBlank_append hblank hclosing), ?_⟩
  · rw [Items.text_of_cons, Items.text_of_append, htext]
    simp [Items.text, Token.text, Json.Bracket.closing]
  · have hvalue := Spells.object hspells (.inl rfl)
    simpa [Items.tokens] using hvalue

theorem Laid.element (h : Laid (.value v) gap text) : Laid (.elements [v]) gap text := by
  obtain ⟨items, htext, hblank, hspells⟩ := h
  exact ⟨items, htext, hblank, .element hspells⟩

theorem Laid.elements (h : Laid (.value v) gap text) (hs : Laid (.elements vs) gap' text') :
    Laid (.elements (v :: vs)) gap (text ++ ',' :: (gap'.text ++ text')) := by
  obtain ⟨items, htext, hblank, hspells⟩ := h
  obtain ⟨items', htext', hblank', hspells'⟩ := hs
  refine ⟨items ++ ([], .comma) :: items', ?_,
    Items.isBlank_append hblank (Items.isBlank_cons isBlank_nil hblank'), ?_⟩
  · rw [Items.text_of_append, Items.text_of_cons, htext, htext']
    simp [Gap.text, Token.text]
  · simpa [Items.tokens] using Spells.elements hspells hspells'

theorem Laid.keyed (h : Laid (.value v) gap' text) (hgap : gap.IsBlank) (key : List Letter) :
    ∃ items : Items,
      items.text = gap.text ++ ((Scalar.string key).text ++ ':' :: (gap'.text ++ text)) ∧
      items.IsBlank ∧ ∃ ts, items.tokens = .scalar (.string key) :: .colon :: ts ∧
        Spells false (.value v) ts := by
  obtain ⟨items, htext, hblank, hspells⟩ := h
  refine ⟨(gap, .scalar (.string key)) :: ([], .colon) :: items, ?_,
    Items.isBlank_cons hgap (Items.isBlank_cons isBlank_nil hblank), items.tokens, rfl, hspells⟩
  rw [Items.text_of_cons, Items.text_of_cons, htext]
  simp [Gap.text, Token.text]

theorem Laid.member (h : Laid (.value v) gap' text) (hgap : gap.IsBlank) (key : List Letter) :
    Laid (.members [(key, v)]) gap ((Scalar.string key).text ++ ':' :: (gap'.text ++ text)) := by
  obtain ⟨items, htext, hblank, ts, htokens, hspells⟩ := h.keyed hgap key
  exact ⟨items, htext, hblank, htokens ▸ .member key hspells⟩

theorem Laid.members {gap'' : Gap} (h : Laid (.value v) gap' text) (hgap : gap.IsBlank)
    (key : List Letter) (hs : Laid (.members ms) gap'' text') :
    Laid (.members ((key, v) :: ms)) gap
      ((Scalar.string key).text ++ ':' :: (gap'.text ++ text) ++ ',' :: (gap''.text ++ text')) := by
  obtain ⟨items, htext, hblank, ts, htokens, hspells⟩ := h.keyed hgap key
  obtain ⟨items', htext', hblank', hspells'⟩ := hs
  refine ⟨items ++ ([], .comma) :: items', ?_,
    Items.isBlank_append hblank (Items.isBlank_cons isBlank_nil hblank'), ?_⟩
  · rw [Items.text_of_append, Items.text_of_cons, htext, htext']
    simp [Gap.text, Token.text]
  · have hmembers := Spells.members key hspells hspells'
    rw [Items.tokens, List.map_append, ← Items.tokens, htokens]
    simpa [Items.tokens] using hmembers

end Laid

/-! ### Printed values -/

theorem isBlank_newline : Json.isBlank '\n' = true :=
  rfl

theorem isBlank_space : Json.isBlank ' ' = true :=
  rfl

def breakGap (depth : Nat) : Gap :=
  .blank '\n' isBlank_newline :: List.replicate (4 * depth) (.blank ' ' isBlank_space)

theorem text_breakGap (depth : Nat) : (breakGap depth).text = lineBreak depth := by
  have hblanks : ∀ n,
      Gap.text (List.replicate n (.blank ' ' isBlank_space)) = List.replicate n ' ' := by
    intro n
    induction n with
    | zero => rfl
    | succ n ih =>
      rw [List.replicate_succ, List.replicate_succ, ← ih]
      rfl
  rw [breakGap, lineBreak, ← hblanks]
  rfl

theorem isBlank_breakGap (depth : Nat) : (breakGap depth).IsBlank := by
  refine List.forall_mem_cons.2 ⟨trivial, fun p hp => ?_⟩
  rw [List.eq_of_mem_replicate hp]
  trivial

def spaceGap : Gap :=
  [.blank ' ' isBlank_space]

/-- A printed value is spelled where it stands by a tree that stands for it. -/
def IsSpelled (depth : Nat) (v : Json) : Prop :=
  ∀ gap : Gap, gap.IsBlank →
    ∃ tree : Tree, Laid (.value tree) gap (prettyAt depth v).toList ∧ tree.json? = some v

section Printed

variable {depth : Nat} {gap : Gap}

theorem exists_key (key : String) :
    ∃ s : List Letter, (Scalar.string s).text = (Json.quote key).toList ∧
      characters? s = some key.toList := by
  obtain ⟨s, htext, hs⟩ := exists_letters key.toList
  exact ⟨s, by rw [Scalar.text, htext, Json.toList_quote], hs⟩

theorem isSpelled_scalar {v : Json} (s : Scalar) (htext : s.text = (prettyAt depth v).toList)
    (hs : (Tree.scalar s).json? = some v) : IsSpelled depth v :=
  fun _ hgap => ⟨.scalar s, htext ▸ laid_scalar hgap s, hs⟩

theorem exists_laid_elements {v : Json} {l : List Json} (h : ∀ w ∈ v :: l, IsSpelled depth w)
    (hgap : gap.IsBlank) :
    ∃ vs, Laid (.elements vs) gap ((prettyAt depth v).toList ++
        l.flatMap fun w => ',' :: (lineBreak depth ++ (prettyAt depth w).toList)) ∧
      elements? vs = some (v :: l) := by
  induction l generalizing v gap with
  | nil =>
    obtain ⟨tree, hlaid, htree⟩ := h v List.mem_cons_self gap hgap
    exact ⟨[tree], by simpa using hlaid.element, by simp [elements?, htree]⟩
  | cons w l ih =>
    obtain ⟨hv, hl⟩ := List.forall_mem_cons.1 h
    obtain ⟨tree, hlaid, htree⟩ := hv gap hgap
    obtain ⟨vs, hlaids, hvs⟩ := ih hl (isBlank_breakGap depth)
    have helements := hlaid.elements hlaids
    rw [text_breakGap] at helements
    exact ⟨tree :: vs, by simpa using helements, by simp [elements?, htree, hvs]⟩

theorem exists_laid_members {m : String × Json} {l : List (String × Json)}
    (h : ∀ m' ∈ m :: l, IsSpelled depth m'.2) (hgap : gap.IsBlank) :
    ∃ ms, Laid (.members ms) gap ((Json.quote m.1 ++ ": " ++ prettyAt depth m.2).toList ++
        l.flatMap fun m => ',' :: (lineBreak depth ++
          (Json.quote m.1 ++ ": " ++ prettyAt depth m.2).toList)) ∧
      members? ms = some (m :: l) := by
  have hspace : spaceGap.IsBlank := List.forall_mem_singleton.2 trivial
  have htext : ∀ (m : String × Json) (key : List Letter),
      (Scalar.string key).text = (Json.quote m.1).toList →
        (Json.quote m.1 ++ ": " ++ prettyAt depth m.2).toList =
          (Scalar.string key).text ++ ':' :: (spaceGap.text ++ (prettyAt depth m.2).toList) := by
    intro m key hkey
    rw [hkey, String.toList_append, String.toList_append, List.append_assoc]
    rfl
  induction l generalizing m gap with
  | nil =>
    obtain ⟨tree, hlaid, htree⟩ := h m List.mem_cons_self spaceGap hspace
    obtain ⟨key, hkey, hcharacters⟩ := exists_key m.1
    refine ⟨[(key, tree)], ?_, by simp [members?, hcharacters, htree]⟩
    rw [htext m key hkey]
    simpa using hlaid.member hgap key
  | cons m' l ih =>
    obtain ⟨hm, hl⟩ := List.forall_mem_cons.1 h
    obtain ⟨tree, hlaid, htree⟩ := hm spaceGap hspace
    obtain ⟨key, hkey, hcharacters⟩ := exists_key m.1
    obtain ⟨ms, hlaids, hms⟩ := ih hl (isBlank_breakGap depth)
    have hmembers := hlaid.members hgap key hlaids
    rw [text_breakGap] at hmembers
    refine ⟨(key, tree) :: ms, ?_, by simp [members?, hcharacters, htree, hms]⟩
    rw [htext m key hkey]
    simpa using hmembers

theorem isSpelled_array {l : List Json} (h : ∀ v ∈ l, IsSpelled (depth + 1) v) :
    IsSpelled depth (.array l) := by
  intro gap hgap
  rw [prettyAt, Json.prettyElements_eq]
  cases l with
  | nil =>
    have htext : (Json.spread "[" "]" depth []).toList = ['[', ']'] := by
      simp [Json.spread]
    exact ⟨.array [], htext ▸ laid_emptyArray hgap, rfl⟩
  | cons v l =>
    obtain ⟨vs, hlaid, hvs⟩ := exists_laid_elements h (isBlank_breakGap (depth + 1))
    have harray := hlaid.array hgap (isBlank_breakGap depth)
    refine ⟨.array vs, ?_, by simp [Tree.json?, hvs]⟩
    rw [text_breakGap, text_breakGap] at harray
    rw [List.map_cons, Json.toList_spread_cons]
    simpa [List.flatMap_map] using harray

theorem isSpelled_object {l : List (String × Json)} (h : ∀ m ∈ l, IsSpelled (depth + 1) m.2) :
    IsSpelled depth (.object l) := by
  intro gap hgap
  rw [prettyAt, Json.prettyMembers_eq]
  cases l with
  | nil =>
    have htext : (Json.spread "\x7b" "\x7d" depth []).toList = ['{', '}'] := by
      simp [Json.spread]
    exact ⟨.object [], htext ▸ laid_emptyObject hgap, rfl⟩
  | cons m l =>
    obtain ⟨ms, hlaid, hms⟩ := exists_laid_members h (isBlank_breakGap (depth + 1))
    have hobject := hlaid.object hgap (isBlank_breakGap depth)
    refine ⟨.object ms, ?_, by simp [Tree.json?, hms]⟩
    rw [text_breakGap, text_breakGap] at hobject
    rw [List.map_cons, Json.toList_spread_cons]
    simpa [List.flatMap_map] using hobject

theorem isSpelled_of_nests {n : Nat} {v : Json} (h : Nests n v) (depth : Nat) :
    IsSpelled depth v := by
  induction h generalizing depth with
  | null => exact isSpelled_scalar .null (by rw [prettyAt]; rfl) rfl
  | bool b => cases b <;> exact isSpelled_scalar (.bool _) (by rw [prettyAt]; rfl) rfl
  | count =>
    rename_i n _
    obtain ⟨m, htext, hm⟩ := exists_numeral n
    apply isSpelled_scalar (.number m)
    · rw [Json.ofNat, prettyAt, Json.toList_text_ofNat]
      exact htext
    · rw [Tree.json?, hm]
      rfl
  | string s =>
    obtain ⟨letters, htext, hletters⟩ := exists_key s
    apply isSpelled_scalar (.string letters)
    · rw [prettyAt]
      exact htext
    · rw [Tree.json?, hletters]
      simp
  | array _ ih => exact isSpelled_array fun v hv => ih v hv (depth + 1)
  | object _ _ ih => exact isSpelled_object fun m hm => ih m hm (depth + 1)

/-- A printed value is a strict document that stands for the value. -/
theorem writes_pretty {n : Nat} {v : Json} (h : Nests n v) : Writes v.pretty v := by
  obtain ⟨tree, ⟨items, htext, hblank, hspells⟩, htree⟩ := isSpelled_of_nests h 0 [] isBlank_nil
  refine ⟨items.tokens, tree, ⟨hspells, ?_⟩, htree⟩
  let layout : Layout := ⟨items, [], none, by simp⟩
  refine ⟨layout, ?_, rfl, fun _ => ⟨hblank, isBlank_nil, rfl⟩⟩
  have hlayout : layout.text = (prettyAt 0 v).toList := by
    simpa [layout, Layout.text, Gap.text] using htext
  rw [hlayout, String.ofList_toList]
  rfl

end Printed

end Jsonc

end Unalias
