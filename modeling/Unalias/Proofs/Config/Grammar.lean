import Unalias.Config.Jsonc
import Unalias.Json.Skip

/-!
The grammar of JSON documents, in two layers: values are spelled by tokens, and tokens are laid
out with gaps around them. Lenient documents may have comments in their gaps and a comma after the
last item between brackets.
-/

namespace Unalias.Jsonc

open Json (Bracket)

/-! ### Tokens -/

structure Digits where
  chars : List Char
  nonempty : chars ≠ []
  digits : ∀ c ∈ chars, c.isDigit = true

inductive Sign where
  | plus
  | minus

def Sign.text : Sign → List Char
  | plus => ['+']
  | minus => ['-']

structure Exponent where
  capital : Bool
  sign : Option Sign
  digits : Digits

def Exponent.text (e : Exponent) : List Char :=
  (if e.capital then 'E' else 'e') :: ((e.sign.elim [] Sign.text) ++ e.digits.chars)

/-- A whole part of several digits does not start with a zero. -/
structure Numeral where
  negative : Bool
  whole : Digits
  leading : whole.chars.head? = some '0' → whole.chars = ['0']
  fraction : Option Digits
  exponent : Option Exponent

def Numeral.text (n : Numeral) : List Char :=
  (if n.negative then ['-'] else []) ++ n.whole.chars ++
    n.fraction.elim [] (fun d => '.' :: d.chars) ++ n.exponent.elim [] Exponent.text

structure HexDigit where
  char : Char
  isHex : (Json.hexValue? char).isSome = true

/-- What stands for one unit of a string: a character as it is, or an escape. -/
inductive Letter where
  | plain (c : Char) (h : c ≠ '"' ∧ c ≠ '\\' ∧ 0x20 ≤ c.toNat)
  | short (c : Char) (h : c ∈ ['"', '\\', '/', 'b', 'f', 'n', 'r', 't'])
  | code (a b c d : HexDigit)

def Letter.text : Letter → List Char
  | plain c _ => [c]
  | short c _ => ['\\', c]
  | code a b c d => ['\\', 'u', a.char, b.char, c.char, d.char]

inductive Scalar where
  | null
  | bool (b : Bool)
  | number (n : Numeral)
  | string (s : List Letter)

def Scalar.text : Scalar → List Char
  | null => ['n', 'u', 'l', 'l']
  | bool true => ['t', 'r', 'u', 'e']
  | bool false => ['f', 'a', 'l', 's', 'e']
  | number n => n.text
  | string s => '"' :: (s.flatMap Letter.text ++ ['"'])

inductive Token where
  | opening (b : Bracket)
  | closing (b : Bracket)
  | colon
  | comma
  | scalar (s : Scalar)

namespace Token

def text : Token → List Char
  | opening .square => ['[']
  | opening .curly => ['{']
  | closing b => [b.closing]
  | colon => [':']
  | comma => [',']
  | scalar s => s.text

def isComma : Token → Bool
  | comma => true
  | _ => false

def isClosing : Token → Bool
  | closing _ => true
  | _ => false

end Token

def nextCloses (ts : List Token) : Bool :=
  ts.head?.any Token.isClosing

/-- Tokens less each comma right before a closing bracket. -/
def withoutTrailing : List Token → List Token
  | [] => []
  | t :: ts => if t.isComma && nextCloses ts then withoutTrailing ts else t :: withoutTrailing ts

/-! ### Values and their tokens -/

/-- A value, its scalars and keys as they are spelled. -/
inductive Tree where
  | scalar (s : Scalar)
  | array (elements : List Tree)
  | object (members : List (List Letter × Tree))

inductive Phrase where
  | value (v : Tree)
  | elements (vs : List Tree)
  | members (ms : List (List Letter × Tree))

/-- What may stand between the last item and the closing bracket. -/
def Trails (lenient : Bool) (ts : List Token) : Prop :=
  ts = [] ∨ lenient = true ∧ ts = [.comma]

/-- Elements and members are one at least; brackets with nothing between them are apart. -/
inductive Spells (lenient : Bool) : Phrase → List Token → Prop
  | scalar (s : Scalar) : Spells lenient (.value (.scalar s)) [.scalar s]
  | emptyArray : Spells lenient (.value (.array [])) [.opening .square, .closing .square]
  | array {vs : List Tree} {ts trail : List Token} (h : Spells lenient (.elements vs) ts)
      (htrail : Trails lenient trail) :
      Spells lenient (.value (.array vs))
        (.opening .square :: (ts ++ (trail ++ [.closing .square])))
  | emptyObject : Spells lenient (.value (.object [])) [.opening .curly, .closing .curly]
  | object {ms : List (List Letter × Tree)} {ts trail : List Token}
      (h : Spells lenient (.members ms) ts) (htrail : Trails lenient trail) :
      Spells lenient (.value (.object ms))
        (.opening .curly :: (ts ++ (trail ++ [.closing .curly])))
  | element {v : Tree} {ts : List Token} (h : Spells lenient (.value v) ts) :
      Spells lenient (.elements [v]) ts
  | elements {v : Tree} {vs : List Tree} {ts us : List Token} (h : Spells lenient (.value v) ts)
      (hs : Spells lenient (.elements vs) us) :
      Spells lenient (.elements (v :: vs)) (ts ++ .comma :: us)
  | member (key : List Letter) {v : Tree} {ts : List Token} (h : Spells lenient (.value v) ts) :
      Spells lenient (.members [(key, v)]) (.scalar (.string key) :: .colon :: ts)
  | members (key : List Letter) {v : Tree} {ms : List (List Letter × Tree)} {ts us : List Token}
      (h : Spells lenient (.value v) ts) (hs : Spells lenient (.members ms) us) :
      Spells lenient (.members ((key, v) :: ms))
        (.scalar (.string key) :: .colon :: (ts ++ .comma :: us))

/-! ### Trailing commas among the tokens -/

theorem withoutTrailing_cons (t : Token) (ts : List Token) :
    withoutTrailing (t :: ts) =
      if t.isComma && nextCloses ts then withoutTrailing ts else t :: withoutTrailing ts :=
  rfl

theorem withoutTrailing_append {ts : List Token} (us : List Token)
    (h : ts.getLast?.any Token.isComma = false) :
    withoutTrailing (ts ++ us) = withoutTrailing ts ++ withoutTrailing us := by
  induction ts with
  | nil => rfl
  | cons t ts ih =>
    cases ts with
    | nil =>
      have ht : t.isComma = false := h
      simp [withoutTrailing, ht]
    | cons t' ts =>
      have hnext : nextCloses ((t' :: ts) ++ us) = nextCloses (t' :: ts) := rfl
      rw [List.getLast?_cons_cons] at h
      rw [List.cons_append, withoutTrailing_cons t, hnext, ih h, withoutTrailing_cons t]
      split <;> rfl

theorem length_withoutTrailing_le (ts : List Token) : (withoutTrailing ts).length ≤ ts.length := by
  induction ts with
  | nil => exact Nat.le_refl _
  | cons t ts ih =>
    rw [withoutTrailing_cons]
    split
    · exact Nat.le_succ_of_le ih
    · exact Nat.succ_le_succ ih

/-- Tokens that neither begin with a closing bracket nor end with a comma. -/
structure Framed (ts : List Token) : Prop where
  nonempty : ts ≠ []
  first : nextCloses ts = false
  last : ts.getLast?.any Token.isComma = false

namespace Framed

variable {ts us : List Token}

theorem append (h : Framed ts) (hus : us ≠ []) (hlast : us.getLast?.any Token.isComma = false) :
    Framed (ts ++ us) where
  nonempty := List.append_ne_nil_of_left_ne_nil h.nonempty us
  first := by
    obtain ⟨t, ts, rfl⟩ := List.exists_cons_of_ne_nil h.nonempty
    exact h.first
  last := by
    rw [List.getLast?_append, List.getLast?_eq_some_getLast hus]
    rwa [List.getLast?_eq_some_getLast hus] at hlast

theorem cons {t : Token} (h : Framed ts) (ht : t.isClosing = false) : Framed (t :: ts) where
  nonempty := List.cons_ne_nil t ts
  first := ht
  last := by
    obtain ⟨u, us, rfl⟩ := List.exists_cons_of_ne_nil h.nonempty
    rw [List.getLast?_cons_cons]
    exact h.last

theorem group (b : Bracket) (ts : List Token) : Framed (.opening b :: (ts ++ [.closing b])) where
  nonempty := List.cons_ne_nil _ _
  first := rfl
  last := by
    rw [← List.cons_append, List.getLast?_concat]
    rfl

/-- The comma between two items stays. -/
theorem withoutTrailing_comma (h : Framed ts) (hus : Framed us) :
    withoutTrailing (ts ++ .comma :: us) = withoutTrailing ts ++ .comma :: withoutTrailing us := by
  rw [withoutTrailing_append _ h.last, withoutTrailing, hus.first]
  rfl

theorem withoutTrailing_group (h : Framed ts) (b : Bracket) {lenient : Bool} {trail : List Token}
    (htrail : Trails lenient trail) :
    withoutTrailing (.opening b :: (ts ++ (trail ++ [.closing b]))) =
      .opening b :: (withoutTrailing ts ++ [.closing b]) := by
  have hopening : ∀ us, withoutTrailing (.opening b :: us) = .opening b :: withoutTrailing us :=
    fun _ => rfl
  rw [hopening, withoutTrailing_append _ h.last]
  obtain rfl | ⟨-, rfl⟩ := htrail
  · rfl
  · rfl

end Framed

theorem Spells.framed {lenient : Bool} {k : Phrase} {ts : List Token} (h : Spells lenient k ts) :
    Framed ts := by
  induction h with
  | scalar s => exact ⟨List.cons_ne_nil _ _, rfl, rfl⟩
  | emptyArray => exact .group .square []
  | array _ _ ih =>
    rw [← List.append_assoc]
    exact .group .square _
  | emptyObject => exact .group .curly []
  | object _ _ ih =>
    rw [← List.append_assoc]
    exact .group .curly _
  | element _ ih => exact ih
  | elements _ _ ih ihs =>
    exact ih.append (List.cons_ne_nil _ _) (ihs.cons rfl).last
  | member key _ ih => exact (ih.cons rfl).cons rfl
  | members key _ _ ih ihs =>
    exact ((ih.append (List.cons_ne_nil _ _) (ihs.cons rfl).last).cons rfl).cons rfl

/-- What is strict is lenient. -/
theorem Spells.lenient {k : Phrase} {ts : List Token} (h : Spells false k ts) :
    Spells true k ts := by
  have htrail : ∀ {trail}, Trails false trail → Trails true trail := by
    rintro trail (h | ⟨h, -⟩)
    · exact .inl h
    · cases h
  induction h with
  | scalar s => exact .scalar s
  | emptyArray => exact .emptyArray
  | array _ h ih => exact .array ih (htrail h)
  | emptyObject => exact .emptyObject
  | object _ h ih => exact .object ih (htrail h)
  | element _ ih => exact .element ih
  | elements _ _ ih ihs => exact .elements ih ihs
  | member key _ ih => exact .member key ih
  | members key _ _ ih ihs => exact .members key ih ihs

/-- The tokens of a value less its trailing commas spell the same value. -/
theorem Spells.withoutTrailing {lenient : Bool} {k : Phrase} {ts : List Token}
    (h : Spells lenient k ts) : Spells false k (withoutTrailing ts) := by
  induction h with
  | scalar s => exact .scalar s
  | emptyArray => exact .emptyArray
  | array h htrail ih =>
    rw [h.framed.withoutTrailing_group .square htrail]
    exact .array ih (.inl rfl)
  | emptyObject => exact .emptyObject
  | object h htrail ih =>
    rw [h.framed.withoutTrailing_group .curly htrail]
    exact .object ih (.inl rfl)
  | element _ ih => exact .element ih
  | elements h hs ih ihs =>
    rw [h.framed.withoutTrailing_comma hs.framed]
    exact .elements ih ihs
  | member key _ ih => exact .member key ih
  | members key h hs ih ihs =>
    have hcomma := h.framed.withoutTrailing_comma hs.framed
    have hkey : ∀ us, Jsonc.withoutTrailing (.scalar (.string key) :: .colon :: us) =
        .scalar (.string key) :: .colon :: Jsonc.withoutTrailing us := fun _ => rfl
    rw [hkey, hcomma]
    exact .members key ih ihs

theorem Spells.withoutTrailing_eq {k : Phrase} {ts : List Token} (h : Spells false k ts) :
    Jsonc.withoutTrailing ts = ts := by
  induction h with
  | scalar s => rfl
  | emptyArray => rfl
  | array h htrail ih =>
    rw [h.framed.withoutTrailing_group .square htrail, ih]
    obtain rfl | ⟨h, -⟩ := htrail
    · rfl
    · cases h
  | emptyObject => rfl
  | object h htrail ih =>
    rw [h.framed.withoutTrailing_group .curly htrail, ih]
    obtain rfl | ⟨h, -⟩ := htrail
    · rfl
    · cases h
  | element _ ih => exact ih
  | elements h hs ih ihs => rw [h.framed.withoutTrailing_comma hs.framed, ih, ihs]
  | member key _ ih => exact congrArg (.scalar (.string key) :: .colon :: ·) ih
  | members key h hs ih ihs =>
    have hcomma := h.framed.withoutTrailing_comma hs.framed
    rw [ih, ihs] at hcomma
    exact congrArg (.scalar (.string key) :: .colon :: ·) hcomma

/-! ### Documents -/

/-- A part of a gap. A line comment goes up to its line break, a block comment up to the first
star with a slash after it. -/
inductive Piece where
  | blank (c : Char) (h : Json.isBlank c = true)
  | line (body : List Char) (h : '\n' ∉ body)
  | block (body : List Char) (h : ¬['*', '/'] <:+: body)

namespace Piece

def text : Piece → List Char
  | blank c _ => [c]
  | line body _ => '/' :: '/' :: (body ++ ['\n'])
  | block body _ => '/' :: '*' :: (body ++ ['*', '/'])

def IsBlank : Piece → Prop
  | blank _ _ => True
  | line _ _ | block _ _ => False

end Piece

abbrev Gap := List Piece

def Gap.text (g : Gap) : List Char :=
  g.flatMap Piece.text

def Gap.IsBlank (g : Gap) : Prop :=
  ∀ p ∈ g, p.IsBlank

abbrev Items := List (Gap × Token)

namespace Items

def text (items : Items) : List Char :=
  items.flatMap fun item => item.1.text ++ item.2.text

def tokens (items : Items) : List Token :=
  items.map Prod.snd

def IsBlank (items : Items) : Prop :=
  ∀ item ∈ items, item.1.IsBlank

end Items

/-- Tokens, each after a gap, and what follows them: a last gap, and a line comment that goes up to
the end of the text. -/
structure Layout where
  items : Items
  last : Gap
  tail : Option (List Char)
  tail_line : ∀ body ∈ tail, '\n' ∉ body

namespace Layout

def text (l : Layout) : List Char :=
  l.items.text ++ (l.last.text ++ l.tail.elim [] fun body => '/' :: '/' :: body)

structure IsBlank (l : Layout) : Prop where
  items : l.items.IsBlank
  last : l.last.IsBlank
  tail : l.tail = none

end Layout

/-- A text that is a value, laid out. Only lenient documents have comments. -/
structure IsDocument (lenient : Bool) (text : String) (tokens : List Token) (v : Tree) : Prop where
  spells : Spells lenient (.value v) tokens
  laid_out : ∃ l : Layout, String.ofList l.text = text ∧ l.items.tokens = tokens ∧
    (lenient = false → l.IsBlank)

theorem IsDocument.lenient {text : String} {tokens : List Token} {v : Tree}
    (h : IsDocument false text tokens v) : IsDocument true text tokens v := by
  obtain ⟨l, htext, htokens, -⟩ := h.laid_out
  exact ⟨h.spells.lenient, l, htext, htokens, nofun⟩

end Unalias.Jsonc
