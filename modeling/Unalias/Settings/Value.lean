import Unalias.Decimal.Binary
import Unalias.Index
import Unalias.Text.Blank
import Unalias.Text.Quoted

/-!
Values of environment variables. A text is read as a truth value, a number, a quoted string or
character, a sequence in square brackets or a map in curly ones; any other text stands for itself.
-/

namespace Unalias.Settings

inductive Value where
  | string (s : String)
  | char (c : Char)
  | bool (b : Bool)
  | unsigned (n : Nat)
  | signed (n : Int)
  | float (bits : UInt64)
  | sequence (items : List Value)
  | map (entries : List (String × Value))
  deriving Inhabited, Repr

/-- Sets an entry of a map, whose keys stay in order. -/
def setEntry (key : String) (value : Value) : List (String × Value) → List (String × Value) :=
  Index.place key fun _ => value

mutual

/-- A later value over an earlier one: maps are merged, anything else is replaced. -/
def Value.over (old : Value) : Value → Value
  | .map new =>
    match old with
    | .map old => .map (overEntries old new)
    | _ => .map new
  | new => new

def overEntries (old : List (String × Value)) : List (String × Value) → List (String × Value)
  | [] => old
  | (key, new) :: rest =>
    let merged :=
      match old.lookup key with
      | some value => value.over new
      | none => new
    overEntries (setEntry key merged old) rest

end

def floatText (bits : UInt64) : String :=
  match Binary.ofBits? bits with
  | none =>
    if bits.toNat % Binary.fractionCount ≠ 0 then "NaN"
    else if bits.toNat / (wordCount / 2) = 1 then "-inf"
    else "inf"
  | some x =>
    let (digits, exponent) := x.shortest
    if x.negative then "-" ++ positional digits exponent else positional digits exponent

/-- How a message names a value. -/
def Value.describe : Value → String
  | .string s => "string " ++ Text.quoted s
  | .char c => "string " ++ Text.quoted (String.singleton c)
  | .bool b => if b then "bool true" else "bool false"
  | .unsigned n => "unsigned int `" ++ toString n ++ "`"
  | .signed n => "signed int `" ++ toString n ++ "`"
  | .float bits => "float `" ++ floatText bits ++ "`"
  | .sequence _ => "sequence"
  | .map _ => "map"

/-! ### Words -/

def digitsValue? (cs : List Char) : Option Nat :=
  if cs = [] ∨ ¬ cs.all Char.isDigit then none
  else some (cs.foldl (fun n c => n * 10 + (c.toNat - 48)) 0)

def unsigned? (cs : List Char) : Option Nat :=
  let digits :=
    match cs with
    | '+' :: rest => rest
    | _ => cs
  (digitsValue? digits).bind fun n => if n < wordCount then some n else none

def signed? (cs : List Char) : Option Int :=
  match cs with
  | '-' :: rest =>
    (digitsValue? rest).bind fun n => if n ≤ wordCount / 2 then some (-(n : Int)) else none
  | _ => (unsigned? cs).bind fun n => if n < wordCount / 2 then some (n : Int) else none

def nearestReal (digits : Nat) (exponent : Int) : Float :=
  let size := (toString digits).length + exponent
  if digits = 0 ∨ size < -330 then 0
  else if 330 < size then Float.ofBits 0x7ff0000000000000
  else Float.ofScientific digits (exponent < 0) exponent.natAbs

def exponent? : List Char → Option Int
  | [] => some 0
  | c :: rest =>
    if c = 'e' ∨ c = 'E' then
      match rest with
      | '+' :: ds => (digitsValue? ds).map Int.ofNat
      | '-' :: ds => (digitsValue? ds).map fun n => -(n : Int)
      | ds => (digitsValue? ds).map Int.ofNat
    else none

def float? (cs : List Char) : Option UInt64 :=
  let (negative, body) :=
    match cs with
    | '-' :: rest => (true, rest)
    | '+' :: rest => (false, rest)
    | _ => (false, cs)
  match body.dropWhile Char.isDigit with
  | '.' :: rest =>
    let whole := body.takeWhile Char.isDigit
    let fraction := rest.takeWhile Char.isDigit
    match digitsValue? (whole ++ fraction), exponent? (rest.dropWhile Char.isDigit) with
    | some digits, some exponent =>
      let x := nearestReal digits (exponent - fraction.length)
      some (if negative then -x else x).toBits
    | _, _ => none
  | _ => none

def word (cs : List Char) : Value :=
  match float? cs, unsigned? cs, signed? cs with
  | some bits, _, _ => .float bits
  | _, some n, _ => .unsigned n
  | _, _, some n => .signed n
  | _, _, _ => .string (String.ofList cs)

/-! ### Quoted strings -/

/-- Splits at the first quote that no backslash escapes. -/
def splitQuoted (text : List Char) : Option (List Char × List Char) :=
  match text with
  | [] => none
  | c :: rest =>
    if c = '"' then some ([], rest)
    else if c = '\\' then
      match rest with
      | [] => none
      | d :: rest => (splitQuoted rest).map fun (inner, rest) => (c :: d :: inner, rest)
    else (splitQuoted rest).map fun (inner, rest) => (c :: inner, rest)

theorem splitQuoted_length_le {text inner rest : List Char}
    (h : splitQuoted text = some (inner, rest)) : rest.length ≤ text.length := by
  fun_induction splitQuoted text generalizing inner with
  | case1 => cases h
  | case2 => cases h; exact Nat.le_succ _
  | case3 => cases h
  | case4 =>
    rename_i ih
    obtain ⟨⟨inner', rest'⟩, hs, hr⟩ := Option.map_eq_some_iff.1 h
    cases hr
    exact Nat.le_succ_of_le (Nat.le_succ_of_le (ih hs))
  | case5 =>
    rename_i ih
    obtain ⟨⟨inner', rest'⟩, hs, hr⟩ := Option.map_eq_some_iff.1 h
    cases hr
    exact Nat.le_succ_of_le (ih hs)

def codePoint? (hex : List Char) : Option Char :=
  if hex.all fun c => c.isDigit || ('a' ≤ c && c ≤ 'f') || ('A' ≤ c && c ≤ 'F') then
    let n := hex.foldl (fun n c =>
      n * 16 + (if c.isDigit then c.toNat - 48 else c.toLower.toNat - 87)) 0
    if h : n.isValidChar then some (Char.ofNatAux n h) else none
  else none

/-- Replaces the escapes of a quoted string. -/
def unescape : List Char → Option (List Char)
  | [] => some []
  | '\\' :: 'u' :: a :: b :: c :: d :: rest =>
    match codePoint? [a, b, c, d], unescape rest with
    | some x, some xs => some (x :: xs)
    | _, _ => none
  | '\\' :: 'U' :: a :: b :: c :: d :: e :: f :: g :: h :: rest =>
    match codePoint? [a, b, c, d, e, f, g, h], unescape rest with
    | some x, some xs => some (x :: xs)
    | _, _ => none
  | '\\' :: '"' :: rest => (unescape rest).map ('"' :: ·)
  | '\\' :: '\\' :: rest => (unescape rest).map ('\\' :: ·)
  | '\\' :: 'b' :: rest => (unescape rest).map ('\x08' :: ·)
  | '\\' :: 'f' :: rest => (unescape rest).map ('\x0c' :: ·)
  | '\\' :: 'n' :: rest => (unescape rest).map ('\n' :: ·)
  | '\\' :: 'r' :: rest => (unescape rest).map ('\r' :: ·)
  | '\\' :: 't' :: rest => (unescape rest).map ('\t' :: ·)
  | '\\' :: _ => none
  | c :: rest =>
    if c ≠ '\t' ∧ (c.toNat < 32 ∨ c.toNat = 127) then none else (unescape rest).map (c :: ·)

/-- The characters at the start of a text that take at most `size` bytes. -/
def fitting (size : Nat) : List Char → List Char
  | [] => []
  | c :: rest => if c.utf8Size ≤ size then c :: fitting (size - c.utf8Size) rest else []

/-- The text between quotes that an escaped form stands for. Of what stands before the first escape
as many bytes are kept as it has characters, which is all of it if they are ASCII. -/
def unquoted (inner : List Char) : Option (List Char) :=
  match unescape (inner.takeWhile (· ≠ '\\')), inner.dropWhile (· ≠ '\\') with
  | none, _ => none
  | some plain, [] => some plain
  | some plain, escaped => (unescape escaped).map (fitting plain.length plain ++ ·)

/-- A string in quotes, read after the opening one. -/
def quotedString (text : List Char) : Option (String × List Char) :=
  match splitQuoted text with
  | none => none
  | some (inner, rest) => (unquoted inner).map fun cs => (String.ofList cs, rest)

theorem quotedString_length_le {text rest : List Char} {s : String}
    (h : quotedString text = some (s, rest)) : rest.length ≤ text.length := by
  rw [quotedString] at h
  split at h
  · cases h
  · rename_i hs
    obtain ⟨cs, -, hr⟩ := Option.map_eq_some_iff.1 h
    cases hr
    exact splitQuoted_length_le hs

/-! ### Nested values -/

def isSpace (c : Char) : Bool :=
  c = ' ' || c = '\t' || c = '\n' || c = '\r' || c = '\x0c'

def skipSpace (text : List Char) : List Char :=
  text.dropWhile isSpace

theorem skipSpace_length_le (text : List Char) : (skipSpace text).length ≤ text.length :=
  (List.dropWhile_sublist isSpace).length_le

def isSeparator (c : Char) : Bool :=
  c = ',' || c = '{' || c = '}' || c = '[' || c = ']'

def isKeyChar (c : Char) : Bool :=
  c.isAlphanum || c = '_' || c = '-'

/-- The key of an entry and what follows it. -/
def entryKey (text : List Char) : Option (String × List Char) :=
  match text with
  | '"' :: rest => quotedString rest
  | _ =>
    if text.takeWhile isKeyChar = [] then none
    else some (String.ofList (text.takeWhile isKeyChar), text.dropWhile isKeyChar)

theorem entryKey_length_le {text rest : List Char} {key : String}
    (h : entryKey text = some (key, rest)) : rest.length ≤ text.length := by
  unfold entryKey at h
  split at h
  · exact Nat.le_succ_of_le (quotedString_length_le h)
  · split at h
    · cases h
    · cases h
      exact (List.dropWhile_sublist isKeyChar).length_le

/-- The place of the value of an entry, after its key and an equals sign. -/
def entryStart (text : List Char) : Option (String × List Char) :=
  match entryKey (skipSpace text) with
  | none => none
  | some (key, rest) =>
    match skipSpace rest with
    | '=' :: rest => some (key, skipSpace rest)
    | _ => none

theorem entryStart_length_le {text rest : List Char} {key : String}
    (h : entryStart text = some (key, rest)) : rest.length ≤ text.length := by
  rw [entryStart] at h
  split at h
  · cases h
  · rename_i key' afterKey hk
    split at h
    · rename_i rest' hs
      cases h
      have h₁ := skipSpace_length_le text
      have h₂ := entryKey_length_le hk
      have h₃ := skipSpace_length_le afterKey
      have h₄ := skipSpace_length_le rest'
      rw [hs, List.length_cons] at h₃
      omega
    · cases h

def flatValue (text : List Char) : Option (Value × List Char) :=
  match text with
  | '"' :: rest => (quotedString rest).map fun (s, rest) => (.string s, rest)
  | '\'' :: c :: '\'' :: rest => some (.char c, rest)
  | '\'' :: _ => none
  | 't' :: 'r' :: 'u' :: 'e' :: rest => some (.bool true, rest)
  | 'f' :: 'a' :: 'l' :: 's' :: 'e' :: rest => some (.bool false, rest)
  | _ =>
    some (word (Text.trim (text.takeWhile (!isSeparator ·))), text.dropWhile (!isSeparator ·))

theorem flatValue_length_le {text rest : List Char} {v : Value}
    (h : flatValue text = some (v, rest)) : rest.length ≤ text.length := by
  unfold flatValue at h
  split at h
  · obtain ⟨⟨s, rest'⟩, hq, hr⟩ := Option.map_eq_some_iff.1 h
    cases hr
    exact Nat.le_succ_of_le (quotedString_length_le hq)
  · cases h
    simp only [List.length_cons]
    omega
  · cases h
  · cases h
    simp only [List.length_cons]
    omega
  · cases h
    simp only [List.length_cons]
    omega
  · cases h
    exact (List.dropWhile_sublist _).length_le

/-- What a reader of values leaves of a text. -/
abbrev Rest (text : List Char) := { rest : List Char // rest.length ≤ text.length }

theorem length_tail_le (text : List Char) : text.tail.length ≤ text.length := by
  rw [List.length_tail]
  exact Nat.sub_le _ _

namespace Rest

/-- The rest as one of a longer text. -/
def within {inner text : List Char} (h : inner.length ≤ text.length) (r : Rest inner) :
    Rest text :=
  ⟨r.1, Nat.le_trans r.2 h⟩

def skip {text : List Char} (r : Rest text) : Rest text :=
  ⟨skipSpace r.1, Nat.le_trans (skipSpace_length_le r.1) r.2⟩

/-- The first character of a rest, and what follows it. -/
def next? {text : List Char} (r : Rest text) :
    Option (Char × { rest : List Char // rest.length < text.length }) :=
  match r with
  | ⟨[], _⟩ => none
  | ⟨c :: rest, h⟩ => some (c, ⟨rest, h⟩)

end Rest

def flat (text : List Char) : Option (Value × Rest text) :=
  match h : flatValue text with
  | none => none
  | some (v, rest) => some (v, ⟨rest, flatValue_length_le h⟩)

def entry (text : List Char) : Option (String × Rest text) :=
  match h : entryStart text with
  | none => none
  | some (key, rest) => some (key, ⟨rest, entryStart_length_le h⟩)

mutual

/-- A value with the spaces around it. -/
def nested (text : List Char) : Option (Value × Rest text) :=
  let start : Rest text := Rest.skip ⟨text, Nat.le_refl _⟩
  match start.next? with
  | none => some (word [], start)
  | some (c, ⟨rest, h⟩) =>
    if c = '[' then
      (items rest).map fun (l, after) => (.sequence l, (after.within (Nat.le_of_lt h)).skip)
    else if c = '{' then
      (entries rest).map fun (l, after) => (.map l, (after.within (Nat.le_of_lt h)).skip)
    else (flat start.1).map fun (v, after) => (v, (after.within start.2).skip)
termination_by 2 * text.length

/-- The values up to a closing bracket; a comma may stand before it. -/
def items (text : List Char) : Option (List Value × Rest text) :=
  if text.head? = some ']' then some ([], ⟨text.tail, length_tail_le text⟩)
  else
    match nested text with
    | none => none
    | some (v, after) =>
      match after.next? with
      | none => none
      | some (c, ⟨rest, h⟩) =>
        if c = ',' then
          (items rest).map fun (l, after) => (v :: l, after.within (Nat.le_of_lt h))
        else if c = ']' then some ([v], ⟨rest, Nat.le_of_lt h⟩)
        else none
termination_by 2 * text.length + 1

/-- The entries up to a closing bracket; a comma may stand before it. -/
def entries (text : List Char) : Option (List (String × Value) × Rest text) :=
  if text.head? = some '}' then some ([], ⟨text.tail, length_tail_le text⟩)
  else
    match entry text with
    | none => none
    | some (key, ⟨start, hstart⟩) =>
      match nested start with
      | none => none
      | some (v, after) =>
        match (after.within hstart).next? with
        | none => none
        | some (c, ⟨rest, h⟩) =>
          if c = ',' then
            (entries rest).map fun (l, after) =>
              (if l.any (·.1 = key) then l else setEntry key v l, after.within (Nat.le_of_lt h))
          else if c = '}' then some ([(key, v)], ⟨rest, Nat.le_of_lt h⟩)
          else none
termination_by 2 * text.length + 1

end

/-- The value of a text; one that does not read whole stands for itself. -/
def Value.ofText (text : String) : Value :=
  match nested text.toList with
  | some (v, ⟨[], _⟩) => v
  | _ => .string text

end Unalias.Settings
