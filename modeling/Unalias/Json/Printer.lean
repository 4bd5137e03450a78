import Unalias.Decimal.Binary
import Unalias.Json.Value

/-!
The text of a JSON value, on one line (`compact`) or spread over lines (`pretty`).
-/

namespace Unalias.Json

def hexDigit (n : Nat) : Char :=
  if n < 10 then Char.ofNat (48 + n) else Char.ofNat (87 + n)

/-- Only quotes, backslashes and control characters are escaped. -/
def escapeChar (c : Char) : List Char :=
  if c = '"' then ['\\', '"']
  else if c = '\\' then ['\\', '\\']
  else if c = '\x08' then ['\\', 'b']
  else if c = '\x0c' then ['\\', 'f']
  else if c = '\n' then ['\\', 'n']
  else if c = '\r' then ['\\', 'r']
  else if c = '\t' then ['\\', 't']
  else if c.toNat < 32 then ['\\', 'u', '0', '0', hexDigit (c.toNat / 16), hexDigit (c.toNat % 16)]
  else [c]

def quote (s : String) : String :=
  String.ofList ('"' :: s.toList.flatMap escapeChar ++ ['"'])

/-- Small and large reals are written with an exponent, all others with a decimal point. -/
def realText (bits : UInt64) : String :=
  match Binary.ofBits? bits with
  | none => "null"
  | some x =>
    let (digits, exponent) := x.shortest
    let written :=
      if exponent < -20 ∨ 16 < exponent then toString digits ++ "e" ++ toString exponent
      else if 0 ≤ exponent then positional digits exponent ++ ".0"
      else positional digits exponent
    if x.negative then "-" ++ written else written

def Number.text : Number → String
  | .integer n => toString n
  | .real bits => realText bits

mutual

def compact : Json → String
  | .null => "null"
  | .bool true => "true"
  | .bool false => "false"
  | .number n => Number.text n
  | .string s => quote s
  | .array l => "[" ++ ",".intercalate (compactElements l) ++ "]"
  | .object l => "\x7b" ++ ",".intercalate (compactMembers l) ++ "\x7d"

def compactElements : List Json → List String
  | [] => []
  | v :: rest => compact v :: compactElements rest

def compactMembers : List (String × Json) → List String
  | [] => []
  | (k, v) :: rest => (quote k ++ ":" ++ compact v) :: compactMembers rest

end

def newline (depth : Nat) : String :=
  String.ofList ('\n' :: List.replicate (4 * depth) ' ')

/-- Items between brackets, each on a line of its own. -/
def spread (opening closing : String) (depth : Nat) (items : List String) : String :=
  if items.isEmpty then opening ++ closing
  else
    opening ++ newline (depth + 1) ++ ("," ++ newline (depth + 1)).intercalate items ++
      newline depth ++ closing

mutual

/-- The value with four blanks for each depth; the first line stands at its place already. -/
def prettyAt (depth : Nat) : Json → String
  | .array l => spread "[" "]" depth (prettyElements (depth + 1) l)
  | .object l => spread "\x7b" "\x7d" depth (prettyMembers (depth + 1) l)
  | .null => "null"
  | .bool true => "true"
  | .bool false => "false"
  | .number n => Number.text n
  | .string s => quote s

def prettyElements (depth : Nat) : List Json → List String
  | [] => []
  | v :: rest => prettyAt depth v :: prettyElements depth rest

def prettyMembers (depth : Nat) : List (String × Json) → List String
  | [] => []
  | (k, v) :: rest => (quote k ++ ": " ++ prettyAt depth v) :: prettyMembers depth rest

end

def pretty (v : Json) : String :=
  prettyAt 0 v

end Unalias.Json
