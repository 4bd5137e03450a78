import Unalias.Decimal.Word
import Unalias.Json.Reader
import Unalias.Json.Value

/-!
Numbers as written, and the numbers they stand for.

An integer that fits 64 bits stays exact. Any other numeral becomes a real: as many leading digits
as fit 64 bits are taken as an integer, which is then multiplied or divided by a power of ten.
-/

namespace Unalias.Json

/-- The digits of a number without its sign. The exponent has a sign of its own. -/
structure Numeral where
  whole : List Nat
  fraction : List Nat
  exponent : Option (Bool × List Nat)
  deriving DecidableEq, Repr

def spanDigits : List Char → List Nat × List Char
  | [] => ([], [])
  | c :: cs =>
    if c.isDigit then ((c.toNat - 48) :: (spanDigits cs).1, (spanDigits cs).2) else ([], c :: cs)

theorem spanDigits_length_le (text : List Char) :
    (spanDigits text).2.length ≤ text.length := by
  induction text with
  | nil => exact Nat.le_refl _
  | cons c cs ih =>
    rw [spanDigits]
    split
    · exact Nat.le_succ_of_le ih
    · exact Nat.le_refl _

/-- At least one digit; `atEnd` is the fault of a text that stops before it. -/
def someDigits (atEnd : Fault) (text : List Char) : Except Fault (List Nat × List Char) :=
  match spanDigits text with
  | ([], []) => .error atEnd
  | ([], _ :: rest) => .error (.malformed rest)
  | (d :: ds, rest) => .ok (d :: ds, rest)

theorem someDigits_length_le {atEnd : Fault} {text rest : List Char} {ds : List Nat}
    (h : someDigits atEnd text = .ok (ds, rest)) : rest.length ≤ text.length := by
  have hle := spanDigits_length_le text
  rw [someDigits] at h
  split at h
  · cases h
  · cases h
  · rename_i hs
    cases h
    rwa [hs] at hle

/-- What follows a leading zero, which must not be a digit. -/
def afterZero : List Char → Except Fault (List Char)
  | [] => .ok []
  | c :: rest => if c.isDigit then .error (.malformed rest) else .ok (c :: rest)

theorem afterZero_eq {text rest : List Char} (h : afterZero text = .ok rest) : rest = text := by
  cases text with
  | nil => cases h; rfl
  | cons c cs =>
    rw [afterZero] at h
    split at h
    · cases h
    · cases h; rfl

def wholePart (atEnd : Fault) : List Char → Except Fault (List Nat × List Char)
  | [] => .error atEnd
  | c :: rest =>
    if c = '0' then (afterZero rest).map fun rest => ([0], rest)
    else if c.isDigit then .ok ((c.toNat - 48) :: (spanDigits rest).1, (spanDigits rest).2)
    else .error (.malformed rest)

theorem wholePart_length_lt {atEnd : Fault} {text rest : List Char} {ds : List Nat}
    (h : wholePart atEnd text = .ok (ds, rest)) : rest.length < text.length := by
  cases text with
  | nil => cases h
  | cons c cs =>
    rw [wholePart] at h
    split at h
    · cases hz : afterZero cs with
      | error e => rw [hz] at h; cases h
      | ok rest' =>
        rw [hz] at h
        cases h
        rw [afterZero_eq hz]
        exact Nat.lt_succ_self _
    · split at h
      · cases h; exact Nat.lt_succ_of_le (spanDigits_length_le cs)
      · cases h

def fractionPart (atEnd : Fault) : List Char → Except Fault (List Nat × List Char)
  | [] => .ok ([], [])
  | c :: rest => if c = '.' then someDigits atEnd rest else .ok ([], c :: rest)

theorem fractionPart_length_le {atEnd : Fault} {text rest : List Char} {ds : List Nat}
    (h : fractionPart atEnd text = .ok (ds, rest)) : rest.length ≤ text.length := by
  cases text with
  | nil => cases h; exact Nat.le_refl _
  | cons c cs =>
    rw [fractionPart] at h
    split at h
    · exact Nat.le_succ_of_le (someDigits_length_le h)
    · cases h; exact Nat.le_refl _

def exponentSign : List Char → Bool × List Char
  | [] => (false, [])
  | c :: rest =>
    if c = '+' then (false, rest) else if c = '-' then (true, rest) else (false, c :: rest)

theorem exponentSign_length_le (text : List Char) :
    (exponentSign text).2.length ≤ text.length := by
  cases text with
  | nil => exact Nat.le_refl _
  | cons c cs =>
    rw [exponentSign]
    split
    · exact Nat.le_succ _
    · split
      · exact Nat.le_succ _
      · exact Nat.le_refl _

def exponentPart (atEnd : Fault) :
    List Char → Except Fault (Option (Bool × List Nat) × List Char)
  | [] => .ok (none, [])
  | c :: rest =>
    if c = 'e' ∨ c = 'E' then
      match someDigits atEnd (exponentSign rest).2 with
      | .error e => .error e
      | .ok (ds, rest') => .ok (some ((exponentSign rest).1, ds), rest')
    else .ok (none, c :: rest)

theorem exponentPart_length_le {atEnd : Fault} {text rest : List Char}
    {e : Option (Bool × List Nat)} (h : exponentPart atEnd text = .ok (e, rest)) :
    rest.length ≤ text.length := by
  cases text with
  | nil => cases h; exact Nat.le_refl _
  | cons c cs =>
    rw [exponentPart] at h
    split at h
    · split at h
      · cases h
      · rename_i hd
        cases h
        exact Nat.le_succ_of_le
          (Nat.le_trans (someDigits_length_le hd) (exponentSign_length_le cs))
    · cases h; exact Nat.le_refl _

def numeral (atEnd : Fault) : Reader Numeral where
  run text :=
    match wholePart atEnd text with
    | .error e => .error e
    | .ok (whole, rest) =>
      match fractionPart atEnd rest with
      | .error e => .error e
      | .ok (fraction, rest) =>
        match exponentPart atEnd rest with
        | .error e => .error e
        | .ok (exponent, rest) => .ok (⟨whole, fraction, exponent⟩, rest)
  shorter := by
    intro text a rest h
    split at h
    · cases h
    · rename_i hw
      split at h
      · cases h
      · rename_i hf
        split at h
        · cases h
        · rename_i he
          cases h
          exact Nat.lt_of_le_of_lt (exponentPart_length_le he)
            (Nat.lt_of_le_of_lt (fractionPart_length_le hf) (wholePart_length_lt hw))

/-- Appends digits to `n` up to the first that leaves 64 bits; also the number of digits left. -/
def takeDigits (n : Nat) : List Nat → Nat × Nat
  | [] => (n, 0)
  | d :: ds => if n * 10 + d < wordCount then takeDigits (n * 10 + d) ds else (n, ds.length + 1)

def powerOfTen (n : Nat) : Float :=
  Float.ofScientific 1 false n

def divideByPower (x : Float) (n : Nat) : Float :=
  if n ≤ 308 then x / powerOfTen n
  else if x == 0 then x
  else divideByPower (x / powerOfTen 308) (n - 308)
termination_by n
decreasing_by omega

/-- `n * 10 ^ exponent`, unless it is too large. -/
def scale? (n : Nat) (exponent : Int) : Option Float :=
  let x := Float.ofNat n
  if exponent < 0 then some (divideByPower x exponent.natAbs)
  else if exponent ≤ 308 then
    let y := x * powerOfTen exponent.toNat
    if y.isInf then none else some y
  else if n = 0 then some x
  else none

/-- The value of a numeral with a fraction, an exponent or more digits than fit. -/
def Numeral.real? (m : Numeral) : Option Float :=
  let (n, left) := takeDigits 0 m.whole
  let (n, left') := takeDigits n m.fraction
  let exponent : Int := left + left' - m.fraction.length
  match m.exponent with
  | none => scale? n exponent
  | some (negative, ds) =>
    let e : Nat := ds.foldl (fun e d => e * 10 + d) 0
    if e < 0x80000000 then scale? n (if negative then exponent - e else exponent + e)
    else if n = 0 ∨ negative then some 0
    else none

/-- The number with the sign and digits given, unless it is too large for a real. -/
def Numeral.number? (negative : Bool) (m : Numeral) : Option Number :=
  let (n, left) := takeDigits 0 m.whole
  if m.fraction = [] ∧ m.exponent = none ∧ left = 0 then
    if negative then
      if n = 0 ∨ wordCount / 2 < n then some (.real (-(Float.ofNat n)).toBits)
      else some (.integer (-(n : Int)))
    else some (.integer n)
  else m.real?.map fun x => .real (if negative then -x else x).toBits

def unsigned (negative : Bool) (text : List Char) : Except Fault (Number × List Char) :=
  match (numeral .endOfText).run text with
  | .error e => .error e
  | .ok (m, rest) =>
    match m.number? negative with
    | none => .error (.malformed rest)
    | some n => .ok (n, rest)

theorem unsigned_length_lt {negative : Bool} {text rest : List Char} {n : Number}
    (h : unsigned negative text = .ok (n, rest)) : rest.length < text.length := by
  rw [unsigned] at h
  split at h
  · cases h
  · rename_i hm
    split at h
    · cases h
    · cases h
      exact (numeral .endOfText).shorter hm

end Unalias.Json
