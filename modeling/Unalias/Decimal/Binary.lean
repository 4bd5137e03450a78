import Unalias.Decimal.Word

/-!
Binary floating-point numbers of 64 bits, and the shortest decimal that stands for one.

`shortest` takes the coarsest decimal grid that has a point in the interval of reals that round to
the number, and of that grid the point nearest to it; of two that are as near, the one farther from
zero.
-/

namespace Unalias

/-- The finite number `mantissa * 2 ^ exponent`, its sign apart. -/
structure Binary where
  negative : Bool
  mantissa : Nat
  exponent : Int
  deriving DecidableEq, Repr

namespace Binary

/-- How many fractions there are; a fraction has 52 bits. -/
def fractionCount : Nat := 0x10000000000000

def ofBits? (bits : UInt64) : Option Binary :=
  let negative : Bool := bits.toNat / (wordCount / 2) = 1
  let biased : Nat := bits.toNat / fractionCount % 2048
  let fraction : Nat := bits.toNat % fractionCount
  if biased = 2047 then none
  else if biased = 0 then some ⟨negative, fraction, -1074⟩
  else some ⟨negative, fractionCount + fraction, biased - 1075⟩

/-- `n * 2 ^ e * 10 ^ (-k)` as a fraction. -/
def scaled (n : Nat) (e k : Int) : Nat × Nat :=
  (n * Nat.pow 2 e.toNat * Nat.pow 10 (-k).toNat, Nat.pow 2 (-e).toNat * Nat.pow 10 k.toNat)

/-- The multiple of `10 ^ k` nearest to `x` among those that round to `x`, as its factor; the larger
one if `x` lies halfway between two. Quarters of the last place are counted, because the interval
below a power of two is half as wide as the one above it. -/
def onGrid? (x : Binary) (k : Int) : Option Nat :=
  let below := if x.mantissa = fractionCount ∧ -1074 < x.exponent then 1 else 2
  let (low, unit) := scaled (4 * x.mantissa - below) (x.exponent - 2) k
  let (mid, _) := scaled (4 * x.mantissa) (x.exponent - 2) k
  let (high, _) := scaled (4 * x.mantissa + 2) (x.exponent - 2) k
  let inside (d : Nat) : Bool :=
    if x.mantissa % 2 = 0 then low ≤ d * unit && d * unit ≤ high
    else low < d * unit && d * unit < high
  let d := mid / unit
  let past := 2 * (mid % unit)
  if inside d && (past < unit || !inside (d + 1)) then some d
  else if inside (d + 1) then some (d + 1)
  else none

def shortest (x : Binary) : Nat × Int :=
  if x.mantissa = 0 then (0, 0)
  else
    let grids := (List.range 640).map fun (i : Nat) => (310 : Int) - (i : Int)
    (grids.findSome? fun k => (x.onGrid? k).map fun d => (d, k)).getD (0, 0)

end Binary

/-- The number `digits * 10 ^ exponent` written out with as many zeros as it takes. -/
def positional (digits : Nat) (exponent : Int) : String :=
  let written := toString digits
  let places := (-exponent).toNat
  if 0 ≤ exponent then
    if digits = 0 then "0" else written ++ String.ofList (List.replicate exponent.toNat '0')
  else
    let padded := (List.replicate (places + 1 - written.length) '0') ++ written.toList
    let whole := padded.take (padded.length - places)
    String.ofList (whole ++ '.' :: padded.drop (padded.length - places))

end Unalias
