/-!
# Binary floating point

The IEEE 754 binary64 number nearest to a non-negative decimal fraction, as its 64 bits. A tie goes to the even
neighbour, and what is too large becomes infinity.
-/

namespace Remap.Binary64

/-- The bits of positive infinity. -/
def infinity : Nat := 0x7FF0000000000000

/-- The bit that marks a negative number. -/
def signBit : Nat := 0x8000000000000000

/-- The quotient rounded to the nearest integer, a tie to the even one. -/
def roundDiv (num den : Nat) : Nat :=
  let q := num / den
  let r := num % den
  if 2 * r > den || (2 * r = den && q % 2 = 1) then q + 1 else q

/-- The quotient of `num` and `den` divided by a power of two, rounded. -/
def roundScaled (num den : Nat) (e : Int) : Nat :=
  if 0 ≤ e then roundDiv num (den <<< e.toNat) else roundDiv (num <<< (-e).toNat) den

/-- The exponent of the largest power of two that is at most `num / den`, for positive `num` and `den`. -/
def floorLog (num den : Nat) : Int :=
  let k : Int := (num.log2 : Int) - (den.log2 : Int)
  let below := if 0 ≤ k then den <<< k.toNat ≤ num else den ≤ num <<< (-k).toNat
  if below then k else k - 1

/-- The bits of the number nearest to `num / den`, for positive `den`. The last place is worth `2 ^ e`, with `e` at least
`-1074`, so the bits are the rounded count of last places plus `2 ^ 52` for each step of the exponent. -/
def ofFraction (num den : Nat) : Nat :=
  if num = 0 then 0
  else
    let e := max (floorLog num den - 52) (-1074)
    let bits := (e + 1074).toNat <<< 52 + roundScaled num den e
    if bits < infinity then bits else infinity

/-- The bits as sixteen hexadecimal digits. -/
def hex (bits : Nat) : String :=
  let digits := Nat.toDigits 16 bits
  String.ofList (List.replicate (16 - digits.length) '0' ++ digits)

end Remap.Binary64
