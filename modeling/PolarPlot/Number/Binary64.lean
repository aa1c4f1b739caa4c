/-!
# Binary64 numbers as exact values

A finite `Float` is a signed natural number times a power of two. `parts` takes a number apart,
`nearest` goes the other way: it rounds any ratio of natural numbers to the nearest binary64 number,
a tie going to the even significand. Both are plain arithmetic on the bits, so that every decimal
text and every elementary function of this library rests on the same rounding.
-/

namespace PolarPlot.Number

/-- The value `significand * 2 ^ exponent`, negated if `negative`. -/
structure Parts where
  negative : Bool
  significand : Nat
  exponent : Int
  deriving DecidableEq, Repr

/-- The parts of a finite number. The sign of a zero is kept. -/
def parts (x : Float) : Parts :=
  let bits := x.toBits.toNat
  let field : Nat := bits / Nat.pow 2 52 % Nat.pow 2 11
  let fraction := bits % Nat.pow 2 52
  { negative := decide (Nat.pow 2 63 ≤ bits)
    significand := if field = 0 then fraction else fraction + Nat.pow 2 52
    exponent := if field = 0 then -1074 else (field : Int) - 1075 }

/-- Numerator of the magnitude, over `Parts.den`. -/
def Parts.num (p : Parts) : Nat := p.significand * Nat.pow 2 p.exponent.toNat

/-- Denominator of the magnitude, a power of two. -/
def Parts.den (p : Parts) : Nat := Nat.pow 2 (-p.exponent).toNat

/-- The quotient rounded to the nearest natural number, a half going to the even neighbour. -/
def roundDiv (num den : Nat) : Nat :=
  let q := num / den
  let r := num % den
  if 2 * r < den then q else if den < 2 * r then q + 1 else q + q % 2

/-- The largest `k` with `2 ^ k ≤ num / den`, for positive `num` and `den`. -/
def binaryOrder (num den : Nat) : Int :=
  let guess : Int := num.log2 - den.log2
  if den * Nat.pow 2 guess.toNat ≤ num * Nat.pow 2 (-guess).toNat then guess else guess - 1

/-- The bits of positive infinity. -/
def infinityBits : Nat := 0x7ff0000000000000

/-- The bits of the binary64 number nearest to `num / den`. The significand has 53 bits, fewer below
`2 ^ -1022`. A significand that rounds up to `2 ^ 53` carries into the exponent field, and all that
lies past the largest finite number is infinity. -/
def nearestBits (num den : Nat) : Nat :=
  if num = 0 then 0 else
    let e := max (binaryOrder num den - 52) (-1074)
    let q := roundDiv (num * Nat.pow 2 (-e).toNat) (den * Nat.pow 2 e.toNat)
    min ((e + 1074).toNat * Nat.pow 2 52 + q) infinityBits

/-- The binary64 number with the given sign and magnitude bits. -/
def ofMagnitudeBits (negative : Bool) (bits : Nat) : Float :=
  Float.ofBits (UInt64.ofNat (if negative then Nat.pow 2 63 + bits else bits))

/-- The binary64 number nearest to `num / den`, negated if `negative`. -/
def nearest (negative : Bool) (num den : Nat) : Float :=
  ofMagnitudeBits negative (nearestBits num den)

/-- The binary64 number nearest to an integer; never `-0`. -/
def ofInt (n : Int) : Float := nearest (decide (n < 0)) n.natAbs 1

/-- The binary64 number nearest to an integer, if that is finite. -/
def ofInt? (n : Int) : Option Float :=
  if nearestBits n.natAbs 1 = infinityBits then none else some (ofInt n)

def infinity : Float := Float.ofBits 0x7ff0000000000000

def nan : Float := Float.ofBits 0x7ff8000000000000

/-- Whether the sign bit is set. -/
def isNegative (x : Float) : Bool := (parts x).negative

/-- The largest integer that is not above a finite number. -/
def floor (x : Float) : Int :=
  let p := parts x
  (if p.negative then -(p.num : Int) else p.num) / (p.den : Int)

/-- The least integer that is not below a finite number. -/
def ceil (x : Float) : Int := -floor (-x)

end PolarPlot.Number
