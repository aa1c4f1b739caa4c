import PolarPlot.Number.Decimal

/-!
# Decimal digits of a binary64 number

`shortest` gives the fewest digits that read back as the same number, and among those the nearest to
it; `rounded` gives a fixed count of digits. Both work on the exact value of the number.
-/

namespace PolarPlot.Number

/-- The largest `k` with `10 ^ k ≤ num / den`, for a positive ratio in the range of binary64. The
binary order gives `k` up to one step, since `30103 / 100000` is `log₁₀ 2` to nine places. -/
def decimalOrder (num den : Nat) : Int :=
  let guess := binaryOrder num den * 30103 / 100000
  let reaches (k : Int) : Bool := den * Nat.pow 10 k.toNat ≤ num * Nat.pow 10 (-k).toNat
  if reaches (guess + 1) then guess + 1 else if reaches guess then guess else guess - 1

/-- Removes the zeros at the end of a row of digits, at most `fuel` of them. -/
def dropZeros : Nat → Nat → Int → Nat × Int
  | 0, digits, exponent => (digits, exponent)
  | fuel + 1, digits, exponent =>
    if digits ≠ 0 ∧ digits % 10 = 0 then dropZeros fuel (digits / 10) (exponent + 1)
    else (digits, exponent)

/-- The exact decimal expansion of `significand * 2 ^ exponent`. -/
def exactDigits (p : Parts) : Nat × Int :=
  if 0 ≤ p.exponent then (p.significand * Nat.pow 2 p.exponent.toNat, 0)
  else (p.significand * Nat.pow 5 (-p.exponent).toNat, p.exponent)

/-- A decimal of `count` digits that reads back as `p`, if there is one: the nearest to `p`, or else
its other neighbour with so many digits. -/
def digitsOfCount? (p : Parts) (order : Int) (count : Nat) : Option (Nat × Int) :=
  let exponent := order - (count - 1)
  let num := p.num * Nat.pow 10 (-exponent).toNat
  let den := p.den * Nat.pow 10 exponent.toNat
  let near := roundDiv num den
  let other := if near = num / den then near + 1 else num / den
  let readsBack (d : Nat) : Bool := Decimal.magnitudeBits d exponent = nearestBits p.num p.den
  if readsBack near then some (near, exponent)
  else if readsBack other then some (other, exponent)
  else none

/-- The fewest digits that read back as the finite number `x`, without zeros at the end. Seventeen
digits always suffice. -/
def shortest (x : Float) : Decimal :=
  let p := parts x
  if p.significand = 0 then ⟨p.negative, 0, 0⟩
  else
    let order := decimalOrder p.num p.den
    let found := (List.range' 1 17).findSome? (digitsOfCount? p order)
    let (digits, exponent) := found.getD (exactDigits p)
    let (digits, exponent) := dropZeros 400 digits exponent
    ⟨p.negative, digits, exponent⟩

/-- The finite number `x` rounded to `count` significant digits, without zeros at the end. -/
def rounded (count : Nat) (x : Float) : Decimal :=
  let p := parts x
  if p.significand = 0 then ⟨p.negative, 0, 0⟩
  else
    let exponent := decimalOrder p.num p.den - (count - 1)
    let near := roundDiv (p.num * Nat.pow 10 (-exponent).toNat) (p.den * Nat.pow 10 exponent.toNat)
    let (digits, exponent) := dropZeros count near exponent
    ⟨p.negative, digits, exponent⟩

end PolarPlot.Number
