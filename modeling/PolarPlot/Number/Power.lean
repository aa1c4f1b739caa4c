import PolarPlot.Number.Elementary

/-!
# Powers of binary64 numbers, correctly rounded

`x ^ y` is enclosed as `exp (y ln x)`. The enclosures settle unless `x ^ y` lies half way between
two binary64 numbers, which happens only for a power of two and for a small power of a small odd
number. Those powers are found first and computed exactly.
-/

namespace PolarPlot.Number

open PolarPlot.Number.Interval

/-- Moves factors of two from `n` into the exponent, at most `fuel` of them. -/
def dropTwos : Nat → Nat → Int → Nat × Int
  | 0, n, e => (n, e)
  | fuel + 1, n, e => if n ≠ 0 ∧ n % 2 = 0 then dropTwos fuel (n / 2) (e + 1) else (n, e)

/-- The odd significand of a finite number, and the exponent that goes with it. -/
def Parts.odd (p : Parts) : Nat × Int := dropTwos 53 p.significand p.exponent

/-- Whether a finite number is an integer. -/
def Parts.isInteger (p : Parts) : Bool := p.significand = 0 || 0 ≤ p.odd.2

/-- Whether a finite number is an odd integer. -/
def Parts.isOdd (p : Parts) : Bool := p.significand ≠ 0 && p.odd.2 = 0

/-- Takes the square root of `m * 2 ^ e` exactly, `n` times over. -/
def exactRoot? : Nat → Nat → Int → Option (Nat × Int)
  | 0, m, e => some (m, e)
  | n + 1, m, e =>
    let r := squareRoot m
    if r * r = m ∧ e % 2 = 0 then exactRoot? n r (e / 2) else none

/-- The power `x ^ y` of a positive number, if it is a power of two or a small power of a small odd
number. With `y = n * 2 ^ f` and `f < 0`, the root of order `2 ^ -f` is taken first. The bounds lose
no tie: an odd number above 1 of at most 53 bits has no root of order 64, and its powers past the
34th have more than 54 bits. -/
def exactPower? (x y : Parts) : Option Float :=
  let (m, e) := x.odd
  let (n, f) := y.odd
  let n : Int := if y.negative then -(n : Int) else n
  if m = 1 then
    let exponent := e * n * Nat.pow 2 f.toNat
    if exponent % Nat.pow 2 (-f).toNat = 0 then
      some (nearestScaled 1 (max (-2000) (min 2000 (exponent / Nat.pow 2 (-f).toNat))))
    else none
  else if n < 0 ∨ f < -5 ∨ 6 < f then none
  else
    let n := (n * Nat.pow 2 f.toNat).toNat
    if 64 < n then none
    else (exactRoot? (-f).toNat m e).map fun (m, e) => nearestScaled (Nat.pow m n : Nat) (e * n)

/-- Encloses `y ln x` for a positive number `x`. The extra bits make up for a large factor `y`. -/
def lnTimes (p : Nat) (x y : Parts) : Interval :=
  let extra := (binaryOrder y.num y.den).toNat + 16
  let factor : Int := if y.negative then -(y.num : Int) else y.num
  (((lnInterval (p + extra) x.num x.den).scale factor).shrink y.den).coarsen extra

/-- Past `exp 2000` every power overflows, and before `exp (-2000)` every power is zero. -/
def powerEnclosure (p : Nat) (x y : Parts) : Enclosure :=
  let product := lnTimes p x y
  if 2000 * Nat.pow 2 p < product.lo then ⟨one p, 4000⟩
  else if product.hi < -2000 * Nat.pow 2 p then ⟨one p, -4000⟩
  else expEnclosure p product

/-- `x ^ y` for positive finite `x` and finite `y`, rounded to nearest: infinite on overflow and
zero on underflow. -/
def powPositive (x y : Float) : Float :=
  if x == 1 || y == 0 then 1
  else (exactPower? (parts x) (parts y)).getD (settle fun p => powerEnclosure p (parts x) (parts y))

end PolarPlot.Number
