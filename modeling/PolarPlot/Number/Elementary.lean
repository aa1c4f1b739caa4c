import PolarPlot.Number.Interval

/-!
# Elementary functions, correctly rounded

Each function is enclosed by an interval of any wanted precision. `settle` raises the precision
until both ends of the enclosure round to the same binary64 number; that number is then the value of
the function rounded to nearest. The ends always come to agree in the end, because the values are
never half way between two binary64 numbers: outside the exact points that are answered apart, they
are transcendental. Only the hyperbolic sine and cosine of numbers whose exponential overflows are
computed in binary64 arithmetic.

A library that computes in binary64 arithmetic throughout is not correctly rounded: `sinh`, `cosh`,
`tanh` and `log10` of such a library may differ from those here in the last place.
-/

namespace PolarPlot.Number

open PolarPlot.Number.Interval

/-- An enclosure scaled by a power of two: `interval * 2 ^ exponent`. -/
structure Enclosure where
  interval : Interval
  exponent : Int

/-- The binary64 number nearest to `n * 2 ^ e`. -/
def nearestScaled (n e : Int) : Float :=
  nearest (decide (n < 0)) (n.natAbs * Nat.pow 2 e.toNat) (Nat.pow 2 (-e).toNat)

/-- The number to which all of an enclosure of precision `p` rounds. -/
def Enclosure.settled? (p : Nat) (a : Enclosure) : Option Float :=
  let lo := nearestScaled a.interval.lo (a.exponent - p)
  let hi := nearestScaled a.interval.hi (a.exponent - p)
  if lo = hi then some lo else none

/-- Doubles the precision, at most `fuel` times, until the enclosure settles. -/
def settleFrom (f : Nat → Enclosure) : Nat → Nat → Float
  | 0, p => nearestScaled (f p).interval.lo ((f p).exponent - p)
  | fuel + 1, p => ((f p).settled? p).getD (settleFrom f fuel (2 * p))

/-- The value that the enclosures close in on, rounded to nearest. -/
def settle (f : Nat → Enclosure) : Float := settleFrom f 9 112

/-- The same for enclosures that are not scaled. -/
def settlePlain (f : Nat → Interval) : Float := settle fun p => ⟨f p, 0⟩

/-! ## Series -/

/-- `z - z³/3 + z⁵/5 - ...` for `|z| ≤ 1/2`. -/
def arctanSeries (p : Nat) (z : Interval) : Interval :=
  let square := (z.mul p z).neg
  sumSeries (fun _ t => t.mul p square) (fun k t => t.shrink (2 * k + 1)) (2 * p) 0 z ⟨0, 0⟩

/-- `z + z³/3 + z⁵/5 + ...` for `|z| ≤ 1/2`. -/
def artanhSeries (p : Nat) (z : Interval) : Interval :=
  let square := z.mul p z
  sumSeries (fun _ t => t.mul p square) (fun k t => t.shrink (2 * k + 1)) (2 * p) 0 z ⟨0, 0⟩

/-- `1 + x + x²/2! + ...` for `|x| ≤ 1`. -/
def expSeries (p : Nat) (x : Interval) : Interval :=
  sumSeries (fun k t => (t.mul p x).shrink (k + 1)) (fun _ t => t) (2 * p) 0 (one p) ⟨0, 0⟩

/-- `x - x³/3! + x⁵/5! - ...` for `|x| ≤ 1`. -/
def sinSeries (p : Nat) (x : Interval) : Interval :=
  let square := (x.mul p x).neg
  sumSeries (fun k t => (t.mul p square).shrink ((2 * k + 2) * (2 * k + 3))) (fun _ t => t) (2 * p)
    0 x ⟨0, 0⟩

/-- `1 - x²/2! + x⁴/4! - ...` for `|x| ≤ 1`. -/
def cosSeries (p : Nat) (x : Interval) : Interval :=
  let square := (x.mul p x).neg
  sumSeries (fun k t => (t.mul p square).shrink ((2 * k + 1) * (2 * k + 2))) (fun _ t => t) (2 * p)
    0 (one p) ⟨0, 0⟩

/-! ## Constants -/

/-- `π / 4 = 4 arctan (1/5) - arctan (1/239)`. -/
def quarterPi (p : Nat) : Interval :=
  ((arctanSeries p (ofRatio p 1 5)).scale 4).sub (arctanSeries p (ofRatio p 1 239))

/-- `ln 2 = 2 artanh (1/3)`. -/
def lnTwo (p : Nat) : Interval := (artanhSeries p (ofRatio p 1 3)).scale 2

/-! ## Exponential and logarithm -/

/-- Encloses `exp x`: with `x = n ln 2 + r`, it is `exp r * 2 ^ n`. -/
def expEnclosure (p : Nat) (x : Interval) : Enclosure :=
  let ln := lnTwo p
  let n := x.lo / ln.lo
  ⟨expSeries p (x.sub (ln.scale n)), n⟩

/-- Encloses `ln (num / den)`: with `num / den = f * 2 ^ n` and `f` near 1, it is
`2 artanh ((f - 1) / (f + 1)) + n ln 2`. -/
def lnInterval (p : Nat) (num den : Nat) : Interval :=
  let order := binaryOrder num den
  let num := num * Nat.pow 2 (-order).toNat
  let den := den * Nat.pow 2 order.toNat
  let (den, n) := if 4 * den < 3 * num then (2 * den, order + 1) else (den, order)
  let z := ofRatio p ((num : Int) - den) (num + den)
  ((artanhSeries p z).scale 2).add ((lnTwo p).scale n)

/-! ## Circular functions -/

/-- The nearest multiple of `π / 2` to an angle, by its count, and the rest of the angle. The extra
bits keep the rest exact to `p` bits after a large multiple has been taken away. -/
def reduceAngle (p : Nat) (x : Parts) : Int × Interval :=
  let extra := (binaryOrder x.num x.den).toNat + 16
  let q := p + extra
  let angle := ofRatio q (if x.negative then -(x.num : Int) else x.num) x.den
  let half := (quarterPi q).scale 2
  let count := (2 * angle.lo + half.lo) / (2 * half.lo)
  (count, (angle.sub (half.scale count)).coarsen extra)

def sinInterval (p : Nat) (x : Parts) : Interval :=
  let (count, r) := reduceAngle p x
  match (count % 4).toNat with
  | 0 => sinSeries p r
  | 1 => cosSeries p r
  | 2 => (sinSeries p r).neg
  | _ => (cosSeries p r).neg

def cosInterval (p : Nat) (x : Parts) : Interval :=
  let (count, r) := reduceAngle p x
  match (count % 4).toNat with
  | 0 => cosSeries p r
  | 1 => (sinSeries p r).neg
  | 2 => (cosSeries p r).neg
  | _ => sinSeries p r

/-- `a / b`, once the precision tells the sign of `b`. -/
def quotient? (p : Nat) (a b : Interval) : Option Interval :=
  if 0 < b.lo then some (a.div p b)
  else if b.hi < 0 then some (a.neg.div p b.neg)
  else none

def tanInterval (p : Nat) (x : Parts) : Interval :=
  let (count, r) := reduceAngle p x
  let sine := sinSeries p r
  let cosine := cosSeries p r
  let result := if count % 2 = 0 then quotient? p sine cosine else quotient? p cosine.neg sine
  result.getD ⟨-(Nat.pow 2 p), Nat.pow 2 p⟩

/-- Encloses `arctan z` for `0 ≤ z ≤ 1`, by `arctan z = 2 arctan (z / (1 + √(1 + z²)))`. -/
def arctanHalved (p : Nat) : Nat → Interval → Interval
  | 0, z => arctanSeries p z
  | n + 1, z =>
    let root := ((one p).add (z.mul p z)).sqrt p
    (arctanHalved p n (z.div p ((one p).add root))).scale 2

/-- Encloses `arctan (num / den)`; above 1 it is `π / 2` less the value at the reciprocal. -/
def arctanInterval (p : Nat) (num den : Nat) : Interval :=
  if num ≤ den then arctanHalved p 3 (ofRatio p num den)
  else ((quarterPi p).scale 2).sub (arctanHalved p 3 (ofRatio p den num))

/-- Encloses `arcsin (num / den)` for `num ≤ den`, by
`arcsin x = 2 arctan (x / (1 + √(1 - x²)))`. -/
def arcsinInterval (p : Nat) (num den : Nat) : Interval :=
  let square := ofRatio p ((den * den : Int) - num * num) (den * den)
  let root := square.sqrt p
  (arctanHalved p 3 ((ofRatio p num den).div p ((one p).add root))).scale 2

/-! ## The functions on binary64 numbers

Arguments are finite and, where a function has a bounded domain, inside it. -/

def sin (x : Float) : Float :=
  if x == 0 then x else settlePlain fun p => sinInterval p (parts x)

def cos (x : Float) : Float :=
  if x == 0 then 1 else settlePlain fun p => cosInterval p (parts x)

def tan (x : Float) : Float :=
  if x == 0 then x else settlePlain fun p => tanInterval p (parts x)

/-- Applies an odd function by its values at positive numbers. -/
def oddly (f : Nat → Nat → Float) (x : Float) : Float :=
  let v := f (parts x).num (parts x).den
  if (parts x).negative then -v else v

def arctan (x : Float) : Float :=
  if x == 0 then x
  else oddly (fun num den => settlePlain fun p => arctanInterval p num den) x

def arcsin (x : Float) : Float :=
  if x == 0 then x
  else oddly (fun num den => settlePlain fun p => arcsinInterval p num den) x

def arccos (x : Float) : Float :=
  if x == 1 then 0
  else settlePlain fun p =>
    let half := (quarterPi p).scale 2
    let angle := arcsinInterval p (parts x).num (parts x).den
    if (parts x).negative then half.add angle else half.sub angle

/-- The nearest binary64 number to `π / 2`. -/
def halfPi : Float := settlePlain fun p => (quarterPi p).scale 2

def ln (x : Float) : Float :=
  if x == 1 then 0 else settlePlain fun p => lnInterval p (parts x).num (parts x).den

def log10 (x : Float) : Float :=
  if x == 1 then 0
  else settlePlain fun p => (lnInterval p (parts x).num (parts x).den).div p (lnInterval p 10 1)

/-- The exponential of the nonnegative ratio `num / den`, which is not past `hyperbolicLimit`. -/
def exp (num den : Nat) : Float :=
  if num = 0 then 1 else settle fun p => expEnclosure p (ofRatio p num den)

/-- `exp y` and `exp (-y)` on the scale of `exp y`, for a nonnegative ratio `y`. -/
def expPair (p : Nat) (num den : Nat) : Interval × Interval × Int :=
  let e := expEnclosure p (ofRatio p num den)
  let inverse := (one p).div p e.interval
  (e.interval, inverse.coarsen (2 * e.exponent).toNat, e.exponent)

/-- From here on the exponential is too large, though half of it may not be. -/
def exponentialLimit : Float := 709.7822265625

/-- Past this the hyperbolic sine and cosine overflow. -/
def hyperbolicLimit : Float := 1000

/-- Half the exponential of a ratio, by the square of the exponential of half the ratio. -/
def halfExp (num den : Nat) : Float :=
  let root := exp num (2 * den)
  (0.5 * root) * root

/-- The common course of the hyperbolic sine and cosine for positive numbers. -/
def hyperbolic (f : Interval → Interval → Interval) (x : Float) (num den : Nat) : Float :=
  if hyperbolicLimit < x then infinity
  else if exponentialLimit ≤ x then halfExp num den
  else settle fun p =>
    let (e, inverse, n) := expPair p num den
    ⟨f e inverse, n - 1⟩

def sinh (x : Float) : Float := if x == 0 then x else oddly (hyperbolic Interval.sub x.abs) x

def cosh (x : Float) : Float := hyperbolic Interval.add x.abs (parts x).num (parts x).den

def tanh (x : Float) : Float :=
  if x == 0 then x
  else if hyperbolicLimit < x.abs then (if x < 0 then -1 else 1)
  else oddly (fun num den => settlePlain fun p =>
    let (e, inverse, _) := expPair p num den
    (e.sub inverse).div p (e.add inverse)) x

end PolarPlot.Number
